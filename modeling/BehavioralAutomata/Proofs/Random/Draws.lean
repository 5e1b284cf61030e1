import BehavioralAutomata.Proofs.Acceptor.Construction
import BehavioralAutomata.Random.Systems
import Mathlib.Data.List.Perm.Basic

/-!
# Drawing never fails on the way

* `Random.Returns`: a computation that ends with a value from every state of the source, and what holds of
  the value. There is one rule for each way in which computations are put together.
* `Random.returns_pick`, `Random.returns_connect`, `Random.returns_rows`, `Random.returns_system`: when
  numbers, indices, edges, initial states and procedures are in order.
* `Random.returns_shuffle`: a shuffled list has the elements that it had before.
-/

namespace BehavioralAutomata

namespace Random

variable {G α : Type} {δ ω : Type} {ι : Type}

/-- The computation ends with a value for which `P` holds, from every state of the source. -/
def Returns (x : Draw G α δ) (P : δ → Prop) : Prop :=
  ∀ g, ∃ d g', x.run g = .ok (d, g') ∧ P d

namespace Returns

variable {x : Draw G α δ} {P Q : δ → Prop} {R : ω → Prop}

theorem mono (h : Returns x P) (hPQ : ∀ d, P d → Q d) : Returns x Q := by
  intro g
  obtain ⟨d, g', hd, hP⟩ := h g
  exact ⟨d, g', hd, hPQ d hP⟩

theorem pure {d : δ} (h : P d) : Returns (pure d : Draw G α δ) P := fun g => ⟨d, g, rfl, h⟩

theorem modifyGet {f : G → δ × G} (h : ∀ g, P (f g).1) :
    Returns (modifyGet f : Draw G α δ) P := fun g => ⟨_, _, rfl, h g⟩

theorem bind {f : δ → Draw G α ω} (h : Returns x P) (hf : ∀ d, P d → Returns (f d) R) :
    Returns (x >>= f) R := by
  intro g
  obtain ⟨d, g', hd, hP⟩ := h g
  obtain ⟨e, g'', he, hR⟩ := hf d hP g'
  refine ⟨e, g'', ?_, hR⟩
  rw [StateT.run_bind, hd]
  exact he

theorem foldlM_from {σ : Type} {P : List ι → σ → Prop} {f : σ → ι → Draw G α σ} {xs : List ι}
    (step : ∀ done a rest s, xs = done ++ a :: rest → P done s → Returns (f s a) (P (done ++ [a])))
    {done rest : List ι} {s : σ} (hxs : xs = done ++ rest) (h : P done s) :
    Returns (rest.foldlM f s) (P xs) := by
  induction rest generalizing done s with
  | nil =>
    rw [List.append_nil] at hxs
    exact .pure (hxs ▸ h)
  | cons a rest ih =>
    rw [List.foldlM_cons]
    refine (step done a rest s hxs h).bind fun t ht => ih ?_ ht
    rw [hxs, List.append_assoc]
    rfl

/-- A loop of which every step returns. What is said of the state may mention the elements that the loop
has passed. -/
theorem foldlM {σ : Type} {P : List ι → σ → Prop} {f : σ → ι → Draw G α σ} {xs : List ι} {s : σ}
    (step : ∀ done a rest s, xs = done ++ a :: rest → P done s → Returns (f s a) (P (done ++ [a])))
    (h : P [] s) : Returns (xs.foldlM f s) (P xs) :=
  foldlM_from step rfl h

/-- A loop that keeps something. -/
theorem foldlM_keeps {σ : Type} {P : σ → Prop} {f : σ → ι → Draw G α σ} {xs : List ι} {s : σ}
    (step : ∀ s, ∀ a ∈ xs, P s → Returns (f s a) P) (h : P s) : Returns (xs.foldlM f s) P :=
  foldlM (P := fun _ => P) (fun _ a _ s hxs => step s a (by simp [hxs])) h

/-- One value after the other is drawn. -/
theorem mapM_pairs (h : Returns x P) (xs : List ι) :
    Returns (xs.mapM fun a => do return (a, ← x)) fun ps =>
      ps.map Prod.fst = xs ∧ ∀ p ∈ ps, P p.2 := by
  induction xs with
  | nil => exact .pure ⟨rfl, List.forall_mem_nil _⟩
  | cons a xs ih =>
    rw [List.mapM_cons]
    have hpair : Returns (do return (a, ← x)) fun p => p.1 = a ∧ P p.2 :=
      h.bind fun d hd => .pure ⟨rfl, hd⟩
    refine hpair.bind fun p hp => ?_
    refine ih.bind fun ps hps => .pure ⟨?_, ?_⟩
    · rw [List.map_cons, hp.1, hps.1]
    · exact List.forall_mem_cons.2 ⟨hp.2, hps.2⟩

theorem ne_error (h : Returns x P) (g : G) (e : GenerationError α) :
    x.run g ≠ .error e := by
  obtain ⟨d, g', hd, _⟩ := h g
  rw [hd]
  rintro ⟨⟩

end Returns

/-! ## What is drawn -/

section

variable [RandomSource G]

theorem returns_coin : Returns (coin : Draw G α Bool) fun _ => True :=
  .modifyGet fun _ => trivial

theorem returns_shuffle [RandomSource.Permuting G] (xs : List α) :
    Returns (modifyGet (RandomSource.shuffle · xs) : Draw G α (List α)) (·.Perm xs) :=
  .modifyGet fun g => RandomSource.Permuting.perm_shuffle g xs

variable [RandomSource.Bounded G]

theorem returns_below {n : Nat} (h : 0 < n) : Returns (below n : Draw G α Nat) (· < n) := by
  rw [below, if_neg (Nat.ne_of_gt h)]
  exact .modifyGet fun g => RandomSource.Bounded.below_lt g h

theorem returns_pick {xs : List α} (h : xs ≠ []) :
    Returns (pick xs : Draw G α α) (· ∈ xs) := by
  refine (returns_below (List.length_pos_iff.2 h)).bind fun i hi => ?_
  rw [List.getElem?_eq_getElem hi]
  exact .pure (List.getElem_mem hi)

end

variable [DecidableEq α] {A : Alphabet α} {D : Acceptor α}

theorem returns_connect {p q : Nat} (hp : p < D.size) (hq : q < D.size) (a : α) :
    Returns (connect D p a q : Draw G α (Acceptor α)) (D.Joins p a q) := by
  obtain ⟨E, hE, hjoins⟩ := D.exists_joins hp hq a
  rw [connect, hE]
  exact .pure hjoins

/-- States in a row, without edges. -/
structure Row (n : Nat) (D : Acceptor α) : Prop where
  size : D.size = n
  start : D.start = some 0
  allAccept : D.AllAccept
  successor : ∀ q a, D.successor q a = none

theorem returns_rows {n : Nat} (h : 0 < n) : Returns (rows n : Draw G α (Acceptor α)) (Row n) := by
  have hsize : (Acceptor.ofVerdicts (List.replicate n true) : Acceptor α).size = n := by simp
  have hpos : 0 < (Acceptor.ofVerdicts (List.replicate n true) : Acceptor α).size := by rwa [hsize]
  rw [rows, Acceptor.setInitial, dif_pos hpos]
  refine .pure ⟨hsize, rfl, fun q hq => ?_, Acceptor.successor_ofVerdicts _⟩
  have hlt : q < n := hsize ▸ hq
  refine (Acceptor.isAccepting_ofVerdicts _ q).trans ?_
  rw [List.getElem?_replicate, if_pos hlt]
  rfl

/-- A system with these procedures and this initial call. -/
structure Composed (A : Alphabet α) (initial : Option α) (procedures : List (α × Acceptor α))
    (S : PlainSystem α) : Prop where
  alphabet : S.alphabet = A
  initialCall : S.initialCall = initial
  entries : S.procedures.entries = procedures

theorem returns_system {procedures : List (α × Acceptor α)} (initial : Option α)
    (h : (procedures.map Prod.fst).Perm A.calls) :
    Returns (system A initial procedures : Draw G α (PlainSystem α))
      (Composed A initial procedures) := by
  have hnodup : (procedures.map Prod.fst).Nodup := h.nodup_iff.2 A.nodup_calls
  have hentries := AssocMap.entries_ofList hnodup
  have hcalls : ∀ c ∈ (AssocMap.ofList procedures).keys, A.isCall c = true := by
    intro c hc
    rw [AssocMap.keys, hentries] at hc
    exact decide_eq_true (Alphabet.kind?_eq_call_iff.2 (h.mem_iff.1 hc))
  rw [system, PlainSystem.ofProcedures]
  split
  · next hS =>
    split at hS
    · cases hS
    · cases hS
      exact .pure ⟨rfl, rfl, hentries⟩
  · next hS =>
    split at hS
    · next c hc =>
      have hcall := hcalls c (List.mem_of_find?_eq_some hc)
      have hnone := List.find?_some hc
      simp [hcall] at hnone
    · cases hS

end Random

end BehavioralAutomata
