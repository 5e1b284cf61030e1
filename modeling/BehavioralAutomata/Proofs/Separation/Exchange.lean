import BehavioralAutomata.Separation.Search
import Mathlib.Logic.Basic

/-!
# The order of the systems does not matter

The search with the systems exchanged goes through the same pairs with their parts exchanged, finds the
same words to enter and to end procedures, and stops at the same place.

* `Separation.Matches`: two computations that fail alike or end in states that are related.
* `Separation.Mirrored`: explorations that have seen the same pairs with their parts exchanged.
* `Separation.visit_mirrored`: one step keeps explorations mirrored, or both stop with the same word.
* `separatingWord?_comm`: so the whole search answers the same.
-/

namespace BehavioralAutomata

namespace Separation

/-! ## Two computations side by side -/

/-- Both computations fail with the same error, or they end with related values. -/
inductive Matches {ε : Type u} {δ : Type v} (R : δ → δ → Prop) : Except ε δ → Except ε δ → Prop where
  | ok {d d' : δ} (rel : R d d') : Matches R (.ok d) (.ok d')
  | error (e : ε) : Matches R (.error e) (.error e)

namespace Matches

variable {ε : Type u} {δ ω : Type v} {R : δ → δ → Prop} {x x' : Except ε δ}

theorem bind {R' : ω → ω → Prop} {f f' : δ → Except ε ω} (h : Matches R x x')
    (hf : ∀ d d', R d d' → Matches R' (f d) (f' d')) : Matches R' (x >>= f) (x' >>= f') := by
  cases h with
  | ok hd => exact hf _ _ hd
  | error e => exact .error e

theorem foldlM {ι : Type w} {f f' : δ → ι → Except ε δ}
    (step : ∀ a d d', R d d' → Matches R (f d a) (f' d' a)) (xs : List ι) {d d' : δ} (h : R d d') :
    Matches R (xs.foldlM f d) (xs.foldlM f' d') := by
  induction xs generalizing d d' with
  | nil => exact .ok h
  | cons a xs ih =>
    rw [List.foldlM_cons, List.foldlM_cons]
    exact (step a d d' h).bind fun _ _ => ih

theorem ite {p p' : Prop} [Decidable p] [Decidable p'] (hp : p ↔ p') {e : ε} (h : Matches R x x') :
    Matches R (if p then .error e else x) (if p' then .error e else x') := by
  by_cases h' : p
  · rw [if_pos h', if_pos (hp.1 h')]
    exact .error e
  · rw [if_neg h', if_neg (mt hp.2 h')]
    exact h

theorem eq (h : Matches Eq x x') : x = x' := by
  cases h with
  | ok hd => rw [hd]
  | error e => rfl

end Matches

/-! ## Mirrored explorations -/

variable {α : Type}

/-- The explorations have the same findings and the same pairs with their parts exchanged. -/
structure Mirrored (E E' : Progress α) : Prop where
  findings : E'.findings = E.findings
  seen : ∀ p, E'.seen.contains p.swap = E.seen.contains p
  queue : E'.queue.toList = E.queue.toList.map (Prod.map Prod.swap id)

theorem swap_beq_swap (p q : Nat × Nat) : (p.swap == q.swap) = (p == q) := by
  rw [Bool.eq_iff_iff, beq_iff_eq, beq_iff_eq, Prod.swap_inj]

theorem mirrored_start (F : Findings α) (p : Nat × Nat) :
    Mirrored (.start F p) (.start F p.swap) where
  findings := rfl
  seen q := by simp [Progress.start, swap_beq_swap]
  queue := rfl

namespace Mirrored

variable {E E' : Progress α}

theorem withFindings (h : Mirrored E E') (F : Findings α) :
    Mirrored { E with findings := F } { E' with findings := F } :=
  ⟨rfl, h.seen, h.queue⟩

theorem push (h : Mirrored E E') (p : Nat × Nat) (u : List α) :
    Mirrored (E.push p u) (E'.push p.swap u) := by
  rw [Progress.push, Progress.push, h.seen]
  split
  · exact h
  · refine ⟨h.findings, fun q => ?_, ?_⟩
    · simp only [PairSet.contains_insert, h.seen, swap_beq_swap]
    · simp only [Queue.toList_push, h.queue, List.map_append, List.map_cons, List.map_nil,
        Prod.map_apply, id_eq]

theorem pop?_eq_none (h : Mirrored E E') (hpop : E.queue.pop? = none) : E'.queue.pop? = none := by
  rw [Queue.pop?_eq_none_iff] at hpop ⊢
  rw [h.queue, hpop, List.map_nil]

/-- Both explorations leave a pair for the same word. -/
theorem pop?_eq_some (h : Mirrored E E') {p q : Nat} {u : List α} {rest : Queue ((Nat × Nat) × List α)}
    (hpop : E.queue.pop? = some (((p, q), u), rest)) :
    ∃ rest', E'.queue.pop? = some (((q, p), u), rest') ∧
      Mirrored { E with queue := rest } { E' with queue := rest' } := by
  have hqueue := h.queue
  rw [Queue.toList_of_pop? hpop, List.map_cons] at hqueue
  have hpop' := Queue.pop?_eq_some_iff_toList.2 hqueue
  obtain ⟨⟨x, rest'⟩, hrest, hx⟩ := Option.map_eq_some_iff.1 hpop'
  obtain ⟨rfl, hlist⟩ := Prod.mk.inj hx
  exact ⟨rest', hrest, h.findings, h.seen, hlist⟩

end Mirrored

/-! ## The search -/

variable {β γ : Type} [DecidableEq α] [DecidableEq β] [DecidableEq γ] {L : System α β}
  {R : System α γ}

/-- A call that only one system survives is followed in that system, whichever place it has. -/
theorem oneSided_matches (S : System α β) (w : List α) (a : α) {E E' : Progress α}
    (h : Mirrored E E') :
    Matches Mirrored (do oneSided S w a; .ok E) (do oneSided S w a; .ok E') := by
  rw [oneSided]
  split
  · exact .error _
  · exact .ok h

theorem visit_call_mirrored (hA : L.alphabet = R.alphabet) {a : α}
    (ha : L.alphabet.kind? a = some .call) (c : α) (w u : List α) (l r : Option Nat)
    {E E' : Progress α} (h : Mirrored E E') :
    Matches Mirrored (visit L R c w u E a l r) (visit R L c w u E' a r l) := by
  rcases l with _ | p <;> rcases r with _ | q <;>
    simp only [visit, ← hA, ha, Option.bind_none, Option.bind_some]
  · exact .ok h
  · refine .ite (by rw [bne_comm]) ?_
    cases entryVerdict? R a with
    | none => exact .ok h
    | some _ => exact oneSided_matches R (w ++ u.reverse) a h
  · refine .ite (by rw [bne_comm]) ?_
    cases entryVerdict? L a with
    | none => exact .ok h
    | some _ => exact oneSided_matches L (w ++ u.reverse) a h
  · refine .ite (by rw [bne_comm]) ?_
    cases entryVerdict? L a with
    | none =>
      cases entryVerdict? R a with
      | none => exact .ok h
      | some _ => exact oneSided_matches R (w ++ u.reverse) a h
    | some _ =>
      cases entryVerdict? R a with
      | none => exact oneSided_matches L (w ++ u.reverse) a h
      | some _ =>
        simp only [h.findings]
        split
        · exact .ok ((h.withFindings _).push (p, q) _)
        · exact .ok (h.withFindings _)

/-- Exchanging the systems exchanges the successors. -/
theorem visit_mirrored (hA : L.alphabet = R.alphabet) (c : α) (w u : List α) (a : α)
    (l r : Option Nat) {E E' : Progress α} (h : Mirrored E E') :
    Matches Mirrored (visit L R c w u E a l r) (visit R L c w u E' a r l) := by
  cases ha : L.alphabet.kind? a with
  | none => rcases l with _ | p <;> rcases r with _ | q <;> simp only [visit, ← hA, ha] <;> exact .ok h
  | some k =>
    cases k with
    | call => exact visit_call_mirrored hA ha c w u l r h
    | internal =>
      rcases l with _ | p <;> rcases r with _ | q <;> simp only [visit, ← hA, ha]
      · exact .ok h
      · exact .error _
      · exact .error _
      · exact .ok (h.push (p, q) (a :: u))
    | ret =>
      rcases l with _ | p <;> rcases r with _ | q <;> simp only [visit, ← hA, ha]
      · exact .ok h
      · exact .error _
      · exact .error _
      · rw [h.findings]
        exact .ok (h.withFindings _)

theorem leave_mirrored (hA : L.alphabet = R.alphabet) (c : α) (w : List α) (P : Acceptor β)
    (Q : Acceptor γ) (p q : Nat) (u : List α) {E E' : Progress α} (h : Mirrored E E') :
    Matches Mirrored (leave L R (letters L R) c w P Q p q u E)
      (leave R L (letters R L) c w Q P q p u E') := by
  rw [leave, leave, letters, letters, List.foldlM_map, List.foldlM_map, ← hA]
  refine .foldlM (fun a _ _ h' => ?_) _ h
  exact visit_mirrored hA c w u a _ _ h'

theorem explorePairs_comm (hA : L.alphabet = R.alphabet) (c : α) (w : List α) (P : Acceptor β)
    (Q : Acceptor γ) (fuel : Nat) {E E' : Progress α} (h : Mirrored E E') :
    explorePairs L R (letters L R) c w P Q fuel E =
      explorePairs R L (letters R L) c w Q P fuel E' := by
  apply Matches.eq
  induction fuel generalizing E E' with
  | zero => exact .ok h.findings.symm
  | succ n ih =>
    rw [explorePairs, explorePairs]
    cases hpop : E.queue.pop? with
    | none =>
      rw [h.pop?_eq_none hpop]
      exact .ok h.findings.symm
    | some x =>
      obtain ⟨⟨⟨p, q⟩, u⟩, rest⟩ := x
      obtain ⟨rest', hpop', hrest⟩ := h.pop?_eq_some hpop
      rw [hpop']
      exact (leave_mirrored hA c w P Q p q u hrest).bind fun _ _ => ih

theorem explore_comm (hA : L.alphabet = R.alphabet) (F : Findings α) (c : α) :
    explore L R (letters L R) F c = explore R L (letters R L) F c := by
  rw [explore, explore]
  cases F.access.get? c with
  | none => rfl
  | some w =>
    cases L.procedures.get? c with
    | none => cases R.procedures.get? c <;> rfl
    | some P =>
      cases R.procedures.get? c with
      | none => rfl
      | some Q =>
        cases hp : P.start with
        | none => cases hq : Q.start <;> simp only [hp, hq]
        | some p =>
          cases hq : Q.start with
          | none => simp only [hp, hq]
          | some q =>
            simp only [hp, hq, Nat.mul_comm Q.size]
            exact explorePairs_comm hA c w P Q _ (mirrored_start F (p, q))

theorem saturate_comm (hA : L.alphabet = R.alphabet) (rounds : Nat) (F : Findings α) :
    saturate L R rounds F = saturate R L rounds F := by
  induction rounds generalizing F with
  | zero => rfl
  | succ n ih => simp only [saturate, funext₂ (explore_comm hA), ih]

theorem visitFirst_comm (hA : L.alphabet = R.alphabet) (F : Findings α) (a : α) :
    visitFirst L R F a = visitFirst R L F a := by
  simp only [visitFirst, ← hA, bne_comm (a := R.isAccepting _)]
  cases (L.reached [a]).isDead <;> cases (R.reached [a]).isDead <;> rfl

theorem search_comm (hA : L.alphabet = R.alphabet) : search L R = search R L := by
  simp only [search, ← hA, funext₂ (visitFirst_comm hA), saturate_comm hA]

end Separation

variable {α β γ : Type} [DecidableEq α] [DecidableEq β] [DecidableEq γ]

/-- Which of the systems comes first does not matter: either no word is found both ways, or the same one. -/
theorem separatingWord?_comm {L : System α β} {R : System α γ} (hA : L.alphabet = R.alphabet) :
    separatingWord? L R = separatingWord? R L := by
  rw [separatingWord?, separatingWord?, Separation.search_comm hA]

/-- A procedure that starts in a rejecting state and can return. -/
def returnsLate : Acceptor Char where
  states := #[⟨false, .ofList [('R', 1)]⟩, ⟨true, ∅⟩]
  start := some 0
  target_lt := by decide
  start_lt := by decide

/-- Its procedure `S` calls `T` once. -/
def callsOnce (procedures : List (Char × Acceptor Char)) : System Char Char where
  alphabet := ⟨['z'], ['S', 'T'], 'R', by decide⟩
  initialCall := some 'S'
  procedures := .ofList (('S', {
    states := #[⟨true, .ofList [('T', 1)]⟩, ⟨true, ∅⟩]
    start := some 0
    target_lt := by decide
    start_lt := by decide }) :: procedures)
  read := some

/-- Only one of the systems has `T`, and it accepts again when `T` has returned. -/
theorem separatingWord?_callsOnce :
    (callsOnce [('T', returnsLate)]).alphabet = (callsOnce []).alphabet ∧
    separatingWord? (callsOnce [('T', returnsLate)]) (callsOnce []) = some ['S', 'T', 'R'] ∧
      separatingWord? (callsOnce []) (callsOnce [('T', returnsLate)]) = some ['S', 'T', 'R'] := by
  have hA : (callsOnce [('T', returnsLate)]).alphabet = (callsOnce []).alphabet := rfl
  have h : separatingWord? (callsOnce [('T', returnsLate)]) (callsOnce []) =
      some ['S', 'T', 'R'] := by decide
  exact ⟨hA, h, (separatingWord?_comm hA).symm.trans h⟩

end BehavioralAutomata
