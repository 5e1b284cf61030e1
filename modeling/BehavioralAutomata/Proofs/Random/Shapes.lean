import BehavioralAutomata.Proofs.Acceptor.Completion
import BehavioralAutomata.Proofs.Random.Draws
import BehavioralAutomata.Proofs.Random.Generator
import BehavioralAutomata.Proofs.System.Stacks

/-!
# What random systems look like

* `Random.Open`, `Random.Returning`: what holds of a procedure while its edges are drawn, before and after it
  gets the state that its returns lead to.
* `Random.Returning.shape`: completion always adds a state, because nothing leads on behind a return.
* `Random.returns_totalProcedure`, `Random.returns_partialProcedure`: every procedure has this shape, whatever
  is drawn.
* `Random.systems_drawn`: what follows for the systems.
-/

namespace BehavioralAutomata

theorem Alphabet.ret_not_mem_procedural {α : Type u} (A : Alphabet α) : A.ret ∉ A.procedural :=
  fun h => (List.nodup_append.1 A.nodup).2.2 _ h _ (List.mem_singleton.2 rfl) rfl

theorem Alphabet.ret_mem_symbols {α : Type u} (A : Alphabet α) : A.ret ∈ A.symbols :=
  List.mem_append_right _ (List.mem_singleton.2 rfl)

namespace Random

variable {G α : Type} [DecidableEq α] {A : Alphabet α} {D E : Acceptor α} {n size : Nat}

/-! ## Procedures without returns -/

/-- All states accept, and no procedure returns yet. -/
structure Open (A : Alphabet α) (n : Nat) (D : Acceptor α) : Prop where
  size : D.size = n
  start : D.start = some 0
  allAccept : D.AllAccept
  ret : ∀ q, D.successor q A.ret = none

theorem Row.open (h : Row n D) : Open A n D :=
  ⟨h.size, h.start, h.allAccept, fun q => h.successor q A.ret⟩

theorem Open.joins {p q : Nat} {a : α} (h : Open A n D) (ha : a ∈ A.procedural)
    (hE : D.Joins p a q E) : Open A n E where
  size := hE.size.trans h.size
  start := hE.start.trans h.start
  allAccept := h.allAccept.joins hE
  ret r := by
    have hne : ¬ (r = p ∧ A.ret = a) := fun hr => A.ret_not_mem_procedural (hr.2 ▸ ha)
    rw [hE.successor, if_neg hne, h.ret]

/-- A way to draw edges between the first `n` states. -/
def DrawsEdges (A : Alphabet α) (n : Nat) (edge : Acceptor α → Nat → α → Draw G α (Acceptor α)) :
    Prop :=
  ∀ D q a, Open A n D → q < n → a ∈ A.procedural → Returns (edge D q a) (Open A n)

theorem returns_drawEdges {edge : Acceptor α → Nat → α → Draw G α (Acceptor α)}
    (hedge : DrawsEdges A n edge) (hD : Open A n D) :
    Returns (drawEdges A n edge D) (Open A n) := by
  refine .foldlM_keeps (fun D q hq hD => ?_) hD
  exact .foldlM_keeps (fun D a ha hD => hedge D q a hD (List.mem_range.1 hq) ha) hD

section

variable [RandomSource G] [RandomSource.Bounded G]

theorem drawsEdges_drawEdge (A : Alphabet α) (n : Nat) :
    DrawsEdges A n (drawEdge n : Acceptor α → Nat → α → Draw G α (Acceptor α)) := by
  intro D q a hD hq ha
  refine (returns_below (Nat.zero_lt_of_lt hq)).bind fun r hr => ?_
  exact (returns_connect (hD.size ▸ hq) (hD.size ▸ hr) a).mono fun E hE => hD.joins ha hE

theorem drawsEdges_tossEdge (A : Alphabet α) (n : Nat) :
    DrawsEdges A n (tossEdge n : Acceptor α → Nat → α → Draw G α (Acceptor α)) := by
  intro D q a hD hq ha
  refine returns_coin.bind fun b _ => ?_
  cases b with
  | true => exact drawsEdges_drawEdge A n D q a hD hq ha
  | false => exact .pure hD

end

/-! ## Returns -/

/-- All states accept, and nothing can be read behind a return. -/
structure Returning (A : Alphabet α) (n : Nat) (D : Acceptor α) : Prop where
  size : D.size = n + 1
  start : D.start = some 0
  allAccept : D.AllAccept
  ret : ∀ q p, D.successor q A.ret = some p → p = n
  last : ∀ a, D.successor n a = none

theorem Open.addState (h : Open A n D) : Returning A n (D.addState true) where
  size := by rw [Acceptor.size_addState, h.size]
  start := h.start
  allAccept := h.allAccept.addState
  ret q p hp := by
    rw [Acceptor.successor_addState, h.ret] at hp
    cases hp
  last a := by
    rw [Acceptor.successor_addState, Acceptor.successor_of_le (Nat.le_of_eq h.size)]

theorem Returning.joins {p : Nat} (h : Returning A n D) (hp : p < n)
    (hE : D.Joins p A.ret n E) : Returning A n E where
  size := hE.size.trans h.size
  start := hE.start.trans h.start
  allAccept := h.allAccept.joins hE
  ret r q hq := by
    rw [hE.successor] at hq
    split at hq
    · exact (Option.some.inj hq).symm
    · exact h.ret r q hq
  last a := by rw [hE.successor, if_neg fun hn => Nat.ne_of_gt hp hn.1, h.last]

theorem Returning.eq_nil_of_accepts (h : Returning A n D) {u v : List α}
    (huv : D.accepts (u ++ A.ret :: v) = true) : v = [] := by
  obtain ⟨r, hr, _⟩ := Acceptor.accepts_iff.1 huv
  rw [Acceptor.reached_append] at hr
  obtain ⟨q, _, hr⟩ := Option.bind_eq_some_iff.1 hr
  obtain ⟨p, hp, hr⟩ := Option.bind_eq_some_iff.1 hr
  obtain rfl := h.ret q p hp
  cases v with
  | nil => rfl
  | cons a v =>
    rw [Acceptor.reachedFrom, h.last] at hr
    cases hr

/-! ## Shapes -/

/-- What a procedure with `size` states is like. -/
structure Shape (A : Alphabet α) (size : Nat) (D : Acceptor α) : Prop where
  size_eq : D.size = size
  completed : D.Completed A.symbols
  start : ∃ q, D.start = some q ∧ D.isAccepting q = true
  /-- There is exactly one rejecting state, and no symbol leaves it. -/
  sink : ∃ r < size, D.isAccepting r = false ∧
    (∀ q < size, D.isAccepting q = false → q = r) ∧ ∀ a p, D.successor r a = some p → p = r
  prefixClosed : D.isPrefixClosed = true
  /-- Nothing is accepted behind a return. -/
  ended : ∀ u v, D.accepts (u ++ A.ret :: v) = true → v = []

/-- Something is missing always, because the last state has no edges. -/
theorem Returning.complete_eq (h : Returning A n D) :
    (D.complete A.symbols).2 = D.addSink A.symbols := by
  obtain ⟨_, hD⟩ | ⟨heq, _⟩ := D.complete_cases A.symbols
  · obtain ⟨p, hp⟩ := hD.successor n (h.size ▸ n.lt_succ_self) A.ret A.ret_mem_symbols
    rw [h.last] at hp
    cases hp
  · rw [heq]

/-- The state that is added is the one that rejects. -/
theorem Returning.sink (h : Returning A n D) : ∃ r < n + 2,
    (D.addSink A.symbols).isAccepting r = false ∧
    (∀ q < n + 2, (D.addSink A.symbols).isAccepting q = false → q = r) ∧
    ∀ a p, (D.addSink A.symbols).successor r a = some p → p = r := by
  refine ⟨n + 1, Nat.lt_succ_self _, ?_, fun q hq hrejects => ?_, fun a p hp => ?_⟩
  · rw [Acceptor.isAccepting_addSink, ← h.size, Acceptor.isAccepting_size]
  · rw [Acceptor.isAccepting_addSink] at hrejects
    by_contra hne
    rw [h.allAccept q (by rw [h.size]; omega)] at hrejects
    cases hrejects
  · rw [Acceptor.successor_addSink, Acceptor.successor_of_le (Nat.le_of_eq h.size), h.size] at hp
    split at hp
    · exact (Option.some.inj hp).symm
    · cases hp

theorem Returning.shape (h : Returning A n D) : Shape A (n + 2) (D.complete A.symbols).2 := by
  rw [h.complete_eq]
  have haccepts := D.accepts_addSink A.symbols
  exact {
    size_eq := by rw [Acceptor.size_addSink, h.size]
    completed := D.completed_addSink A.symbols
    start := by
      refine ⟨0, ?_, ?_⟩
      · rw [Acceptor.start_addSink, h.start, Option.some_or]
      · rw [Acceptor.isAccepting_addSink]
        exact h.allAccept 0 (h.size ▸ n.succ_pos)
    sink := h.sink
    prefixClosed := (Acceptor.isPrefixClosed_congr haccepts).trans h.allAccept.isPrefixClosed
    ended := fun u v huv => h.eq_nil_of_accepts (haccepts _ ▸ huv) }

section

variable [RandomSource G]

theorem returns_finish (hD : Open A n D) :
    Returns (finish A D : Draw G α (Acceptor α)) (Shape A (n + 2)) := by
  have hloop : Returns ((List.range D.size).foldlM
      (fun D' q => do if ← coin then connect D' q A.ret D.size else pure D')
      (D.addState true) : Draw G α (Acceptor α)) (Returning A n) := by
    refine .foldlM_keeps (fun D' q hq hD' => ?_) hD.addState
    rw [List.mem_range, hD.size] at hq
    refine returns_coin.bind fun b _ => ?_
    cases b with
    | true =>
      rw [hD.size]
      have hn : n < D'.size := hD'.size ▸ n.lt_succ_self
      exact (returns_connect (Nat.lt_trans hq hn) hn A.ret).mono fun E hE => hD'.joins hq hE
    | false => exact .pure hD'
  refine hloop.bind fun E hE => ?_
  rw [if_pos hE.allAccept.isPrefixClosed]
  exact .pure hE.shape

theorem returns_procedure {edge : Acceptor α → Nat → α → Draw G α (Acceptor α)}
    (hedge : DrawsEdges A n edge) (hn : 0 < n) :
    Returns (do finish A (← drawEdges A n edge (← rows n))) (Shape A (n + 2)) := by
  refine (returns_rows hn).bind fun D hD => ?_
  exact (returns_drawEdges hedge hD.open).bind fun E hE => returns_finish hE

variable [RandomSource.Bounded G]

theorem returns_totalProcedure (h : 2 < size) :
    Returns (totalProcedure A size : Draw G α (Acceptor α)) (Shape A size) := by
  have hprocedure :=
    returns_procedure (drawsEdges_drawEdge (G := G) A (size - 2)) (Nat.sub_pos_of_lt h)
  rwa [Nat.sub_add_cancel (Nat.le_of_lt h)] at hprocedure

theorem returns_partialProcedure (h : 2 < size) :
    Returns (partialProcedure A size : Draw G α (Acceptor α)) (Shape A size) := by
  have hpos : 0 < size - 2 := Nat.sub_pos_of_lt h
  have hprocedure := returns_procedure (drawsEdges_tossEdge (G := G) A (size - 2)) hpos
  rw [Nat.sub_add_cancel (Nat.le_of_lt h)] at hprocedure
  simpa only [partialProcedure, if_neg (Nat.not_lt_of_lt h), Nat.max_eq_left hpos] using hprocedure

end

/-! ## Systems -/

/-- What a system is like whose procedures have `size` states. -/
structure Drawn (A : Alphabet α) (size : Nat) (S : PlainSystem α) : Prop where
  alphabet : S.alphabet = A
  calls : S.procedures.keys = A.calls
  initialCall : ∃ c ∈ A.calls, S.initialCall = some c ∧ S.accepts [c] = true
  shape : ∀ c D, S.procedures.get? c = some D → Shape A size D
  entriesAccept : S.EntriesAccept
  prefixClosed : ∀ u v, S.accepts (u ++ v) = true → S.accepts u = true

theorem Composed.drawn {c : α} {procedures : List (α × Acceptor α)} {S : PlainSystem α}
    (h : Composed A (some c) procedures S) (hkeys : procedures.map Prod.fst = A.calls)
    (hc : c ∈ A.calls) (hshape : ∀ p ∈ procedures, Shape A size p.2) : Drawn A size S := by
  have hget : ∀ c D, S.procedures.get? c = some D → Shape A size D := fun c D hD =>
    hshape (c, D) (h.entries ▸ AssocMap.get?_eq_some_iff.1 hD)
  have hentries : S.EntriesAccept := by
    intro d q hq
    obtain ⟨D, hD, hstart⟩ := System.exists_procedure hq
    obtain ⟨p, hp, haccepts⟩ := (hget d D hD).start
    cases hstart.symm.trans hp
    rw [System.frameAccepts, System.procedure?, hD]
    exact haccepts
  have hkey : S.procedures.keys = A.calls := by rw [AssocMap.keys, h.entries, hkeys]
  refine ⟨h.alphabet, hkey, ⟨c, hc, h.initialCall, ?_⟩, hget, hentries,
    fun u v => System.accepts_of_append hentries⟩
  obtain ⟨D, hD⟩ := AssocMap.mem_keys_iff.1 (hkey ▸ hc)
  obtain ⟨q, hq, _⟩ := (hget c D hD).start
  rw [System.accepts_iff_of_entriesAccept hentries, System.reached_singleton_ne_dead_iff]
  refine ⟨?_, h.initialCall, q, ?_⟩
  · rw [h.alphabet]
    exact Alphabet.kind?_eq_call_iff.2 hc
  · rw [System.entry?_of_mem (AssocMap.get?_eq_some_iff.1 hD), hq]

section

variable [RandomSource G] [RandomSource.Bounded G]

theorem returns_systemOf {procedure : Draw G α (Acceptor α)} (hcalls : A.calls ≠ [])
    (h : 2 < size) (hprocedure : Returns procedure (Shape A size)) :
    Returns (systemOf A size procedure) (Drawn A size) := by
  rw [systemOf, if_neg (Nat.not_le_of_gt h)]
  refine (hprocedure.mapM_pairs A.calls).bind fun procedures hprocedures => ?_
  obtain ⟨hkeys, hshape⟩ := hprocedures
  have hinitial : Returns (initialCall A : Draw G α α) (· ∈ A.calls) := by
    rw [initialCall, if_neg (by simpa using hcalls)]
    exact returns_pick hcalls
  refine hinitial.bind fun c hc => ?_
  refine (returns_system (some c) (.of_eq hkeys)).mono fun S hS => ?_
  exact hS.drawn hkeys hc hshape

/-- Whatever is drawn, there is one procedure for every call in the order of the calls, it has all of its
states, of which one rejects and is never left, and nothing is accepted behind a return. So the initial call is
accepted, and with a word all its beginnings. -/
theorem systems_drawn (A : Alphabet α) (size : Nat) (hcalls : A.calls ≠ []) (h : 2 < size) :
    Returns (totalSystem A size : Draw G α (PlainSystem α)) (Drawn A size) ∧
      Returns (partialSystem A size : Draw G α (PlainSystem α)) (Drawn A size) :=
  ⟨returns_systemOf hcalls h (returns_totalProcedure h),
    returns_systemOf hcalls h (returns_partialProcedure h)⟩

end

/-- Three calls. -/
def threeCalls : Alphabet Char := ⟨['a', 'b'], ['S', 'T', 'U'], 'R', by decide⟩

theorem systems_drawn_threeCalls :
    (∃ S g', (totalSystem threeCalls 4).run (⟨7⟩ : Generator) = .ok (S, g') ∧
      Drawn threeCalls 4 S ∧ S.accepts ['S'] = true) ∧
    ∃ S g', (partialSystem threeCalls 5).run (⟨7⟩ : Generator) = .ok (S, g') ∧
      Drawn threeCalls 5 S ∧ S.accepts ['S'] = true := by
  obtain ⟨S, g, hS, hdrawn⟩ :=
    (systems_drawn threeCalls 4 (by decide) (by decide)).1 (⟨7⟩ : Generator)
  obtain ⟨S', g', hS', hdrawn'⟩ :=
    (systems_drawn threeCalls 5 (by decide) (by decide)).2 (⟨7⟩ : Generator)
  have haccepts : ((totalSystem threeCalls 4).run (⟨7⟩ : Generator)).toOption.map
      (·.1.accepts ['S']) = some true := by decide +kernel
  have haccepts' : ((partialSystem threeCalls 5).run (⟨7⟩ : Generator)).toOption.map
      (·.1.accepts ['S']) = some true := by decide +kernel
  rw [hS] at haccepts
  rw [hS'] at haccepts'
  exact ⟨⟨S, g, hS, hdrawn, Option.some.inj haccepts⟩,
    ⟨S', g', hS', hdrawn', Option.some.inj haccepts'⟩⟩

end Random

end BehavioralAutomata
