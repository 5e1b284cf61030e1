import BehavioralAutomata.Proofs.Learning.Genuineness

/-!
# Prefix-closed hypotheses

A procedure accepts all beginnings of a local word that it accepts, because nothing can be read in a
rejecting state. So all words that it rejects have the same row in its table, and the hypothesis has one
state at most for them, which no symbol leaves.

* `ObservationTable.Closed.rejecting_unique`, `Closed.successor_of_rejecting`,
  `Closed.prefixClosed_hypothesis`: this is so for the table of every prefix-closed language.
* `ObservationTable.Closed.violation?_eq_none_iff`: then the search for an accepted word that goes on
  behind a return finds one if there is any.
* `Session.Reachable.hypotheses_prefixClosed`: so it is for truthful sessions.
-/

namespace BehavioralAutomata

/-- With a word all its beginnings are accepted. -/
def PrefixClosed {β : Type} (f : List β → Bool) : Prop := ∀ u v, f (u ++ v) = true → f u = true

/-- Behind a rejected word everything is rejected. -/
theorem PrefixClosed.append_eq_false {β : Type} {f : List β → Bool} (hf : PrefixClosed f) {u : List β}
    (hu : f u = false) (v : List β) : f (u ++ v) = false := by
  rw [← Bool.not_eq_true] at hu ⊢
  exact fun h => hu (hf u v h)

/-! ## Tables of prefix-closed languages -/

/-- All rejected words have the same row. -/
theorem ObservationTable.cells_of_rejected {β : Type} [DecidableEq β] {f : List β → Bool}
    (hf : PrefixClosed f) (T : ObservationTable β) {u v : List β} (hu : f u = false)
    (hv : f v = false) : T.cells f u = T.cells f v :=
  List.map_congr_left fun e _ => (hf.append_eq_false hu e).trans (hf.append_eq_false hv e).symm

namespace ObservationTable.Closed

section

variable {β : Type} [DecidableEq β] {f : List β → Bool} {T : ObservationTable β}

theorem accepts_nil (hT : T.Closed f) (hnil : f [] = true) : T.hypothesis.accepts [] = true := by
  rw [Acceptor.accepts, Acceptor.reached, hT.start_hypothesis]
  exact (hT.isAccepting hT.getElem?_base_zero).trans hnil

/-- A word that leads somewhere is over the alphabet. -/
theorem subset_of_reachedFrom (hT : T.Closed f) {i j : Nat} {w : List β}
    (h : T.hypothesis.reachedFrom i w = some j) : w ⊆ T.alphabet := by
  induction w generalizing i with
  | nil => exact List.nil_subset _
  | cons a w ih =>
    obtain ⟨k, hk, h⟩ := Option.bind_eq_some_iff.1 h
    refine List.cons_subset.2 ⟨?_, ih h⟩
    by_contra ha
    rw [hT.successor_of_not_mem ha] at hk
    cases hk

theorem subset_of_accepts (hT : T.Closed f) {w : List β} (h : T.hypothesis.accepts w = true) :
    w ⊆ T.alphabet := by
  obtain ⟨j, hj, _⟩ := Acceptor.accepts_iff.1 h
  obtain ⟨i, _, hreach⟩ := Option.bind_eq_some_iff.1 hj
  exact hT.subset_of_reachedFrom hreach

variable (hT : T.Closed f) (hf : PrefixClosed f)

include hT hf

/-- All rejected words belong to one state. -/
theorem rejecting_unique {i j : Nat} (hi : i < T.hypothesis.size) (hj : j < T.hypothesis.size)
    (hreji : T.hypothesis.isAccepting i = false) (hrejj : T.hypothesis.isAccepting j = false) :
    i = j := by
  obtain ⟨b, hb⟩ := hT.exists_base hi
  obtain ⟨b', hb'⟩ := hT.exists_base hj
  rw [hT.isAccepting hb] at hreji
  rw [hT.isAccepting hb'] at hrejj
  exact hT.index_eq hb hb' (cells_of_rejected hf T hreji hrejj)

/-- No symbol leaves a rejecting state. -/
theorem successor_of_rejecting {i : Nat} (hi : i < T.hypothesis.size)
    (hrej : T.hypothesis.isAccepting i = false) (a : β) :
    T.hypothesis.successor i a = if a ∈ T.alphabet then some i else none := by
  split
  · next ha =>
    obtain ⟨b, hb⟩ := hT.exists_base hi
    obtain ⟨j, b', hj, hb', hcells⟩ := hT.successor hb ha
    rw [hT.isAccepting hb] at hrej
    have hcells' := cells_of_rejected hf T (hf.append_eq_false hrej [a]) hrej
    rw [hj, hT.index_eq hb' hb (hcells.trans hcells')]
  · next ha => exact hT.successor_of_not_mem ha i

theorem reachedFrom_of_rejecting {i j : Nat} (hi : i < T.hypothesis.size)
    (hrej : T.hypothesis.isAccepting i = false) {w : List β}
    (h : T.hypothesis.reachedFrom i w = some j) : j = i := by
  induction w with
  | nil => exact (Option.some.inj h).symm
  | cons a w ih =>
    obtain ⟨k, hk, h⟩ := Option.bind_eq_some_iff.1 h
    rw [hT.successor_of_rejecting hf hi hrej] at hk
    split at hk
    · cases hk
      exact ih h
    · cases hk

theorem prefixClosed_hypothesis : PrefixClosed T.hypothesis.accepts := by
  intro u v h
  obtain ⟨j, hj, hacc⟩ := Acceptor.accepts_iff.1 h
  rw [Acceptor.reached_append] at hj
  obtain ⟨i, hi, hreach⟩ := Option.bind_eq_some_iff.1 hj
  rw [Acceptor.accepts, hi, Option.any_some]
  by_contra hrej
  rw [Bool.not_eq_true] at hrej
  obtain ⟨b, hb⟩ := hT.getElem?_of_reached hi
  have hlt : i < T.hypothesis.size := by
    rw [hT.size_hypothesis]
    exact (List.getElem?_eq_some_iff.1 hb).1
  rw [hT.reachedFrom_of_rejecting hf hlt hrej hreach, hrej] at hacc
  cases hacc

end

/-- The words that stand for the states suffice to find an accepted word that goes on behind a return,
and one symbol behind the return is enough. -/
theorem violation?_eq_none_iff {α : Type} [DecidableEq α] {l : ObservationTable (LocalSymbol α)}
    {f : List (LocalSymbol α) → Bool} (hl : l.Closed f) (hf : PrefixClosed f) :
    LocalLearner.violation? l = none ↔
      ∀ u r v, r.isReturn = true → v ≠ [] → l.hypothesis.accepts (u ++ r :: v) = false := by
  constructor
  · intro hnone u r v hr hv
    obtain ⟨x, v, rfl⟩ := List.exists_cons_of_ne_nil hv
    by_contra hacc
    rw [Bool.not_eq_false] at hacc
    have hsplit : u ++ r :: x :: v = u ++ [r, x] ++ v := by
      rw [List.append_assoc]
      rfl
    rw [hsplit] at hacc
    have hshort := hl.prefixClosed_hypothesis hf _ _ hacc
    obtain ⟨hu, hrx⟩ := List.append_subset.1 (hl.subset_of_accepts hshort)
    obtain ⟨hr', hx⟩ := List.cons_subset.1 hrx
    -- the state behind `u` has a word in the state cover and a base word
    obtain ⟨j, hj, _⟩ := Acceptor.accepts_iff.1 hshort
    rw [Acceptor.reached_append] at hj
    obtain ⟨i, hi, _⟩ := Option.bind_eq_some_iff.1 hj
    obtain ⟨w, hw, hwi⟩ := Acceptor.exists_mem_stateCover hu hi
    obtain ⟨b, hb⟩ := hl.getElem?_of_reached hi
    have hfound := LocalLearner.accepts_eq_false hnone hw hr' hr (hx List.mem_cons_self)
    change l.hypothesis.accepts (l.representative w ++ [r, x]) = false at hfound
    rw [representative_eq hwi hb, Acceptor.accepts, Acceptor.reached_append, hl.reached_base hb,
      ← hi, ← Acceptor.reached_append] at hfound
    exact Bool.false_ne_true (hfound.symm.trans hshort)
  · intro hall
    rw [Option.eq_none_iff_forall_ne_some]
    intro q hq
    obtain ⟨w, _, r, _, hr, x, _, rfl, hacc⟩ := LocalLearner.exists_of_violation? hq
    exact Bool.false_ne_true ((hall _ r [x] hr (List.cons_ne_nil x [])).symm.trans hacc)

end ObservationTable.Closed

/-! ## Truthful sessions -/

variable {α : Type} {β : Type} [DecidableEq α] [DecidableEq β] {T : System α β} {limit : Nat}

theorem System.prefixClosed_localLanguage (hT : T.EntriesAccept) (c : α) :
    PrefixClosed (T.localLanguage c) := by
  intro u v h
  obtain ⟨q, hq, h⟩ := (Option.any_eq_true _ _).1 h
  rw [localLanguage_eq hq, ← List.append_nil u, localVerdict_append]
  rw [localVerdict_append] at h
  cases hstate : T.localState ⟨c, q⟩ u with
  | dead =>
    rw [hstate] at h
    cases h
  | ended => rfl
  | running g => exact (localState_running hstate (hT c q hq)).2

namespace Session

namespace Reachable

variable {preference : Preference} {s : TableSession α}

/-- In a truthful session the hypothesis of every procedure accepts the empty word, it has one rejecting
state at most, which no symbol leaves, and with a word it accepts all its beginnings, as the hypothesis
of the system does. A session says that no hypothesis goes on behind a return if and only if none accepts
any word in which anything follows a return. -/
theorem hypotheses_prefixClosed (hT : T.EntriesAccept) (h : Reachable T limit preference s) :
    (∀ c l, s.learners.get? c = some l →
      l.hypothesis.accepts [] = true ∧
      (∀ i < l.hypothesis.size, ∀ j < l.hypothesis.size, l.hypothesis.isAccepting i = false →
        l.hypothesis.isAccepting j = false → i = j) ∧
      (∀ i < l.hypothesis.size, l.hypothesis.isAccepting i = false → ∀ x,
        l.hypothesis.successor i x = if x ∈ l.alphabet then some i else none) ∧
      PrefixClosed l.hypothesis.accepts) ∧
    PrefixClosed s.hypothesis.accepts ∧
    (s.isReturnClosed = true ↔ ∀ c l, s.learners.get? c = some l → ∀ u r v, r.isReturn = true →
      v ≠ [] → l.hypothesis.accepts (u ++ r :: v) = false) := by
  have hs := h.sound.1
  refine ⟨fun c l hl => ?_, fun u v => ?_, ?_⟩
  · have hlearns := hs.learns c l hl
    have hf := System.prefixClosed_localLanguage hT c
    obtain ⟨_, q, hq⟩ := hs.store.entry hlearns.access
    exact ⟨hlearns.closed.accepts_nil (System.localLanguage_nil hT hq),
      fun i hi j hj => hlearns.closed.rejecting_unique hf hi hj,
      fun i hi hrej => hlearns.closed.successor_of_rejecting hf hi hrej,
      hlearns.closed.prefixClosed_hypothesis hf⟩
  · exact System.accepts_of_append (hs.entriesAccept hT)
  · rw [isReturnClosed, List.all_eq_true]
    constructor
    · intro hall c l hl
      have hnone := hall c (AssocMap.mem_keys_iff.2 ⟨l, hl⟩)
      rw [violation?_eq hl, Option.isNone_iff_eq_none] at hnone
      exact ((hs.learns c l hl).closed.violation?_eq_none_iff
        (System.prefixClosed_localLanguage hT c)).1 hnone
    · intro hall c hc
      obtain ⟨l, hl⟩ := AssocMap.mem_keys_iff.1 hc
      rw [violation?_eq hl, Option.isNone_iff_eq_none]
      exact ((hs.learns c l hl).closed.violation?_eq_none_iff
        (System.prefixClosed_localLanguage hT c)).2 (hall c l hl)

end Reachable

/-- The session has found that `T` is called before a return, and that nothing follows the return. -/
theorem hypotheses_prefixClosed_returningSystem : ∃ s l,
    Reachable returningSystem.toSystem 5 .shortest s ∧ s.learners.get? 'S' = some l ∧
      s.isReturnClosed = true ∧ PrefixClosed l.hypothesis.accepts ∧
      ∀ u v, v ≠ [] → l.hypothesis.accepts (u ++ .ret 'R' :: v) = false := by
  have hrun : ((start returningSystem.alphabet .shortest : TableSession Char).refine
      returningSystem.oracle (firstTable 5) ⟨['S', 'T', 'b', 'R'], true⟩).map
        (fun r => (r.2.learners.keys, r.2.isReturnClosed)) = .ok (['S', 'T'], true) := by
    decide +kernel
  obtain ⟨r, hr, heq⟩ := exists_of_map_eq_ok hrun
  obtain ⟨hkeys, hclosed⟩ := Prod.mk.inj heq
  have hreachable : Reachable returningSystem.toSystem 5 .shortest r.2 := .refine .start rfl hr
  have hS : 'S' ∈ r.2.learners.keys := by rw [hkeys]; exact List.mem_cons_self
  obtain ⟨l, hl⟩ := AssocMap.mem_keys_iff.1 hS
  obtain ⟨hlocal, _, hreturn⟩ := hreachable.hypotheses_prefixClosed (by decide)
  obtain ⟨_, _, _, hprefix⟩ := hlocal 'S' l hl
  refine ⟨r.2, l, hreachable, hl, hclosed, hprefix, fun u v hv => ?_⟩
  exact hreturn.1 hclosed 'S' l hl u (.ret 'R') v rfl hv

end Session

end BehavioralAutomata
