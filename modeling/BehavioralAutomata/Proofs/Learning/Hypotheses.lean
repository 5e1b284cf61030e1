import BehavioralAutomata.Proofs.Learning.Sessions
import BehavioralAutomata.Proofs.System.Nesting

/-!
# The system that the tables make up

* `Session.advance_hypothesis`: a frame of the hypothesis moves as the table of its procedure says.
* `Session.Sound.entriesAccept`: the procedures of the hypothesis start in accepting states.
* `Session.Sound.exists_localWord`: what a procedure of the hypothesis has read alone, its table has read
  as a local word.
* `Session.accepts_hypothesis_congr`: a word is judged by what the tables do, whatever they hold.
-/

namespace BehavioralAutomata.Session

variable {α : Type} {β : Type} [DecidableEq α] [DecidableEq β] {T : System α β} {limit : Nat}
  {s s' : TableSession α}

theorem alphabet_hypothesis (s : TableSession α) : s.hypothesis.alphabet = s.alphabet := by
  rw [hypothesis]
  split <;> rfl

theorem procedure?_hypothesis (s : TableSession α) (c : α) :
    s.hypothesis.toSystem.procedure? c =
      (s.learners.get? c).map fun l => ⟨l.hypothesis, s.localAlphabet.get?⟩ := by
  rw [hypothesis]
  split
  · next h =>
    have hnil : s.learners.entries = [] := List.eq_nil_of_length_eq_zero h
    have hget : s.learners.get? c = none := by rw [AssocMap.get?, hnil]; rfl
    rw [hget]
    rfl
  · rw [System.procedure?, LocalSystem.ofProcedures, AssocMap.get?_mapValues, Option.map_map]
    rfl

theorem initialCall_hypothesis (h : s.learners.keys ≠ []) :
    s.hypothesis.initialCall = s.initialCall := by
  rw [hypothesis, if_neg]
  · rfl
  · intro hsize
    rw [← AssocMap.length_keys] at hsize
    exact h (List.eq_nil_of_length_eq_zero hsize)

theorem Sound.alphabet_hypothesis (hs : s.Sound T limit) :
    s.hypothesis.alphabet = T.alphabet :=
  (Session.alphabet_hypothesis s).trans hs.alphabet

/-- The procedures of the hypothesis are those that have learners. -/
theorem Sound.entry?_hypothesis (hs : s.Sound T limit) (c : α) :
    s.hypothesis.toSystem.entry? c = (s.learners.get? c).map fun _ => 0 := by
  rw [System.entry?, procedure?_hypothesis]
  cases hl : s.learners.get? c with
  | none => rfl
  | some l => exact (hs.learns c l hl).closed.start_hypothesis

theorem Sound.entry?_eq_some_iff (hs : s.Sound T limit) {c : α} {q : Nat} :
    s.hypothesis.toSystem.entry? c = some q ↔ c ∈ s.learners.keys ∧ q = 0 := by
  rw [hs.entry?_hypothesis, Option.map_eq_some_iff, AssocMap.mem_keys_iff]
  constructor
  · intro h
    obtain ⟨l, hl, rfl⟩ := h
    exact ⟨⟨l, hl⟩, rfl⟩
  · intro h
    obtain ⟨⟨l, hl⟩, rfl⟩ := h
    exact ⟨l, hl, rfl⟩

/-- The empty local word is accepted by every procedure, and so by every table. -/
theorem Sound.entriesAccept (hs : s.Sound T limit) (hT : T.EntriesAccept) :
    s.hypothesis.toSystem.EntriesAccept := by
  intro c q hq
  obtain ⟨hc, rfl⟩ := hs.entry?_eq_some_iff.1 hq
  obtain ⟨l, hl⟩ := AssocMap.mem_keys_iff.1 hc
  have hlearns := hs.learns c l hl
  obtain ⟨_, p, hp⟩ := hs.store.entry hlearns.access
  have hacc := hlearns.closed.isAccepting hlearns.closed.getElem?_base_zero
  rw [System.localLanguage_nil hT hp] at hacc
  rw [System.frameAccepts, procedure?_hypothesis, hl]
  exact hacc

/-! ## Frames -/

theorem advance_hypothesis {f g : Frame α} {a : α} :
    s.hypothesis.toSystem.advance f a = some g ↔ ∃ l x, s.learners.get? f.procedure = some l ∧
      s.localAlphabet.get? a = some x ∧ l.hypothesis.successor f.state x = some g.state ∧
      l.hypothesis.isAccepting g.state = true ∧ g.procedure = f.procedure := by
  rw [System.advance_eq_some_iff]
  simp only [procedure?_hypothesis, Option.map_eq_some_iff, Procedure.liveSuccessor,
    Procedure.successor, Option.filter_eq_some_iff, Option.bind_eq_some_iff]
  constructor
  · intro h
    obtain ⟨_, q, ⟨l, hl, rfl⟩, ⟨⟨x, hx, hq⟩, hacc⟩, rfl⟩ := h
    exact ⟨l, x, hl, hx, hq, hacc, rfl⟩
  · intro h
    obtain ⟨l, x, hl, hx, hq, hacc, hp⟩ := h
    refine ⟨_, g.state, ⟨l, hl, rfl⟩, ⟨⟨x, hx, hq⟩, hacc⟩, ?_⟩
    rw [← hp]

/-- A procedure of the hypothesis follows a word as its table follows the local word. -/
theorem follow_hypothesis {f g : Frame α} {u : List α} {l : ObservationTable (LocalSymbol α)}
    (hl : s.learners.get? f.procedure = some l)
    (h : s.hypothesis.toSystem.follow f u = some g) :
    g.procedure = f.procedure ∧ ∃ v, s.localAlphabet.localWord? u = some v ∧
      l.hypothesis.reachedFrom f.state v = some g.state := by
  induction u generalizing f with
  | nil =>
    cases h
    exact ⟨rfl, [], rfl, rfl⟩
  | cons a u ih =>
    obtain ⟨k, hk, h⟩ := Option.bind_eq_some_iff.1 h
    obtain ⟨l', x, hl', hx, hsucc, _, hp⟩ := advance_hypothesis.1 hk
    cases hl.symm.trans hl'
    obtain ⟨hg, v, hv, hreach⟩ := ih (hp ▸ hl) h
    refine ⟨hg.trans hp, x :: v, ?_, ?_⟩
    · exact LocalAlphabet.localWord?_cons_eq_some_iff.2 ⟨x, v, hx, hv, rfl⟩
    · rw [Acceptor.reachedFrom, hsucc]
      exact hreach

/-- What a procedure of the hypothesis has read since its call, its table has read as a local word. -/
theorem Sound.exists_localWord (hs : s.Sound T limit) {x u : List α} {c : α} {top : Frame α}
    {fs : List (Frame α)} (h : s.hypothesis.toSystem.Reads x c u top fs) :
    ∃ l v, s.learners.get? c = some l ∧ top.procedure = c ∧
      s.localAlphabet.localWord? (T.alphabet.normalize u) = some v ∧
      l.hypothesis.reachedFrom 0 v = some top.state := by
  obtain ⟨q, hq, _, hrun⟩ := h.run
  obtain ⟨hkeys, rfl⟩ := hs.entry?_eq_some_iff.1 hq
  obtain ⟨l, hl⟩ := AssocMap.mem_keys_iff.1 hkeys
  obtain ⟨hfollow, _⟩ := System.follow_normalize hrun
  rw [hs.alphabet_hypothesis] at hfollow
  obtain ⟨hproc, v, hv, hreach⟩ := follow_hypothesis hl hfollow
  exact ⟨l, v, hl, hproc, hv, hreach⟩

/-- The table of the active procedure accepts one more symbol if the active frame can move with it. -/
theorem Sound.accepts_append_singleton_iff (hs : s.Sound T limit) {top : Frame α}
    {l : ObservationTable (LocalSymbol α)} (hl : s.learners.get? top.procedure = some l)
    {v : List (LocalSymbol α)} (hreach : l.hypothesis.reachedFrom 0 v = some top.state) {a : α}
    {y : LocalSymbol α} (hy : s.localAlphabet.get? a = some y) :
    l.hypothesis.accepts (v ++ [y]) = true ↔
      ∃ g, s.hypothesis.toSystem.advance top a = some g := by
  rw [(hs.learns _ l hl).closed.accepts_append_singleton hreach, Option.any_eq_true]
  constructor
  · intro h
    obtain ⟨j, hj, hacc⟩ := h
    exact ⟨⟨top.procedure, j⟩, advance_hypothesis.2 ⟨l, y, hl, hy, hj, hacc, rfl⟩⟩
  · intro h
    obtain ⟨g, hg⟩ := h
    obtain ⟨l', y', hl', hy', hsucc, hacc, _⟩ := advance_hypothesis.1 hg
    cases hl.symm.trans hl'
    cases hy.symm.trans hy'
    exact ⟨g.state, hsucc, hacc⟩

/-! ## Sessions that differ in their tables only -/

/-- Tables that move in the same way make up systems that accept the same words. -/
theorem accepts_hypothesis_congr (hs : s.Sound T limit) (hs' : s'.Sound T limit)
    (hT : T.EntriesAccept) (hi : s.hypothesis.initialCall = s'.hypothesis.initialCall)
    (hkeys : ∀ c, c ∈ s.learners.keys ↔ c ∈ s'.learners.keys)
    (hmoves : ∀ f a, s.hypothesis.toSystem.advance f a = s'.hypothesis.toSystem.advance f a)
    (w : List α) : s.hypothesis.accepts w = s'.hypothesis.accepts w := by
  have hA : s.hypothesis.alphabet = s'.hypothesis.alphabet :=
    hs.alphabet_hypothesis.trans hs'.alphabet_hypothesis.symm
  have hentry : ∀ c, s.hypothesis.toSystem.entry? c = s'.hypothesis.toSystem.entry? c := by
    intro c
    apply Option.ext
    intro q
    rw [hs.entry?_eq_some_iff, hs'.entry?_eq_some_iff, hkeys]
  have hstep : s.hypothesis.toSystem.step = s'.hypothesis.toSystem.step := by
    funext c a
    cases c <;> simp only [System.step, hA, hi, hentry, hmoves]
  have hreached : s.hypothesis.toSystem.reached w = s'.hypothesis.toSystem.reached w := by
    rw [System.reached, System.reached, System.run, System.run, hstep]
  rw [Bool.eq_iff_iff, System.accepts_iff_of_entriesAccept (hs.entriesAccept hT),
    System.accepts_iff_of_entriesAccept (hs'.entriesAccept hT), hreached]

end BehavioralAutomata.Session
