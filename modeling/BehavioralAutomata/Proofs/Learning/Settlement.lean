import BehavioralAutomata.Proofs.Learning.Courses
import BehavioralAutomata.Proofs.Learning.Lessons
import BehavioralAutomata.Proofs.Learning.Reports

/-!
# When a counterexample is settled

Learning from a word first refines until the hypothesis agrees with the word, and then repairs procedures
that go on behind a return. Repairing may make a hypothesis reject a word that it has accepted only
because it went wrong elsewhere.

* `Session.isReturnClosed_of_refine`: no procedure goes on behind a return afterwards.
* `Session.agrees_of_resolved`: a word that the system rejects because of its last symbol only is settled
  for good when it has been resolved.
* `Session.Reachable.refineRepeatedly_spec`: any word is settled if it is learned from often enough.
* `Session.Reachable.refine_settles`: what holds when learning from a word has ended.
-/

namespace BehavioralAutomata

open Relation (ReflTransGen)

variable {α : Type} {β : Type} [DecidableEq α] [DecidableEq β] {T : System α β} {limit : Nat}

/-- For each procedure, its learner, its call becoming usable, and the states of its hypothesis. -/
def System.findingsBound (T : System α β) : Nat :=
  (T.alphabet.calls.map fun c => (T.procedures.get? c).elim 0 fun A => A.acceptingCount + 4).sum

namespace Session

variable {q : LabelledWord α} {s s' : TableSession α} {b : Bool} {preference : Preference}

/-! ## Return closure -/

theorem isReturnClosed_iff :
    s.isReturnClosed = true ↔ ∀ c ∈ s.discovered, s.violation? c = none := by
  simp [isReturnClosed]

/-- Learning from a word leaves no procedure that goes on behind a return. -/
theorem isReturnClosed_of_refine {ask : List α → Except (LearningError α) Bool}
    {create : α → List (LocalSymbol α) → ObservationTable (LocalSymbol α)}
    (hs : s.isReturnClosed = true) (h : s.refine ask create q = .ok (b, s')) :
    s'.isReturnClosed = true := by
  by_cases hne : q.word = []
  · rw [refine, if_pos hne] at h
    cases h
    exact hs
  obtain ⟨_, _, _, s₁, _, _, _, h₂, _⟩ := refine_parts hne h
  obtain ⟨hnone, _, hreported⟩ := repairAll_reported h₂
  rw [isReturnClosed_iff, keys_of_refits hreported.reflTransGen]
  exact hnone s₁.learners.nodup_keys

namespace Reachable

theorem taught (h : Reachable T limit preference s) :
    Taught T.accepts T.alphabet limit preference s := by
  induction h with
  | start => exact .start
  | refine _ _ hrefine ih => exact ih.refine hrefine

theorem isReturnClosed (h : Reachable T limit preference s) : s.isReturnClosed = true := by
  induction h with
  | start => rfl
  | refine _ _ hrefine ih => exact isReturnClosed_of_refine ih hrefine

end Reachable

/-! ## Agreement -/

/-- Every hypothesis agrees with a word that is learned from without any change. -/
theorem agrees_of_refine_idle (hq : q.accepted = T.accepts q.word)
    (h : s.refine T.oracle (firstTable limit) q = .ok (false, s')) : s'.agrees q = true := by
  by_cases hne : q.word = []
  · rw [hne] at hq
    rw [agrees, hne, hq]
    rfl
  · obtain ⟨b₀, s₀, b₁, s₁, b₂, _, h₁, h₂, hb⟩ := refine_parts hne h
    obtain ⟨_, rfl⟩ := Bool.or_eq_false_iff.1 hb.symm
    obtain ⟨_, _, hreported⟩ := repairAll_reported h₂
    cases hreported
    exact (resolve_reported h₁).1

/-- If the last position of a word has been resolved and only the last symbol makes the system reject,
the hypothesis rejects as well. -/
theorem agrees_of_resolved (hT : T.EntriesAccept) (hs : s.Sound T limit)
    (hw : T.accepts q.word = false) (hq : q.accepted = false)
    (hbefore : T.accepts q.word.dropLast = true)
    (hresolved : s.Resolved q.word (q.word.length - 1)) : s.agrees q = true := by
  by_contra hno
  rw [Bool.not_eq_true] at hno
  obtain ⟨c, v, l, hblames, hl, hv, haccepts, hlang⟩ :=
    exists_blames_of_rejected hT hw hs (accepts_of_not_agrees hq hno)
  obtain ⟨d, u, k, hblames', hk, hu⟩ := hresolved
  obtain ⟨rfl, rfl⟩ := hblames.unique hblames'
  cases hl.symm.trans hk
  rw [(hs.learns c l hl).closed.accepts_experiment hu hv, hlang hbefore] at haccepts
  cases haccepts

/-- Resolving a word begins with a refinement, unless the hypothesis agrees with it already. -/
theorem exists_of_resolve {ask : List α → Except (LearningError α) Bool} {n : Nat}
    (hno : s.agrees q = false) (h : resolve ask q n s = .ok (b, s')) :
    ∃ s₁, s.refineLocal ask q = .ok s₁ ∧ ReflTransGen (Refits ask) s₁ s' := by
  cases n with
  | zero =>
    rw [resolve, hno, if_neg Bool.false_ne_true] at h
    split at h <;> cases h
  | succ n =>
    rw [resolve, hno, if_neg Bool.false_ne_true] at h
    obtain ⟨s₁, h₁, h⟩ := exists_of_bind_eq_ok h
    obtain ⟨⟨b₂, s₂⟩, h₂, h⟩ := exists_of_bind_eq_ok h
    cases h
    exact ⟨s₁, h₁, (resolve_reported h₂).2.reflTransGen⟩

/-- A word that the system rejects because of its last symbol only is settled by learning from it. -/
theorem Reachable.agrees_of_rejected (hT : T.EntriesAccept) (h : Reachable T limit preference s)
    (hq : q.accepted = T.accepts q.word) (hacc : q.accepted = false)
    (hbefore : T.accepts q.word.dropLast = true)
    (hrun : s.refine T.oracle (firstTable limit) q = .ok (b, s')) : s'.agrees q = true := by
  have hw : T.accepts q.word = false := hq.symm.trans hacc
  obtain ⟨_, s₀, _, s₁, _, h₀, h₁, h₂, _⟩ := refine_parts (System.ne_nil_of_rejected hw) hrun
  rw [extract, hacc, if_neg Bool.false_ne_true] at h₀
  cases h₀
  cases hno : s.agrees q with
  | true =>
    -- nothing is left to be repaired either
    rw [resolve_of_agrees hno] at h₁
    cases h₁
    obtain ⟨_, rfl⟩ := repairAll_idle (isReturnClosed_iff.1 h.isReturnClosed) h₂
    exact hno
  | false =>
    obtain ⟨s₂, hrefine, hsteps⟩ := exists_of_resolve hno h₁
    obtain ⟨_, _, _, _, hrefinement⟩ := h.sound.1.exists_refinement hrefine
    have hresolved := hrefinement.resolved
    rw [mismatch_of_rejected hacc] at hresolved
    obtain ⟨hfaithful, _⟩ := h.taught.tablesFaithful
    obtain ⟨hfaithful, _⟩ := (refits_of_refineLocal hrefine).spec hfaithful
    obtain ⟨_, hadapts, hA, hB⟩ :=
      adapts_of_refits (hsteps.trans (repairAll_reported h₂).2.2.reflTransGen) hfaithful
    exact agrees_of_resolved hT (h.refine hq hrun).sound.1 hw hacc hbefore
      (hresolved.adapts hadapts hA hB)

/-! ## Learning from a word repeatedly -/

/-- What is known of a procedure is bounded by its size, and nothing is known of a call without one. -/
theorem Sound.progressOf_le (hs : s.Sound T limit) (hT : T.EntriesAccept) (c : α) :
    s.progressOf c ≤ (T.procedures.get? c).elim 0 fun A => A.acceptingCount + 4 := by
  have husable : (if s.Usable c then 1 else 0) ≤ 1 := by split <;> omega
  rw [progressOf]
  cases hA : T.procedures.get? c with
  | none =>
    have hlearner : s.learners.get? c = none := by
      cases hl : s.learners.get? c with
      | none => rfl
      | some l =>
        obtain ⟨A, hA'⟩ := hs.store.exists_procedure (hs.learns c l hl).access
        cases hA.symm.trans hA'
    have hnot : ¬ s.Usable c := by
      intro hc
      obtain ⟨p, hp⟩ := hs.exists_entry hc
      obtain ⟨A, hA', _⟩ := System.exists_procedure hp
      cases hA.symm.trans hA'
    rw [hlearner, if_neg hnot]
    exact Nat.le_refl 0
  | some A =>
    rw [Option.elim_some]
    cases hl : s.learners.get? c with
    | none =>
      rw [Option.elim_none]
      omega
    | some l =>
      have hsize := hs.size_hypothesis_le hT hl hA
      rw [(hs.learns c l hl).closed.size_hypothesis] at hsize
      rw [Option.elim_some]
      omega

theorem Sound.progress_le_findingsBound (hs : s.Sound T limit) (hT : T.EntriesAccept) :
    s.progress ≤ T.findingsBound := by
  rw [progress, System.findingsBound, hs.alphabet]
  exact List.sum_le_sum fun c _ => hs.progressOf_le hT c

/-- Learning from a word that reports a change adds to the progress. -/
theorem Reachable.progress_le (h : Reachable T limit preference s)
    (hq : q.accepted = T.accepts q.word)
    (hrun : s.refine T.oracle (firstTable limit) q = .ok (b, s')) :
    s.progress + b.toNat ≤ s'.progress := by
  obtain ⟨hs, _, hout⟩ := h.invariant
  obtain ⟨hfaithful, _⟩ := h.taught.tablesFaithful
  have hgrows := (retains_of_changes (changes_of_refine hout hrun).1 hfaithful).2.grows
  have hs' := (h.refine hq hrun).sound.1
  cases b with
  | false => exact hgrows.progress_le hs hs'
  | true => exact (gains_of_refine hout hfaithful hrun).progress_lt hgrows hs hs'

/-- Every repetition that changes something adds to the progress, and when one changes nothing, the word
is settled. -/
theorem Reachable.refineRepeatedly_spec (h : Reachable T limit preference s)
    (hq : q.accepted = T.accepts q.word) {n k : Nat}
    (hrun : refineRepeatedly T.oracle (firstTable limit) q n s = .ok (k, s')) :
    Reachable T limit preference s' ∧ s.progress + k ≤ s'.progress ∧
      (k < n → s'.agrees q = true) := by
  induction n generalizing s k with
  | zero =>
    cases hrun
    exact ⟨h, Nat.le_refl _, fun hlt => absurd hlt (Nat.lt_irrefl 0)⟩
  | succ n ih =>
    rw [refineRepeatedly] at hrun
    obtain ⟨⟨changed, s₁⟩, h₁, hrun⟩ := exists_of_bind_eq_ok hrun
    have hle := h.progress_le hq h₁
    cases changed with
    | false =>
      cases hrun
      exact ⟨h.refine hq h₁, hle, fun _ => agrees_of_refine_idle hq h₁⟩
    | true =>
      obtain ⟨⟨k₂, s₂⟩, h₂, hrun⟩ := exists_of_bind_eq_ok hrun
      cases hrun
      obtain ⟨hreachable, hprogress, hagrees⟩ := ih (h.refine hq h₁) h₂
      refine ⟨hreachable, ?_, fun hlt => hagrees (Nat.lt_of_succ_lt_succ hlt)⟩
      rw [Bool.toNat_true] at hle
      omega

/-- When learning from a truthful word has ended, no procedure goes on behind a return. The hypothesis
has agreed with the word in between, so that it still does unless a procedure had to be repaired. It does
in any case if nothing has changed, and if the system rejects the word because of its last symbol only.
Any other word is settled by learning from it until nothing changes, and only so many repetitions change
something as there is to be found. -/
theorem Reachable.refine_settles (hT : T.EntriesAccept) (h : Reachable T limit preference s)
    (hq : q.accepted = T.accepts q.word)
    (hrun : s.refine T.oracle (firstTable limit) q = .ok (b, s')) :
    s'.isReturnClosed = true ∧
    (q.word ≠ [] → ∃ b₀ s₀ b₁ s₁ b₂, s.extract T.oracle (firstTable limit) q = .ok (b₀, s₀) ∧
      resolve T.oracle q (s₀.resolveBudget q) s₀ = .ok (b₁, s₁) ∧ s₁.agrees q = true ∧
      repairAll T.oracle s₁.discovered s₁ = .ok (b₂, s') ∧
      (s₁.isReturnClosed = true → s' = s₁) ∧ (b₂ = false → s' = s₁)) ∧
    (b = false → s'.agrees q = true) ∧
    (q.accepted = false → T.accepts q.word.dropLast = true → s'.agrees q = true) ∧
    ∀ n k s'', refineRepeatedly T.oracle (firstTable limit) q n s = .ok (k, s'') →
      s''.isReturnClosed = true ∧ k ≤ T.findingsBound ∧ (k < n → s''.agrees q = true) := by
  refine ⟨isReturnClosed_of_refine h.isReturnClosed hrun, fun hne => ?_, fun hb => ?_,
    fun hacc hbefore => h.agrees_of_rejected hT hq hacc hbefore hrun, fun n k s'' hrepeated => ?_⟩
  · obtain ⟨b₀, s₀, b₁, s₁, b₂, h₀, h₁, h₂, _⟩ := refine_parts hne hrun
    refine ⟨b₀, s₀, b₁, s₁, b₂, h₀, h₁, (resolve_reported h₁).1, h₂, fun hclosed => ?_,
      fun hb => ?_⟩
    · exact (repairAll_idle (isReturnClosed_iff.1 hclosed) h₂).2
    · subst hb
      obtain ⟨_, _, hreported⟩ := repairAll_reported h₂
      cases hreported
      rfl
  · subst hb
    exact agrees_of_refine_idle hq hrun
  · obtain ⟨hreachable, hprogress, hagrees⟩ := h.refineRepeatedly_spec hq hrepeated
    have hle := hreachable.sound.1.progress_le_findingsBound hT
    exact ⟨hreachable.isReturnClosed, by omega, hagrees⟩

/-- The procedure of `S` reads an `a` and then a `c`, or one `b` or `c`, or returns. -/
def unsettlingSystem : PlainSystem Char :=
  .ofCalls ⟨['b', 'a', 'c'], ['S'], 'R', by decide⟩ (some 'S')
    (.ofList [
      ('S', {
        states := #[⟨true, .ofList [('a', 1), ('b', 2), ('c', 2), ('R', 3)]⟩,
          ⟨true, .ofList [('c', 4)]⟩, ⟨true, ∅⟩, ⟨true, ∅⟩, ⟨true, ∅⟩]
        start := some 0
        target_lt := by decide
        start_lt := by decide })])
    (List.all_eq_true.1 (by decide))

/-- The first hypothesis has one state and accepts every word, this one included. In the repaired one `a`
leads to the state of `b`, which no `c` follows. -/
theorem refine_unsettlingSystem : unsettlingSystem.EntriesAccept ∧
    unsettlingSystem.accepts ['S', 'a', 'c'] = true ∧
    ∃ s s', Reachable unsettlingSystem.toSystem 9 .first s ∧
      s.refine unsettlingSystem.oracle (firstTable 9) ⟨['S', 'a', 'c'], true⟩ = .ok (true, s') ∧
      s'.isReturnClosed = true ∧ s'.hypothesis.accepts ['S', 'a', 'c'] = false := by
  have hrun : ((start unsettlingSystem.alphabet .first : TableSession Char).refine
      unsettlingSystem.oracle (firstTable 9) ⟨['S', 'a', 'c'], true⟩).map
        (fun r => (r.1, r.2.isReturnClosed, r.2.hypothesis.accepts ['S', 'a', 'c'])) =
          .ok (true, true, false) := by decide +kernel
  obtain ⟨⟨b, s'⟩, hr, hrun⟩ := exists_of_map_eq_ok hrun
  obtain ⟨rfl, hrun⟩ := Prod.mk.inj hrun
  obtain ⟨hclosed, hrejects⟩ := Prod.mk.inj hrun
  exact ⟨by decide, by decide, _, s', .start, hr, hclosed, hrejects⟩

/-- The word is settled when it has been learned from twice. -/
theorem refine_settles_unsettlingSystem : ∃ s b s' s'',
    Reachable unsettlingSystem.toSystem 9 .first s ∧
    s.refine unsettlingSystem.oracle (firstTable 9) ⟨['S', 'a', 'c'], true⟩ = .ok (b, s') ∧
    s'.isReturnClosed = true ∧
    refineRepeatedly unsettlingSystem.oracle (firstTable 9) ⟨['S', 'a', 'c'], true⟩ 3 s =
      .ok (2, s'') ∧
    2 ≤ unsettlingSystem.findingsBound ∧ s''.agrees ⟨['S', 'a', 'c'], true⟩ = true := by
  have hrepeated : (refineRepeatedly unsettlingSystem.oracle (firstTable 9) ⟨['S', 'a', 'c'], true⟩ 3
      (start unsettlingSystem.alphabet .first : TableSession Char)).map Prod.fst = .ok 2 := by
    decide +kernel
  obtain ⟨⟨k, s''⟩, hrepeated, rfl⟩ := exists_of_map_eq_ok hrepeated
  have hfirst := hrepeated
  rw [refineRepeatedly] at hfirst
  obtain ⟨⟨b, s'⟩, hrun, _⟩ := exists_of_bind_eq_ok hfirst
  have hreachable : Reachable unsettlingSystem.toSystem 9 .first
      (start unsettlingSystem.alphabet .first) := .start
  obtain ⟨hclosed, _, _, _, hsettles⟩ := hreachable.refine_settles (by decide) rfl hrun
  obtain ⟨_, hle, hagrees⟩ := hsettles 3 _ s'' hrepeated
  exact ⟨_, b, s', s'', hreachable, hrun, hclosed, hrepeated, hle, hagrees (by decide)⟩

end Session

end BehavioralAutomata
