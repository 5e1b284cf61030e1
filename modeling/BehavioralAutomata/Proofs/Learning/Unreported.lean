import BehavioralAutomata.Proofs.Learning.Reports
import BehavioralAutomata.Proofs.Learning.ScanHistories
import BehavioralAutomata.System.Plain

/-!
# What learning does not report

Learning reports new sequences and refined learners. A shorter terminating sequence that a word shows is
not reported.

* `SequenceStore.scan_of_quiet`: a scan that finds nothing new leaves shorter sequences at most.
* `Session.Unreported`: what learning may change without a report.
* `Session.Taught.reports_all_but_shorter`: everything else is reported, and nothing else is.
-/

namespace BehavioralAutomata

namespace SequenceStore

variable {α : Type} [DecidableEq α] {S : SequenceStore α} {w : List α}

/-- The scan of a word finds no call for which there was no sequence. -/
def Quiet (S : SequenceStore α) (w : List α) : Prop :=
  (S.scan w).1.calls = [] ∧ (S.scan w).1.terminations = []

theorem Quiet.access (h : S.Quiet w) : (S.scan w).2.access = S.access := by
  obtain ⟨hcalls, _⟩ := h
  rw [scan_fst] at hcalls
  rw [scan_snd]
  exact AssocMap.enter_of_newKeys hcalls

theorem Quiet.scan_of_first (h : S.Quiet w) (hfirst : S.preference = .first) :
    (S.scan w).2 = S := by
  obtain ⟨hcalls, hterminations⟩ := h
  rw [scan_fst] at hcalls hterminations
  rw [SequenceStore.scan_of_first hfirst, noting]
  dsimp only
  rw [AssocMap.enter_of_newKeys hcalls, AssocMap.enter_of_newKeys hterminations]

end SequenceStore

namespace Session

variable {α : Type} [DecidableEq α] {ask : List α → Except (LearningError α) Bool} {limit : Nat}
  {q : LabelledWord α} {s s' : TableSession α} {b : Bool}

/-! ## No report -/

/-- What learning from a word changes without a report: nothing, or what a scan of the word changes that
finds nothing new. -/
inductive Unreported (q : LabelledWord α) (s : TableSession α) : TableSession α → Prop where
  | idle (h : q.word = [] ∨ q.accepted = false) : Unreported q s s
  | scanned (nonempty : q.word ≠ []) (accepted : q.accepted = true) (quiet : s.store.Quiet q.word) :
      Unreported q s (s.withStore (s.store.scan q.word).2 q.word.head?)

/-- If no call has become usable, the word has shown no terminating sequence of a new call. -/
theorem terminations_eq_nil (limit : Nat) (h : s.Outstanding [] []) {found : Discoveries α}
    {S : SequenceStore α} {i : Option α} (hscan : s.store.scan q.word = (found, S))
    (hrun : makeAllUsable ask found.terminations (s.withStore S i) = .ok (false, s')) :
    s' = s.withStore S i ∧ found.terminations = [] := by
  have hout := h.shown hscan i
  obtain ⟨_, hout', hsame⟩ := changes_of_makeAllUsable limit q hout hrun
  obtain rfl := hsame rfl
  refine ⟨rfl, List.eq_nil_iff_forall_not_mem.2 fun c hc => ?_⟩
  have husable : s.Usable c :=
    ((hout'.usable c).1 ((hout.usable c).2 (.inr hc))).resolve_right List.not_mem_nil
  have hnew : c ∈ (s.store.scan q.word).1.terminations := by rwa [hscan]
  rw [SequenceStore.scan_fst] at hnew
  exact AssocMap.get?_eq_none_iff.1 (AssocMap.mem_newKeys_iff.1 hnew).1 ((h.usable c).2 (.inl husable))

theorem unreported_of_extract (h : s.Outstanding [] []) (hne : q.word ≠ [])
    (hrun : extract ask (firstTable limit) s q = .ok (false, s')) : Unreported q s s' := by
  rcases extract_parts hrun with ⟨hacc, found, S, b₁, s₁, hscan, h₁, h₂, hb⟩ | ⟨hacc, _, rfl⟩
  · obtain ⟨rfl, hcalls⟩ := Bool.or_eq_false_iff.1 hb.symm
    have hcalls : found.calls = [] := by simpa using hcalls
    obtain ⟨rfl, hterminations⟩ := terminations_eq_nil limit h hscan h₁
    rw [hcalls] at h₂
    cases h₂
    have hquiet : s.store.Quiet q.word := by
      rw [SequenceStore.Quiet, hscan]
      exact ⟨hcalls, hterminations⟩
    have hscanned := Unreported.scanned hne hacc hquiet
    rwa [hscan] at hscanned
  · exact .idle (.inr hacc)

/-- Without a report no learner was refined either. -/
theorem unreported_of_refine (h : s.Outstanding [] [])
    (hrun : s.refine ask (firstTable limit) q = .ok (false, s')) : Unreported q s s' := by
  by_cases hne : q.word = []
  · rw [refine, if_pos hne] at hrun
    cases hrun
    exact .idle (.inl hne)
  obtain ⟨b₀, s₀, b₁, s₁, b₂, h₀, h₁, h₂, hb⟩ := refine_parts hne hrun
  obtain ⟨hb', rfl⟩ := Bool.or_eq_false_iff.1 hb.symm
  obtain ⟨rfl, rfl⟩ := Bool.or_eq_false_iff.1 hb'
  obtain ⟨_, hreported₁⟩ := resolve_reported h₁
  obtain ⟨_, _, hreported₂⟩ := repairAll_reported h₂
  cases hreported₁
  cases hreported₂
  exact unreported_of_extract h hne h₀

/-! ## What is reported -/

/-- What was gained can be seen from the learners or from the local alphabet. -/
theorem Gains.ne (h : s.Gains s') : ¬ (s'.learners = s.learners ∧ s'.localAlphabet = s.localAlphabet) := by
  rintro ⟨hlearners, hB⟩
  cases h with
  | usable c before after => exact before (by rwa [Usable, ← hB])
  | learner c before after => exact before (hlearners ▸ after)
  | base c before after hlt =>
    rw [hlearners, before] at after
    cases after
    exact Nat.lt_irrefl _ hlt

namespace Taught

variable {f : List α → Bool} {A : Alphabet α} {preference : Preference}

/-- Learning reports a change exactly if a procedure, a usable call or a state of a hypothesis was found.
Without a report the sequences are the same as well, apart from terminating sequences for which an
accepted word shows shorter ones, if those are preferred. -/
theorem reports_all_but_shorter (h : Taught f A limit preference s)
    (hrun : s.refine (answering f) (firstTable limit) q = .ok (b, s')) :
    (b = false ↔ s'.learners = s.learners ∧ s'.localAlphabet = s.localAlphabet) ∧
    (b = false → s'.alphabet = s.alphabet ∧ s'.events = s.events ∧
      s'.store.access = s.store.access ∧
      (preference = .first ∨ q.accepted = false → s'.store = s.store) ∧
      ∀ c, s'.store.terminating.get? c =
        if preference = .shortest ∧ q.accepted = true then
          ((s.store.terminating.get? c).toList ++
            ((A.bodies q.word).filter (·.1 = c)).map Prod.snd).argmin List.length
        else s.store.terminating.get? c) := by
  obtain ⟨hA, _, hout⟩ := h.invariant
  obtain ⟨hs, hpreference⟩ := h.tablesFaithful
  constructor
  · constructor
    · rintro rfl
      cases unreported_of_refine hout hrun with
      | idle => exact ⟨rfl, rfl⟩
      | scanned => exact ⟨rfl, rfl⟩
    · intro hsame
      cases b with
      | false => rfl
      | true => exact absurd hsame (gains_of_refine hout hs hrun).ne
  · rintro rfl
    cases unreported_of_refine hout hrun with
    | idle hidle =>
      refine ⟨rfl, rfl, rfl, fun _ => rfl, fun c => ?_⟩
      split
      · next hshortest =>
        obtain hword | hrejected := hidle
        · rw [hword]
          cases s.store.terminating.get? c <;> rfl
        · cases hshortest.2.symm.trans hrejected
      · rfl
    | scanned _ hacc hquiet =>
      have hstore : s.store.alphabet = A := hout.alphabet.trans hA
      refine ⟨rfl, rfl, hquiet.access, fun hfirst => ?_, fun c => ?_⟩
      · exact hquiet.scan_of_first (hpreference.trans (hfirst.resolve_right (by simp [hacc])))
      · split
        · next hshortest =>
          rw [← hstore]
          exact SequenceStore.get?_scan_of_shortest (hpreference.trans hshortest.1) q.word c
        · next hfirst =>
          have hpreference' : s.store.preference = .first := by
            rw [hpreference]
            cases preference with
            | first => rfl
            | shortest => exact absurd ⟨rfl, hacc⟩ hfirst
          change (s.store.scan q.word).2.terminating.get? c = _
          rw [hquiet.scan_of_first hpreference']

end Taught

/-! ## A shorter sequence -/

/-- `T` reads `b`s, and returns behind any of them. -/
def repeatingSystem : PlainSystem Char :=
  .ofCalls ⟨['b'], ['S', 'T', 'U'], 'R', by decide⟩ (some 'S')
    (.ofList [
      ('S', {
        states := #[⟨true, .ofList [('T', 0), ('U', 0)]⟩]
        start := some 0
        target_lt := by decide
        start_lt := by decide }),
      ('T', {
        states := #[⟨true, .ofList [('b', 1)]⟩, ⟨true, .ofList [('b', 1), ('R', 2)]⟩, ⟨true, ∅⟩]
        start := some 0
        target_lt := by decide
        start_lt := by decide }),
      ('U', {
        states := #[⟨true, .ofList [('T', 0)]⟩]
        start := some 0
        target_lt := by decide
        start_lt := by decide })])
    (List.all_eq_true.1 (by decide))

theorem lessons_repeatingSystem : ∃ (s s' : TableSession Char),
    Taught repeatingSystem.accepts repeatingSystem.alphabet 20 .shortest s ∧
    s.refine (answering repeatingSystem.accepts) (firstTable 20) ⟨['S', 'T', 'b', 'R'], true⟩ =
      .ok (false, s') ∧
    s.store.terminating.get? 'T' = some ['b', 'b'] ∧ s'.store.terminating.get? 'T' = some ['b'] := by
  have hrun : (do
      let r ← (start repeatingSystem.alphabet .shortest : TableSession Char).refine
        (answering repeatingSystem.accepts) (firstTable 20) ⟨['S', 'T', 'b', 'b', 'R'], true⟩
      let r' ← r.2.refine (answering repeatingSystem.accepts) (firstTable 20)
        ⟨['S', 'T', 'b', 'R'], true⟩
      return (r'.1, r.2.store.terminating.get? 'T', r'.2.store.terminating.get? 'T') :
        Except (LearningError Char) _) = .ok (false, some ['b', 'b'], some ['b']) := by
    decide +kernel
  obtain ⟨⟨b, s⟩, hr, hrun⟩ := exists_of_bind_eq_ok hrun
  obtain ⟨⟨b', s'⟩, hr', hrun⟩ := exists_of_bind_eq_ok hrun
  obtain ⟨rfl, hrun⟩ := Prod.mk.inj (Except.ok.inj hrun)
  obtain ⟨hbefore, hafter⟩ := Prod.mk.inj hrun
  exact ⟨s, s', .refine .start hr, hr', hbefore, hafter⟩

/-- The second word shows that `T` returns behind one `b` already. Its sequence is replaced, and no change
is reported. -/
theorem refine_repeatingSystem : ∃ (s s' : TableSession Char) (q : LabelledWord Char),
    Taught repeatingSystem.accepts repeatingSystem.alphabet 20 .shortest s ∧
    q.accepted = repeatingSystem.accepts q.word ∧
    s.refine (answering repeatingSystem.accepts) (firstTable 20) q = .ok (false, s') ∧
    s'.store.terminating.get? 'T' ≠ s.store.terminating.get? 'T' := by
  obtain ⟨s, s', htaught, hrun, hbefore, hafter⟩ := lessons_repeatingSystem
  refine ⟨s, s', ⟨['S', 'T', 'b', 'R'], true⟩, htaught, by decide, hrun, ?_⟩
  rw [hbefore, hafter]
  decide

/-- Nothing else changes with the second word. -/
theorem reports_all_but_shorter_repeatingSystem : ∃ (s s' : TableSession Char),
    Taught repeatingSystem.accepts repeatingSystem.alphabet 20 .shortest s ∧
    s.refine (answering repeatingSystem.accepts) (firstTable 20) ⟨['S', 'T', 'b', 'R'], true⟩ =
      .ok (false, s') ∧
    s'.learners = s.learners ∧ s'.localAlphabet = s.localAlphabet ∧ s'.events = s.events ∧
    s'.store.access = s.store.access := by
  obtain ⟨s, s', htaught, hrun, _⟩ := lessons_repeatingSystem
  obtain ⟨hreport, hunreported⟩ := htaught.reports_all_but_shorter hrun
  obtain ⟨hlearners, hB⟩ := hreport.1 rfl
  obtain ⟨_, hevents, haccess, _⟩ := hunreported rfl
  exact ⟨s, s', htaught, hrun, hlearners, hB, hevents, haccess⟩

end Session

end BehavioralAutomata
