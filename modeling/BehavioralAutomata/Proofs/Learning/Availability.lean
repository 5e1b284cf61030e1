import BehavioralAutomata.Proofs.Learning.Equipment

/-!
# Sequences are there when they are needed

As before the oracle is any function, and the words that a session learns from have any labels.

* `Session.not_missing_of_refine`: learning never fails because a sequence is missing. There is one lemma
  for each part of it; what is still outstanding is known from `Session.changes_of_refine`.
* `Session.Taught`: the sessions that words with any labels lead to.
* `Session.Taught.sequences_match_learners`: the usable calls, the learners and their alphabets are those
  that the recorded sequences ask for.
-/

namespace BehavioralAutomata.Session

open Relation (ReflTransGen)

variable {α : Type} [DecidableEq α] {f : List α → Bool} {limit : Nat} {s s' : TableSession α}
  {q : LabelledWord α} {c : α} {calls terms : List α} {e : LearningError α}

theorem not_missing_of_makeUsable (hs : s.Equipped) (hc : c ∈ s.store.terminating.keys)
    (h : makeUsable (answering f) s c = .error e) : e.isMissing = false := by
  rw [makeUsable] at h
  split at h
  · split at h
    · cases h
    · rcases of_bind_eq_error h with hgrow | ⟨_, _, h⟩
      · rw [growAll] at hgrow
        rcases of_bind_eq_error hgrow with hfold | ⟨_, _, h⟩
        · exact (hs.growLearners_outcome hc).of_eq_error hfold
        · cases h
      · cases h
  · cases h

theorem not_missing_of_makeAllUsable (limit : Nat) (q : LabelledWord α) (hs : s.Equipped)
    (hout : s.Outstanding calls terms)
    (h : makeAllUsable (answering f) terms s = .error e) : e.isMissing = false := by
  induction terms generalizing s with
  | nil => cases h
  | cons c terms ih =>
    have hc := (hout.usable c).2 (.inr List.mem_cons_self)
    rw [makeAllUsable] at h
    rcases of_bind_eq_error h with h₁ | ⟨⟨b, s₁⟩, h₁, h⟩
    · exact not_missing_of_makeUsable hs hc h₁
    · obtain ⟨hsteps, hout₁, _⟩ := changes_of_makeUsable limit q hout h₁
      rcases of_bind_eq_error h with h₂ | ⟨_, _, h⟩
      · exact ih (equipped_of_changes hsteps hs).1 hout₁ h₂
      · cases h

theorem not_missing_of_discoverAndSearch (q : LabelledWord α) (hs : s.Equipped)
    (hout : s.Outstanding (c :: calls) [])
    (h : discoverAndSearch (answering f) (firstTable limit) s c = .error e) : e.isMissing = false := by
  have hknown := (hout.learners c).2 (.inr List.mem_cons_self)
  cases hstart : LocalLearning.start (s.store.askLocal (answering f) c)
      (firstTable limit c s.localAlphabet.symbols) with
  | error e' =>
    have he : discoverAndSearch (answering f) (firstTable limit) s c = .error e' := by
      rw [discoverAndSearch, discover, hstart]
      rfl
    cases he.symm.trans h
    have hserves := hs.serves_symbols hknown
    exact LearningError.not_missing_limitExceeded
      ((start_outcome c (hserves.responds f)).of_eq_error hstart)
  | ok l =>
    obtain ⟨s₁, terms, heq, hsteps, hout₁⟩ := discoverAndSearch_eq q hout hstart
    rw [heq] at h
    cases hrun : makeAllUsable (answering f) terms s₁ with
    | ok r =>
      rw [hrun] at h
      cases h
    | error e' =>
      rw [hrun] at h
      cases h
      exact not_missing_of_makeAllUsable limit q (equipped_of_changes hsteps hs).1 hout₁ hrun

theorem not_missing_of_discoverAll (q : LabelledWord α) (hs : s.Equipped)
    (hout : s.Outstanding calls [])
    (h : calls.foldlM (discoverAndSearch (answering f) (firstTable limit)) s = .error e) :
    e.isMissing = false := by
  induction calls generalizing s with
  | nil => cases h
  | cons c calls ih =>
    rw [List.foldlM_cons] at h
    rcases of_bind_eq_error h with h₁ | ⟨s₁, h₁, h⟩
    · exact not_missing_of_discoverAndSearch q hs hout h₁
    · obtain ⟨hsteps, hout₁⟩ := changes_of_discoverAndSearch (q := q) hout h₁
      exact ih (equipped_of_changes hsteps hs).1 hout₁ h

theorem not_missing_of_extract (hs : s.Equipped) (hout : s.Outstanding [] []) (hne : q.word ≠ [])
    (h : s.extract (answering f) (firstTable limit) q = .error e) : e.isMissing = false := by
  rw [extract] at h
  split at h
  · next hacc =>
    rcases hscan : s.store.scan q.word with ⟨found, S⟩
    simp only [hscan] at h
    have hout₀ := hout.shown hscan q.word.head?
    have hshown : Change (answering f) limit q s (s.withStore S q.word.head?) :=
      .shown hacc hne hscan
    have hs₀ := hshown.equipped hs
    rcases of_bind_eq_error h with h₁ | ⟨⟨b, s₁⟩, h₁, h⟩
    · exact not_missing_of_makeAllUsable limit q hs₀.1 hout₀ h₁
    · obtain ⟨hsteps₁, hout₁, _⟩ := changes_of_makeAllUsable limit q hout₀ h₁
      rcases of_bind_eq_error h with h₂ | ⟨_, _, h⟩
      · exact not_missing_of_discoverAll q (equipped_of_changes hsteps₁ hs₀.1).1 hout₁ h₂
      · cases h
  · cases h

theorem not_missing_of_localCounterexample (h : s.localCounterexample q = .error e) :
    e.isMissing = false := by
  rw [localCounterexample] at h
  dsimp only at h
  split at h
  · cases h
    rfl
  · split at h
    · cases h
      rfl
    · cases h

theorem not_missing_of_refineLocal (hs : s.Equipped)
    (h : s.refineLocal (answering f) q = .error e) : e.isMissing = false := by
  rw [refineLocal] at h
  cases hlocal : s.localCounterexample q with
  | error e' =>
    rw [hlocal] at h
    cases h
    exact not_missing_of_localCounterexample hlocal
  | ok r =>
    obtain ⟨c, v⟩ := r
    simp only [hlocal] at h
    cases hl : s.learners.get? c with
    | none =>
      rw [hl] at h
      cases h
      rfl
    | some l =>
      simp only [hl] at h
      rcases of_bind_eq_error h with hrefine | ⟨⟨used, l'⟩, _, hused⟩
      · exact (hs.refine_outcome hl (hs.localCounterexample_subset hl hlocal)).of_eq_error hrefine
      · cases used with
        | true => cases hused
        | false =>
          cases hused
          rfl

theorem not_missing_of_resolve (limit : Nat) (hs : s.Equipped) {n : Nat}
    (h : resolve (answering f) q n s = .error e) : e.isMissing = false := by
  have houtcome : Outcome (fun _ => True) (fun e => e.isMissing = false)
      ((resolve (answering f) q n s).map Prod.snd) := by
    apply outcome_of_budget (fun n s => (resolve (answering f) q n s).map Prod.snd) Equipped
      resolve_succ _ _ _ hs
    · intro t _
      rcases resolve_zero_cases (answering f) q t with hzero | ⟨e, hzero, hlocal | ⟨c, v, rfl⟩⟩ <;>
        rw [hzero]
      · trivial
      · exact not_missing_of_localCounterexample hlocal
      · rfl
    · intro t u ht hround
      obtain ⟨hno, hu⟩ := exists_of_resolveStep hround
      obtain ⟨c, v, l, l', hlocal, hl, hrefine, rfl⟩ := exists_of_refineLocal hu
      have hstep : Change (answering f) limit q t (t.withLearner c l') :=
        .resolved hno hlocal hl hrefine
      exact (hstep.equipped ht).1
    · intro t r ht hround
      cases resolveRound_of_eq hround with
      | agrees => trivial
      | failed _ hrefine => exact not_missing_of_refineLocal ht hrefine
  exact houtcome.of_eq_error (by rw [h]; rfl)

theorem not_missing_of_repair (limit : Nat) (q : LabelledWord α) (hs : s.Equipped) {n : Nat}
    (h : repair (answering f) c n s = .error e) : e.isMissing = false := by
  have houtcome : Outcome (fun _ => True) (fun e => e.isMissing = false)
      ((repair (answering f) c n s).map Prod.snd) := by
    apply outcome_of_budget (fun n s => (repair (answering f) c n s).map Prod.snd) Equipped
      repair_succ _ _ _ hs
    · intro t _
      rcases repair_zero_cases (answering f) c t with hzero | hzero <;> rw [hzero]
      · trivial
      · rfl
    · intro t u ht hround
      obtain ⟨l, v, l', hl, hv, hrefine, rfl⟩ := exists_of_repairStep hround
      have hstep : Change (answering f) limit q t (t.withLearner c l') := .repaired hl hv hrefine
      exact (hstep.equipped ht).1
    · intro t r ht hround
      cases repairRound_of_eq hround with
      | closed => trivial
      | unused => rfl
      | failed hl hv hrefine =>
        exact (ht.refine_outcome hl ((ht.spelled c _ hl).violation_subset hv)).of_eq_error hrefine
  exact houtcome.of_eq_error (by rw [h]; rfl)

theorem not_missing_of_repairAll (limit : Nat) (q : LabelledWord α) (hs : s.Equipped)
    (hout : s.Outstanding [] []) {cs : List α} (h : repairAll (answering f) cs s = .error e) :
    e.isMissing = false := by
  induction cs generalizing s with
  | nil => cases h
  | cons c cs ih =>
    rw [repairAll] at h
    rcases of_bind_eq_error h with h₁ | ⟨⟨b, s₁⟩, h₁, h⟩
    · exact not_missing_of_repair limit q hs h₁
    · obtain ⟨hsteps, hout₁⟩ := changes_of_repair limit q hout h₁
      rcases of_bind_eq_error h with h₂ | ⟨_, _, h⟩
      · exact ih (equipped_of_changes hsteps hs).1 hout₁ h₂
      · cases h

/-- Whatever the word and the answers are, learning does not fail because a sequence is missing. -/
theorem not_missing_of_refine (hs : s.Equipped) (hout : s.Outstanding [] [])
    (h : s.refine (answering f) (firstTable limit) q = .error e) : e.isMissing = false := by
  rw [refine] at h
  split at h
  · cases h
  · next hne =>
    rcases of_bind_eq_error h with h₁ | ⟨⟨b₁, s₁⟩, h₁, h⟩
    · exact not_missing_of_extract hs hout hne h₁
    obtain ⟨hsteps₁, hout₁, _⟩ := changes_of_extract hout hne h₁
    have hs₁ := (equipped_of_changes hsteps₁ hs).1
    rcases of_bind_eq_error h with h₂ | ⟨⟨b₂, s₂⟩, h₂, h⟩
    · exact not_missing_of_resolve limit hs₁ h₂
    obtain ⟨hsteps₂, hout₂⟩ := changes_of_resolve limit hout₁ h₂
    rcases of_bind_eq_error h with h₃ | ⟨_, _, h⟩
    · exact not_missing_of_repairAll limit q (equipped_of_changes hsteps₂ hs₁).1 hout₂ h₃
    · cases h

/-! ## Sessions that any words lead to -/

/-- The sessions that can be reached from the beginning by learning from words with any labels, while the
function `f` answers for the oracle. -/
inductive Taught (f : List α → Bool) (A : Alphabet α) (limit : Nat) (preference : Preference) :
    TableSession α → Prop where
  | start : Taught f A limit preference (start A preference)
  | refine {s s' : TableSession α} {q : LabelledWord α} {changed : Bool} :
      Taught f A limit preference s →
      s.refine (answering f) (firstTable limit) q = .ok (changed, s') →
      Taught f A limit preference s'

theorem Change.alphabet_eq {ask : List α → Except (LearningError α) Bool}
    (h : Change ask limit q s s') : s'.alphabet = s.alphabet := by
  cases h <;> rfl

/-- Whatever a learner asks during a change, the sequences for it are there before. -/
theorem Change.serves (h : Change (answering f) limit q s s') (hs : s.Equipped)
    {l : ObservationTable (LocalSymbol α)} (hl : s'.learners.get? c = some l) :
    s.store.Serves c l.alphabet := by
  have hs' := (h.equipped hs).1
  cases h with
  | shown => exact hs.serves hl
  | searched => exact hs.serves hl
  | grown => exact hs'.serves hl
  | discovered => exact hs'.serves hl
  | resolved => exact hs'.serves hl
  | repaired => exact hs'.serves hl

namespace Taught

variable {A : Alphabet α} {preference : Preference}

theorem invariant (h : Taught f A limit preference s) :
    s.alphabet = A ∧ s.Equipped ∧ s.Outstanding [] [] := by
  induction h with
  | start => exact ⟨rfl, equipped_start A preference, outstanding_start A preference⟩
  | refine _ hrefine ih =>
    obtain ⟨hA, hs, hout⟩ := ih
    obtain ⟨hsteps, hout'⟩ := changes_of_refine hout hrefine
    refine ⟨?_, (equipped_of_changes hsteps hs).1, hout'⟩
    clear hrefine hout hout' hs
    induction hsteps with
    | refl => exact hA
    | tail _ hstep ih => exact hstep.alphabet_eq.trans ih

/-- Whatever a session learns from, a call is usable if and only if it has a terminating sequence, the
procedures that have learners are those that have access sequences, and every learner has the current
local symbols. Learning from one more word is a sequence of changes, in front of each of which the
sequences are there that the questions of the learners need, so that it never fails for want of one. -/
theorem sequences_match_learners (h : Taught f A limit preference s) :
    (∀ c, A.kind? c = some .call → ∃ usable, s.localAlphabet.get? c = some (.call c usable) ∧
      (usable = true ↔ c ∈ s.store.terminating.keys)) ∧
    (∀ c, c ∈ s.learners.keys ↔ c ∈ s.store.access.keys) ∧
    (∀ c l, s.learners.get? c = some l → ∀ a ∈ A.symbols,
      ∃ x, s.localAlphabet.get? a = some x ∧ x ∈ l.alphabet) ∧
    ∀ q : LabelledWord α,
      (∀ b s', s.refine (answering f) (firstTable limit) q = .ok (b, s') →
        ReflTransGen (Change (answering f) limit q) s s') ∧
      (∀ s₁ s₂ c l, ReflTransGen (Change (answering f) limit q) s s₁ →
        Change (answering f) limit q s₁ s₂ → s₂.learners.get? c = some l →
        s₁.store.Serves c l.alphabet ∧
          ∀ w, w ⊆ l.alphabet → ∃ b, s₁.store.askLocal (answering f) c w = .ok b) ∧
      ∀ c, s.refine (answering f) (firstTable limit) q ≠ .error (.noAccessSequence c) ∧
        s.refine (answering f) (firstTable limit) q ≠ .error (.noTerminatingSequence c) := by
  obtain ⟨hA, hs, hout⟩ := h.invariant
  refine ⟨fun c hc => ?_, fun c => ?_, fun c l hl a ha => ?_, fun q => ⟨fun b s' hrun => ?_,
    fun s₁ s₂ c l hsteps hstep hl => ?_, fun c => ⟨fun herror => ?_, fun herror => ?_⟩⟩⟩
  · rw [← hA] at hc
    obtain ⟨usable, hget⟩ := hout.fits.call c hc
    refine ⟨usable, hget, ?_⟩
    rw [hout.usable, or_iff_left List.not_mem_nil, Usable, hget]
    constructor
    · intro husable
      rw [husable]
    · intro heq
      cases heq
      rfl
  · exact ((hout.learners c).trans (or_iff_left List.not_mem_nil)).symm
  · obtain ⟨k, hk⟩ := Alphabet.mem_symbols_iff_exists.1 ha
    rw [← hA] at hk
    obtain ⟨x, hx⟩ := hout.fits.exists_get? hk
    exact ⟨x, hx, hs.current c l a x hl hx⟩
  · exact (changes_of_refine hout hrun).1
  · have hserves := hstep.serves (equipped_of_changes hsteps hs).1 hl
    exact ⟨hserves, hserves.responds f⟩
  · cases not_missing_of_refine hs hout herror
  · cases not_missing_of_refine hs hout herror

end Taught

/-- Says no to the words with two returns and to no other ones. -/
def rejectsTwo (w : List Char) : Bool := w.count 'R' ≠ 2

/-- The word that is learned from has a label that the oracle denies. Both procedures have learners then
and both calls are usable. -/
theorem sequences_match_learners_rejectsTwo : ∃ s,
    Taught rejectsTwo ⟨['b'], ['S', 'T'], 'R', by decide⟩ 20 .shortest s ∧
      'T' ∈ s.store.access.keys ∧ s.localAlphabet.get? 'T' = some (.call 'T' true) ∧
      s.refine (answering rejectsTwo) (firstTable 20) ⟨['S', 'b'], false⟩ ≠
        .error (.noTerminatingSequence 'T') := by
  have hrun : ((start ⟨['b'], ['S', 'T'], 'R', by decide⟩ .shortest : TableSession Char).refine
      (answering rejectsTwo) (firstTable 20) ⟨['S', 'T', 'b', 'R', 'R'], true⟩).map
        (fun r => (r.2.learners.keys, r.2.store.terminating.keys)) =
          .ok (['S', 'T'], ['S', 'T']) := by decide +kernel
  obtain ⟨r, hr, hkeys⟩ := exists_of_map_eq_ok hrun
  obtain ⟨hlearners, hterminating⟩ := Prod.mk.inj hkeys
  have htaught : Taught rejectsTwo ⟨['b'], ['S', 'T'], 'R', by decide⟩ 20 .shortest r.2 :=
    .refine .start hr
  obtain ⟨hcalls, haccess, _, hrefine⟩ := htaught.sequences_match_learners
  obtain ⟨usable, hget, husable⟩ := hcalls 'T' (by decide)
  rw [husable.2 (by rw [hterminating]; decide)] at hget
  have hT : 'T' ∈ r.2.store.access.keys := (haccess 'T').1 (by rw [hlearners]; decide)
  exact ⟨r.2, htaught, hT, hget, ((hrefine ⟨['S', 'b'], false⟩).2.2 'T').2⟩

end BehavioralAutomata.Session
