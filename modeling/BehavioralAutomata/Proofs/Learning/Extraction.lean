import BehavioralAutomata.Proofs.Learning.Discovery

/-!
# Learning from accepted words

* `Session.extract_spec`: what an accepted word shows is taken into account without failure. Afterwards
  every call of the word has a learner and every call whose invocation ends in it is usable.
-/

namespace BehavioralAutomata.Session

variable {α : Type} {β : Type} [DecidableEq α] [DecidableEq β] {T : System α β} {limit : Nat}
  {m : Type → Type} [Monad m] [LawfulMonad m] [MonadExceptOf (LearningError α) m]
  {ask : List α → m Bool} {s : TableSession α}

omit [LawfulMonad m] [MonadExceptOf (LearningError α) m] in
/-- A nonempty word that is accepted starts with the initial call. -/
theorem head?_eq_initialCall {w : List α} (hw : T.reached w ≠ .dead) (hne : w ≠ []) :
    w.head? = T.initialCall := by
  cases w with
  | nil => exact absurd rfl hne
  | cons a w =>
    obtain ⟨_, _, hi, _⟩ := System.reached_cons hw
    exact hi.symm

variable (hask : ∀ v, ask v = pure (T.accepts v)) (hT : T.EntriesAccept)
  (hlimit : LimitSuffices T limit)

include hask hT hlimit

/-- What an accepted word shows is taken into account. -/
theorem extract_spec (hs : s.Sound T limit) (hc : s.Complete) {q : LabelledWord α}
    (hq : q.accepted = true) (hw : T.reached q.word ≠ .dead) (hne : q.word ≠ []) :
    ∃ b s', extract ask (firstTable limit) s q = (pure (b, s') : m _) ∧ s.Advances T limit b s' ∧
      (∀ c ∈ q.word, T.alphabet.kind? c = some .call → c ∈ s'.learners.keys) ∧
      (∀ c, T.alphabet.kind? c = some .call → T.alphabet.Invokes q.word c → s'.Usable c) ∧
      (b = false → s'.learners = s.learners ∧ s'.localAlphabet = s.localAlphabet) := by
  rcases hscan : s.store.scan q.word with ⟨found, S⟩
  obtain ⟨hS, hrecords, hcalls, hinvokes⟩ := SequenceStore.scan_spec hs.store hw hscan
  obtain ⟨calls, hfound, hnodup, hfresh, haccess⟩ := hrecords.access
  obtain ⟨terms, hterms, hterminating⟩ := hrecords.terminating
  rw [List.nil_append] at hfound hterms
  subst hfound hterms
  have hi := head?_eq_initialCall hw hne
  have hsound₀ : (s.withStore S q.word.head?).Sound T limit :=
    hs.withStore hS (fun c hc => (haccess c).2 (.inl hc))
      (fun c hc => (hterminating c).2 (.inl hc)) hi
  obtain ⟨b, s₁, h₁, hadvances₁, hadapts, husable, hsame⟩ :=
    makeAllUsable_spec hask hT hlimit hsound₀ fun c hc => (hterminating c).2 (.inr hc)
  have hgrows₀ := grows_withStore s S q.word.head?
  have hgrows₁ := hgrows₀.trans hadapts.toGrows
  have hall₁ : ∀ c ∈ s₁.store.terminating.keys, s₁.Usable c := by
    intro c hct
    rw [hadapts.store] at hct
    rcases (hterminating c).1 hct with hct | hct
    · exact hgrows₁.usable c (hc.usable c hct)
    · exact husable c hct
  have hnew : ∀ c ∈ found.calls, c ∉ s.learners.keys := by
    intro c hcf hcl
    obtain ⟨l, hl⟩ := AssocMap.mem_keys_iff.1 hcl
    exact hfresh c hcf (hs.learns c l hl).access
  obtain ⟨s₂, h₂, hdisc⟩ := discoverAll_spec hask hT hlimit hadvances₁.sound
    (hadapts.initialCall.trans hi) hnodup
    (fun c hcf => hadapts.store ▸ (haccess c).2 (.inr hcf)) fun c hcf => hadapts.keys ▸ hnew c hcf
  have hkeys : ∀ c, c ∈ s₂.learners.keys ↔ c ∈ s.learners.keys ∨ c ∈ found.calls := by
    intro c
    rw [hdisc.keys, hadapts.keys]
    rfl
  have hlearners : ∀ c ∈ S.access.keys, c ∈ s₂.learners.keys := fun c hca =>
    (hkeys c).2 (((haccess c).1 hca).imp_left (hc.learners c))
  have hstore : s₂.store.access = S.access :=
    hdisc.access.trans (congrArg SequenceStore.access hadapts.store)
  have hgains : (b || !found.calls.isEmpty) = true → s.Gains s₂ := by
    intro hb
    rw [Bool.or_eq_true, Bool.not_eq_true'] at hb
    rcases hb with hb | hb
    · exact (hadvances₁.gains hb).mono hgrows₀ hdisc.grows
    · obtain ⟨c, hcf⟩ := List.exists_mem_of_ne_nil _ (List.isEmpty_eq_false_iff.1 hb)
      exact .learner c (hnew c hcf) ((hkeys c).2 (.inr hcf))
  have hcomplete : s₂.Complete := ⟨fun c hc => hlearners c (hstore ▸ hc), hdisc.usable hall₁⟩
  refine ⟨_, s₂, ?_, ⟨hdisc.sound, fun _ => hcomplete, hgrows₁.trans hdisc.grows, hgains⟩,
    fun c hcw hk => hlearners c (hcalls c hcw hk), fun c hk hinv => ?_, fun hb => ?_⟩
  · rw [extract, if_pos hq, hscan]
    change (makeAllUsable ask found.terminations (s.withStore S q.word.head?) >>= _) = _
    rw [h₁, pure_bind]
    change (found.calls.foldlM (discoverAndSearch ask (firstTable limit)) s₁ >>= _) = _
    rw [h₂, pure_bind]
  · exact hdisc.grows.usable c (hall₁ c (hadapts.store ▸ hinvokes c hk hinv))
  · rw [Bool.or_eq_false_iff, Bool.not_eq_false', List.isEmpty_iff] at hb
    rw [hdisc.eq_of_nil hb.2, hsame hb.1]
    exact ⟨rfl, rfl⟩

end BehavioralAutomata.Session
