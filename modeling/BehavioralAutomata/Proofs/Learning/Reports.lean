import BehavioralAutomata.Proofs.Learning.Retention

/-!
# What learning reports

The parts of learning answer whether they have changed anything. The oracle is arbitrary.

* `Reported`: the steps of a loop, and whether there were any.
* `Session.resolve_reported`, `Session.repair_reported`, `Session.repairAll_reported`: the loops of
  learning end where their tests are passed, and they report whether learners were refined.
* `Session.gains_of_refine`: a session that reports a change knows something that it did not know.
-/

namespace BehavioralAutomata

open Relation (ReflTransGen TransGen)

/-- The steps that lead from one state to another, reported as `true` if there are any. -/
inductive Reported {σ : Type u} (R : σ → σ → Prop) : Bool → σ → σ → Prop where
  | idle {s : σ} : Reported R false s s
  | active {s s' : σ} (steps : TransGen R s s') : Reported R true s s'

namespace Reported

variable {σ : Type u} {R : σ → σ → Prop} {b b' : Bool} {s s' s'' : σ}

theorem reflTransGen (h : Reported R b s s') : ReflTransGen R s s' := by
  cases h with
  | idle => exact .refl
  | active steps => exact steps.to_reflTransGen

theorem trans (h : Reported R b s s') (h' : Reported R b' s' s'') : Reported R (b || b') s s'' := by
  cases h with
  | idle => exact h'
  | active steps => exact .active (steps.trans_left h'.reflTransGen)

theorem head (hstep : R s s') (h : Reported R b s' s'') : Reported R true s s'' :=
  .active (.head' hstep h.reflTransGen)

end Reported

namespace Session

variable {α : Type} [DecidableEq α] {ask : List α → Except (LearningError α) Bool} {limit : Nat}
  {q : LabelledWord α} {s s' s'' : TableSession α} {b : Bool} {c : α} {calls terms : List α}

/-! ## Loops -/

/-- One learner has used a word. -/
def Refits (ask : List α → Except (LearningError α) Bool) (s s' : TableSession α) : Prop :=
  ∃ c v l l', s.learners.get? c = some l ∧
    LocalLearning.refine (s.store.askLocal ask c) v l = Except.ok (true, l') ∧
    s' = s.withLearner c l'

theorem refits_of_refineLocal (h : s.refineLocal ask q = .ok s') : Refits ask s s' := by
  obtain ⟨c, v, l, l', _, hl, hrefine, hs'⟩ := exists_of_refineLocal h
  exact ⟨c, v, l, l', hl, hrefine, hs'⟩

/-- When resolving a word ends, the hypothesis agrees with it. -/
theorem resolve_reported {n : Nat} (h : resolve ask q n s = .ok (b, s')) :
    s'.agrees q = true ∧ Reported (Refits ask) b s s' := by
  induction n generalizing s b with
  | zero =>
    rw [resolve] at h
    split at h
    · next hagrees =>
      cases h
      exact ⟨hagrees, .idle⟩
    · split at h <;> cases h
  | succ n ih =>
    rw [resolve] at h
    split at h
    · next hagrees =>
      cases h
      exact ⟨hagrees, .idle⟩
    · obtain ⟨s₁, h₁, h⟩ := exists_of_bind_eq_ok h
      obtain ⟨⟨b₂, s₂⟩, h₂, h⟩ := exists_of_bind_eq_ok h
      cases h
      obtain ⟨hagrees, hreported⟩ := ih h₂
      exact ⟨hagrees, hreported.head (refits_of_refineLocal h₁)⟩

/-- When repairing a procedure ends, it does not go on behind a return. -/
theorem repair_reported {n : Nat} (h : repair ask c n s = .ok (b, s')) :
    s'.violation? c = none ∧ (∀ d, d ≠ c → s'.learners.get? d = s.learners.get? d) ∧
      Reported (Refits ask) b s s' := by
  induction n generalizing s b with
  | zero =>
    rw [repair] at h
    split at h
    · cases h
    · next hnone =>
      cases h
      exact ⟨hnone, fun _ _ => rfl, .idle⟩
  | succ n ih =>
    rw [repair] at h
    cases hl : s.learners.get? c with
    | none =>
      rw [hl] at h
      cases h
      exact ⟨by rw [violation?, hl, Option.bind_none], fun _ _ => rfl, .idle⟩
    | some l =>
      simp only [hl] at h
      cases hv : LocalLearner.violation? l with
      | none =>
        simp only [hv] at h
        cases h
        exact ⟨(violation?_eq hl).trans hv, fun _ _ => rfl, .idle⟩
      | some v =>
        simp only [hv] at h
        obtain ⟨⟨used, l'⟩, hrefine, h⟩ := exists_of_bind_eq_ok h
        cases used with
        | false => cases h
        | true =>
          obtain ⟨⟨b₂, s₂⟩, h₂, h⟩ := exists_of_bind_eq_ok h
          cases h
          obtain ⟨hnone, hothers, hreported⟩ := ih h₂
          refine ⟨hnone, fun d hd => (hothers d hd).trans ?_,
            hreported.head ⟨c, v, l, l', hl, hrefine, rfl⟩⟩
          exact (get?_withLearner s c d l').trans (if_neg hd)

theorem repairAll_reported {cs : List α} (h : repairAll ask cs s = .ok (b, s')) :
    (cs.Nodup → ∀ c ∈ cs, s'.violation? c = none) ∧
      (∀ d, d ∉ cs → s'.learners.get? d = s.learners.get? d) ∧ Reported (Refits ask) b s s' := by
  induction cs generalizing s b with
  | nil =>
    cases h
    exact ⟨fun _ => List.forall_mem_nil _, fun _ _ => rfl, .idle⟩
  | cons c cs ih =>
    rw [repairAll] at h
    obtain ⟨⟨b₁, s₁⟩, h₁, h⟩ := exists_of_bind_eq_ok h
    obtain ⟨⟨b₂, s₂⟩, h₂, h⟩ := exists_of_bind_eq_ok h
    cases h
    obtain ⟨hnone₁, hothers₁, hreported₁⟩ := repair_reported h₁
    obtain ⟨hnone₂, hothers₂, hreported₂⟩ := ih h₂
    refine ⟨fun hnodup => ?_, fun d hd => ?_, hreported₁.trans hreported₂⟩
    · -- repairing the later procedures leaves the first one alone
      obtain ⟨hc, hnodup⟩ := List.nodup_cons.1 hnodup
      refine List.forall_mem_cons.2 ⟨?_, hnone₂ hnodup⟩
      rw [violation?, hothers₂ c hc]
      exact hnone₁
    · rw [List.mem_cons, not_or] at hd
      exact (hothers₂ d hd.2).trans (hothers₁ d hd.1)

/-- Procedures that do not go on behind a return are not repaired. -/
theorem repairAll_idle {cs : List α} (hs : ∀ c ∈ cs, s.violation? c = none)
    (h : repairAll ask cs s = .ok (b, s')) : b = false ∧ s' = s := by
  induction cs generalizing b with
  | nil =>
    cases h
    exact ⟨rfl, rfl⟩
  | cons c cs ih =>
    obtain ⟨hc, hcs⟩ := List.forall_mem_cons.1 hs
    have hidle : repair ask c (s.repairBudget c) s = (pure (false, s) : Except _ _) :=
      repair_of_violation? hc _
    rw [repairAll, hidle] at h
    change (repairAll ask cs s >>= fun r => pure (false || r.1, r.2)) = _ at h
    obtain ⟨⟨b₂, s₂⟩, h₂, h⟩ := exists_of_bind_eq_ok h
    cases h
    obtain ⟨rfl, rfl⟩ := ih hcs h₂
    exact ⟨rfl, rfl⟩

/-! ## What is gained -/

/-- A learner that has used a word has found a state, and nothing but its table is different. -/
theorem Refits.spec (h : Refits ask s s') (hs : TablesFaithful s.learners) :
    TablesFaithful s'.learners ∧ s.Adapts s' ∧ s'.alphabet = s.alphabet ∧
      s'.localAlphabet = s.localAlphabet ∧ s.Gains s' := by
  obtain ⟨c, v, l, l', hl, hrefine, rfl⟩ := h
  obtain ⟨hl', hunder, hlt⟩ := Faithful.of_refine (hs c l hl) hrefine
  exact ⟨hs.insert hl', adapts_withLearner hl hunder.toGrows, rfl, rfl,
    .base c hl ((get?_withLearner s c c l').trans (if_pos rfl)) (hlt rfl)⟩

theorem keys_of_refits (h : ReflTransGen (Refits ask) s s') : s'.discovered = s.discovered := by
  induction h with
  | refl => rfl
  | tail _ hstep ih =>
    obtain ⟨c, v, l, l', hl, _, rfl⟩ := hstep
    refine Eq.trans ?_ ih
    exact (AssocMap.keys_insert ..).trans (if_pos (AssocMap.mem_keys_iff.2 ⟨l, hl⟩))

theorem adapts_of_refits (h : ReflTransGen (Refits ask) s s') (hs : TablesFaithful s.learners) :
    TablesFaithful s'.learners ∧ s.Adapts s' ∧ s'.alphabet = s.alphabet ∧
      s'.localAlphabet = s.localAlphabet := by
  induction h with
  | refl => exact ⟨hs, .refl s, rfl, rfl⟩
  | tail _ hstep ih =>
    obtain ⟨hs', hadapts, hA, hB⟩ := ih
    obtain ⟨hs'', hadapts', hA', hB', _⟩ := hstep.spec hs'
    exact ⟨hs'', hadapts.trans hadapts', hA'.trans hA, hB'.trans hB⟩

/-- A loop that reports something has gained it. -/
theorem gains_of_reported (h : Reported (Refits ask) true s s') (hs : TablesFaithful s.learners) :
    s.Gains s' := by
  cases h with
  | active steps =>
    obtain ⟨s₁, hfirst, hrest⟩ := TransGen.head'_iff.1 steps
    obtain ⟨hs₁, _, _, _, hgains⟩ := hfirst.spec hs
    exact hgains.mono (.refl s) (adapts_of_refits hrest hs₁).2.1.toGrows

/-- The call was not usable before. -/
theorem gains_of_makeUsable (h : s.Outstanding calls (c :: terms))
    (hrun : makeUsable ask s c = .ok (true, s')) : s.Gains s' := by
  obtain ⟨usable, hget⟩ :=
    h.fits.call c (h.terminating_isCall c ((h.usable c).2 (.inr List.mem_cons_self)))
  rw [makeUsable, hget] at hrun
  cases usable with
  | true => cases hrun
  | false =>
    obtain ⟨r, hgrow, hr⟩ := exists_of_bind_eq_ok hrun
    cases hr
    rw [growAll] at hgrow
    obtain ⟨M, _, hs'⟩ := exists_of_bind_eq_ok hgrow
    cases hs'
    refine .usable c ?_ (Grown.usable s c M)
    rw [Usable, hget]
    rintro ⟨⟩

theorem gains_of_makeAllUsable (limit : Nat) (q : LabelledWord α) (h : s.Outstanding calls terms)
    (hs : TablesFaithful s.learners)
    (hrun : makeAllUsable ask terms s = .ok (true, s')) : s.Gains s' := by
  induction terms generalizing s with
  | nil => cases hrun
  | cons c terms ih =>
    rw [makeAllUsable] at hrun
    obtain ⟨⟨b₁, s₁⟩, h₁, hrun⟩ := exists_of_bind_eq_ok hrun
    obtain ⟨⟨b₂, s₂⟩, h₂, hrun⟩ := exists_of_bind_eq_ok hrun
    obtain ⟨hb, rfl⟩ := Prod.mk.inj (Except.ok.inj hrun)
    obtain ⟨hsteps₁, hout₁, _⟩ := changes_of_makeUsable limit q h h₁
    obtain ⟨hsteps₂, _⟩ := changes_of_makeAllUsable limit q hout₁ h₂
    obtain ⟨hs₁, hretains₁⟩ := retains_of_changes hsteps₁ hs
    have hretains₂ := (retains_of_changes hsteps₂ hs₁).2
    rcases Bool.or_eq_true_iff.1 hb with rfl | rfl
    · exact (gains_of_makeUsable h h₁).mono (.refl s) hretains₂.grows
    · exact (ih hout₁ hs₁ h₂).mono hretains₁.grows (.refl _)

/-- An accepted word has shown a usable call or a procedure. -/
theorem gains_of_extract (h : s.Outstanding [] []) (hs : TablesFaithful s.learners)
    (hrun : extract ask (firstTable limit) s q = .ok (true, s')) :
    s.Gains s' := by
  rcases extract_parts hrun with ⟨_, found, S, b₁, s₁, hscan, h₁, h₂, hb⟩ | ⟨_, hb, _⟩
  · have hout := h.shown hscan q.word.head?
    obtain ⟨hsteps₁, hout₁, _⟩ := changes_of_makeAllUsable limit q hout h₁
    obtain ⟨hsteps₂, hout₂⟩ := changes_of_discoverAll (q := q) hout₁ h₂
    obtain ⟨hs₁, _⟩ := retains_of_changes hsteps₁ hs
    have hretains₂ := (retains_of_changes hsteps₂ hs₁).2
    rcases Bool.or_eq_true_iff.1 hb.symm with rfl | hcalls
    · exact (gains_of_makeAllUsable limit q hout hs h₁).mono (grows_withStore ..) hretains₂.grows
    · have hne : found.calls ≠ [] := by simpa using hcalls
      obtain ⟨c, hc⟩ := List.exists_mem_of_ne_nil _ hne
      have hknown := (keys_subset_of_changes (hsteps₁.trans hsteps₂)).1
        ((hout.learners c).2 (.inr hc))
      exact .learner c (hout.fresh c hc)
        (((hout₂.learners c).1 hknown).resolve_right List.not_mem_nil)
  · cases hb

/-! ## Learning from words -/

/-- Learning from a word has three parts. -/
theorem refine_parts {create : α → List (LocalSymbol α) → ObservationTable (LocalSymbol α)}
    (hne : q.word ≠ []) (h : s.refine ask create q = .ok (b, s')) :
    ∃ b₀ s₀ b₁ s₁ b₂, s.extract ask create q = .ok (b₀, s₀) ∧
      resolve ask q (s₀.resolveBudget q) s₀ = .ok (b₁, s₁) ∧
      repairAll ask s₁.discovered s₁ = .ok (b₂, s') ∧ b = (b₀ || b₁ || b₂) := by
  rw [refine, if_neg hne] at h
  obtain ⟨⟨b₀, s₀⟩, h₀, h⟩ := exists_of_bind_eq_ok h
  obtain ⟨⟨b₁, s₁⟩, h₁, h⟩ := exists_of_bind_eq_ok h
  obtain ⟨⟨b₂, s₂⟩, h₂, h⟩ := exists_of_bind_eq_ok h
  cases h
  exact ⟨b₀, s₀, b₁, s₁, b₂, h₀, h₁, h₂, rfl⟩

/-- A session that reports a change has gained something. -/
theorem gains_of_refine (h : s.Outstanding [] []) (hs : TablesFaithful s.learners)
    (hrun : s.refine ask (firstTable limit) q = .ok (true, s')) : s.Gains s' := by
  by_cases hne : q.word = []
  · rw [refine, if_pos hne] at hrun
    cases hrun
  obtain ⟨b₀, s₀, b₁, s₁, b₂, h₀, h₁, h₂, hb⟩ := refine_parts hne hrun
  obtain ⟨hs₀, hretains₀⟩ := retains_of_changes (changes_of_extract h hne h₀).1 hs
  obtain ⟨_, hreported₁⟩ := resolve_reported h₁
  obtain ⟨_, _, hreported₂⟩ := repairAll_reported h₂
  obtain ⟨hs₁, hadapts₁, _⟩ := adapts_of_refits hreported₁.reflTransGen hs₀
  obtain ⟨_, hadapts₂, _⟩ := adapts_of_refits hreported₂.reflTransGen hs₁
  rcases Bool.or_eq_true_iff.1 hb.symm with hb | rfl
  · rcases Bool.or_eq_true_iff.1 hb with rfl | rfl
    · exact (gains_of_extract h hs h₀).mono (.refl s) (hadapts₁.trans hadapts₂).toGrows
    · exact (gains_of_reported hreported₁ hs₀).mono hretains₀.grows hadapts₂.toGrows
  · exact (gains_of_reported hreported₂ hs₁).mono (hretains₀.grows.trans hadapts₁.toGrows) (.refl s')

end Session

end BehavioralAutomata
