import BehavioralAutomata.Proofs.Learning.Genuineness

/-!
# Refining sessions with true answers

* `Session.refine_spec`: a session learns from a truthful word without failure, unless it misattributes
  the word, and it changes if its hypothesis was wrong about it.
* `Session.Misattributes`: the only way in which a word can make a session fail.
* `Session.refine_eq_error_iff`: so learning from truthful words fails exactly if one is misattributed.
-/

namespace BehavioralAutomata

variable {α : Type} {β : Type} [DecidableEq α] [DecidableEq β] {T : System α β} {limit : Nat}

namespace Session

variable {s s' : TableSession α} {q : LabelledWord α}

/-- The hypothesis accepts a word that should be rejected, and it still does when the suffixes of the
local word have become experiments of the blamed procedure. -/
def Misattributes (T : System α β) (s : TableSession α) (q : LabelledWord α) : Prop :=
  q.accepted = false ∧ s.hypothesis.accepts q.word = true ∧ ∃ c v l l',
    s.localCounterexample q = .ok (c, v) ∧ s.learners.get? c = some l ∧
    (l.addExperiments v.word).close (s.store.askLocal T.oracle c) = pure l' ∧
    (s.withLearner c l').hypothesis.accepts q.word = true

theorem resolveBudget_eq (s : TableSession α) (q : LabelledWord α) :
    s.resolveBudget q = q.word.length := by
  rw [resolveBudget]
  generalize q.word.length = n
  generalize s.learners.values = ls
  induction ls with
  | nil => rfl
  | cons l ls ih => exact ih

theorem accepts_of_not_agrees (hq : q.accepted = false) (hno : s.agrees q = false) :
    s.hypothesis.accepts q.word = true := by
  rw [agrees, hq, decide_eq_false_iff_not, Bool.not_eq_false] at hno
  exact hno

/-- A rejected word shows nothing of the procedures. -/
theorem refine_eq_of_rejected (hw : T.accepts q.word = false) (hq : q.accepted = false) :
    s.refine T.oracle (firstTable limit) q =
      resolve T.oracle q (s.resolveBudget q) s >>= fun (resolved, s) =>
        repairAll T.oracle s.discovered s >>= fun (repaired, s) =>
          pure (resolved || repaired, s) := by
  rw [refine, if_neg (System.ne_nil_of_rejected hw), extract, hq, if_neg Bool.false_ne_true]
  rfl

/-- What the hypothesis is made of. -/
theorem hypothesis_congr (hs : s.Sound T limit) (hs' : s'.Sound T limit)
    (hl : s'.learners = s.learners) (hB : s'.localAlphabet = s.localAlphabet) :
    s'.hypothesis = s.hypothesis := by
  have hA : s'.alphabet = s.alphabet := hs'.alphabet.trans hs.alphabet.symm
  rw [hypothesis, hypothesis, hl, hB, hA]
  split
  · rfl
  · next hsize =>
    have hne : s.learners.keys ≠ [] := by
      intro hnil
      apply hsize
      rw [← AssocMap.length_keys, hnil]
      rfl
    rw [hs'.initialCall (hl ▸ hne), hs.initialCall hne]

variable (hT : T.EntriesAccept) (hlimit : LimitSuffices T limit)

include hT hlimit

/-- A session learns from every word that the system accepts. -/
theorem refine_accepted (hs : s.Sound T limit) (hc : s.Complete) (hw : T.accepts q.word = true)
    (hq : q.accepted = true) :
    ∃ b s', s.refine T.oracle (firstTable limit) q = .ok (b, s') ∧ s.Advances T limit b s' ∧
      (s.agrees q = false → b = true) := by
  by_cases hne : q.word = []
  · refine ⟨false, s, by rw [refine, if_pos hne]; rfl, .refl hs, fun hno => ?_⟩
    rw [agrees, hne, hq] at hno
    cases hno
  · have hreached := (System.accepts_iff_of_entriesAccept hT).1 hw
    obtain ⟨b₁, s₁, h₁, hadvances₁, hcalls, hinvokes, hsame⟩ :=
      extract_spec T.oracle_eq hT hlimit hs hc hq hreached hne
    have hs₁ := hadvances₁.sound
    obtain ⟨b₂, s₂, h₂, hadvances₂, hno₂⟩ :=
      resolve_accepted T.oracle_eq hT hlimit hw hq hne hs₁ hcalls hinvokes
        (.nil s₁ q.word) (Nat.le_add_right q.word.length 0)
    obtain ⟨b₃, s₃, h₃, hadvances₃, _⟩ :=
      repairAll_spec T.oracle_eq hT hlimit hadvances₂.sound s₂.discovered
    refine ⟨b₁ || b₂ || b₃, s₃, ?_, (hadvances₁.trans hadvances₂).trans hadvances₃,
      fun hno => ?_⟩
    · rw [refine, if_neg hne, h₁]
      change (resolve T.oracle q (s₁.resolveBudget q) s₁ >>= _) = _
      rw [resolveBudget_eq, h₂]
      change (repairAll T.oracle s₂.discovered s₂ >>= _) = _
      rw [h₃]
      rfl
    · cases b₁ with
      | true => rfl
      | false =>
        obtain ⟨hl, hB⟩ := hsame rfl
        have hno' : s₁.agrees q = false := by
          rw [agrees, hypothesis_congr hs hs₁ hl hB]
          exact hno
        rw [hno₂ hno']
        rfl

/-- A session learns from every word that the system rejects and that it does not misattribute. -/
theorem refine_rejected (hs : s.Sound T limit) (hw : T.accepts q.word = false)
    (hq : q.accepted = false) (h : ¬ s.Misattributes T q) :
    ∃ b s', s.refine T.oracle (firstTable limit) q = .ok (b, s') ∧ s.Advances T limit b s' ∧
      (s.agrees q = false → b = true) := by
  have hresolve : ∃ b r, resolve T.oracle q (s.resolveBudget q) s = .ok (b, r) ∧
      s.Advances T limit b r ∧ (s.agrees q = false → b = true) := by
    cases hno : s.agrees q with
    | true => exact ⟨false, s, resolve_of_agrees hno _, .refl hs, by rintro ⟨⟩⟩
    | false =>
      have hacc := accepts_of_not_agrees hq hno
      obtain ⟨c, v, l, l', hattempt⟩ :=
        exists_attempt hT hw hq T.oracle_eq hlimit hs hacc
      have hrej : (s.withLearner c l').hypothesis.accepts q.word = false := by
        by_contra hstill
        exact h ⟨hq, hacc, c, _, l, l', hattempt.localCounterexample_eq hq, hattempt.learner,
          hattempt.close, Bool.not_eq_false _ ▸ hstill⟩
      have hlt := hattempt.length_base_lt hT hs hacc hrej
      refine ⟨true, s.withLearner c l', ?_,
        advances_withLearner hs hattempt.learner hattempt.learns hattempt.grows hlt, fun _ => rfl⟩
      have hne : 0 < q.word.length := List.length_pos_of_ne_nil (System.ne_nil_of_rejected hw)
      rw [resolveBudget_eq, ← Nat.sub_add_cancel hne]
      exact hattempt.resolve_eq hT hq hs hacc hrej _
  obtain ⟨b₁, s₁, h₁, hadvances₁, hno₁⟩ := hresolve
  obtain ⟨b₂, s₂, h₂, hadvances₂, _⟩ :=
    repairAll_spec T.oracle_eq hT hlimit hadvances₁.sound s₁.discovered
  refine ⟨b₁ || b₂, s₂, ?_, hadvances₁.trans hadvances₂, fun hno => ?_⟩
  · rw [refine_eq_of_rejected hw hq, h₁]
    change (repairAll T.oracle s₁.discovered s₁ >>= _) = _
    rw [h₂]
    rfl
  · rw [hno₁ hno]
    rfl

/-- The refinement with a misattributed word does not resolve it. -/
theorem Misattributes.exists_attempt (h : s.Misattributes T q) (hs : s.Sound T limit)
    (hw : T.accepts q.word = false) : ∃ c v l l', Attempt T limit T.oracle s q c v l l' ∧
      (s.withLearner c l').hypothesis.accepts q.word = true := by
  obtain ⟨hq, hacc, c, v, l, l', hlocal, hl, hclose, hstill⟩ := h
  obtain ⟨d, u, k, k', hattempt⟩ := Session.exists_attempt hT hw hq T.oracle_eq hlimit hs hacc
  cases hlocal.symm.trans (hattempt.localCounterexample_eq hq)
  cases hl.symm.trans hattempt.learner
  cases Except.ok.inj (Except.ok.inj (hclose.symm.trans hattempt.close))
  exact ⟨c, u, l, l', hattempt, hstill⟩

/-- Learning from a misattributed word fails. -/
theorem refine_eq_error (hs : s.Sound T limit) (hw : T.accepts q.word = false)
    (h : s.Misattributes T q) : ∃ c v, s.refine T.oracle (firstTable limit) q =
      .error (.unusedCounterexample c ⟨v, false⟩) := by
  obtain ⟨c, u, l, l', hattempt, hstill⟩ := h.exists_attempt hT hlimit hs hw
  obtain ⟨hq, hacc, _⟩ := h
  have herror := resolve_eq_error T.oracle_eq hT hlimit hw hq hattempt hs hacc hstill
    (s.resolveBudget q)
  refine ⟨c, u, (refine_eq_of_rejected hw hq).trans ?_⟩
  rw [herror]
  rfl

/-- A rejected word is not misattributed if only its last symbol makes the system reject. -/
theorem not_misattributes (hs : s.Sound T limit) (hw : T.accepts q.word = false)
    (hbefore : T.accepts q.word.dropLast = true) : ¬ s.Misattributes T q := by
  intro h
  obtain ⟨c, v, l, l', hattempt, hstill⟩ := h.exists_attempt hT hlimit hs hw
  rw [hattempt.accepts_eq_false hT hw hs h.2.1 hbefore] at hstill
  cases hstill

/-- What a truthful word does to a session that does not misattribute it. -/
theorem refine_spec (hs : s.Sound T limit) (hc : s.Complete) (hq : q.accepted = T.accepts q.word)
    (h : ¬ s.Misattributes T q) :
    ∃ b s', s.refine T.oracle (firstTable limit) q = .ok (b, s') ∧ s.Advances T limit b s' ∧
      (s.agrees q = false → b = true) := by
  cases hw : T.accepts q.word with
  | true => exact refine_accepted hT hlimit hs hc hw (hq.trans hw)
  | false => exact refine_rejected hT hlimit hs hw (hq.trans hw) h

/-- Learning from a truthful word fails exactly if the word is misattributed. The system rejects then
already in front of the last symbol. -/
theorem refine_eq_error_iff {preference : Preference} (hs : Reachable T limit preference s)
    (hq : q.accepted = T.accepts q.word) :
    ((∃ e, s.refine T.oracle (firstTable limit) q = .error e) ↔ s.Misattributes T q) ∧
      (s.Misattributes T q → T.accepts q.word.dropLast = false) := by
  obtain ⟨hsound, hcomplete⟩ := hs.sound
  refine ⟨⟨?_, ?_⟩, ?_⟩
  · intro h
    obtain ⟨e, he⟩ := h
    by_contra hmis
    obtain ⟨b, r, hr, _⟩ := refine_spec hT hlimit hsound hcomplete hq hmis
    rw [he] at hr
    cases hr
  · intro hmis
    obtain ⟨c, v, herror⟩ := refine_eq_error hT hlimit hsound (hq.symm.trans hmis.1) hmis
    exact ⟨_, herror⟩
  · intro hmis
    by_contra hbefore
    rw [Bool.not_eq_false] at hbefore
    exact not_misattributes hT hlimit hsound (hq.symm.trans hmis.1) hbefore hmis

/-- The procedure of `S` reads an `a` at most before it calls `T`, and that of `T` reads every `b`. -/
def onceSystem : System Char Char where
  alphabet := ⟨['a', 'b'], ['S', 'T'], 'R', by decide⟩
  initialCall := some 'S'
  procedures := .ofList [
    ('S', {
      states := #[⟨true, .ofList [('a', 1), ('T', 1)]⟩, ⟨true, .ofList [('T', 1)]⟩]
      start := some 0
      target_lt := by decide
      start_lt := by decide }),
    ('T', {
      states := #[⟨true, .ofList [('b', 0)]⟩]
      start := some 0
      target_lt := by decide
      start_lt := by decide })]
  read := some

omit hT hlimit in
/-- The system rejects the word because of the second `a`, but the procedure of `T` is blamed. -/
theorem exists_reachable_refine_eq_error : ∃ s, Reachable onceSystem 4 .first s ∧
    s.refine onceSystem.oracle (firstTable 4) ⟨['S', 'a', 'a', 'T', 'b'], false⟩ =
      .error (.unusedCounterexample 'T' ⟨[.internal 'b'], false⟩) := by
  have hfirst : ((start onceSystem.alphabet .first : TableSession Char).refine onceSystem.oracle
      (firstTable 4) ⟨['S', 'T', 'b'], true⟩).isOk = true := by decide +kernel
  have hsecond : ((start onceSystem.alphabet .first : TableSession Char).refine onceSystem.oracle
      (firstTable 4) ⟨['S', 'T', 'b'], true⟩ >>= fun r =>
        (r.2.refine onceSystem.oracle (firstTable 4) ⟨['S', 'a', 'a', 'T', 'b'], false⟩).map
          Prod.fst) = .error (.unusedCounterexample 'T' ⟨[.internal 'b'], false⟩) := by
    decide +kernel
  cases h : (start onceSystem.alphabet .first : TableSession Char).refine onceSystem.oracle
      (firstTable 4) ⟨['S', 'T', 'b'], true⟩ with
  | error e =>
    rw [h] at hfirst
    cases hfirst
  | ok r =>
    refine ⟨r.2, .refine .start rfl h, ?_⟩
    rw [h] at hsecond
    change (r.2.refine onceSystem.oracle (firstTable 4) _).map Prod.fst = _ at hsecond
    cases h' : r.2.refine onceSystem.oracle (firstTable 4) ⟨['S', 'a', 'a', 'T', 'b'], false⟩ with
    | error e =>
      rw [h'] at hsecond
      rw [Except.error.inj hsecond]
    | ok r' =>
      rw [h'] at hsecond
      cases hsecond

omit hT hlimit in
theorem misattributes_onceSystem : ∃ s, Reachable onceSystem 4 .first s ∧
    s.Misattributes onceSystem ⟨['S', 'a', 'a', 'T', 'b'], false⟩ ∧
    onceSystem.accepts ['S', 'a', 'a', 'T'] = false := by
  have hT : onceSystem.EntriesAccept := by decide
  have hlimit : LimitSuffices onceSystem 4 := by decide
  obtain ⟨s, hs, herror⟩ := exists_reachable_refine_eq_error
  obtain ⟨hiff, hbefore⟩ :=
    refine_eq_error_iff (q := ⟨['S', 'a', 'a', 'T', 'b'], false⟩) hT hlimit hs rfl
  have hmis := hiff.1 ⟨_, herror⟩
  exact ⟨s, hs, hmis, hbefore hmis⟩

omit hT hlimit in
/-- Learning fails on a truthful word, although all procedures start in accepting states and the tables
have room for their states. -/
theorem refine_onceSystem_eq_error : onceSystem.EntriesAccept ∧ LimitSuffices onceSystem 4 ∧
    onceSystem.accepts ['S', 'a', 'a', 'T', 'b'] = false ∧
    ∃ s, Reachable onceSystem 4 .first s ∧
      ∃ e, s.refine onceSystem.oracle (firstTable 4) ⟨['S', 'a', 'a', 'T', 'b'], false⟩ =
        .error e := by
  obtain ⟨s, hs, herror⟩ := exists_reachable_refine_eq_error
  exact ⟨by decide, by decide, by decide, s, hs, _, herror⟩

end Session

end BehavioralAutomata
