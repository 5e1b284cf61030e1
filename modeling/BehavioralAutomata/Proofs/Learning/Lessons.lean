import BehavioralAutomata.Learning.Lesson
import BehavioralAutomata.Proofs.Learning.Refinement
import BehavioralAutomata.Proofs.Separation.Completeness
import Mathlib.Algebra.Order.BigOperators.Group.List
import Mathlib.Algebra.Order.Ring.Nat

/-!
# Lessons come to an end

* `Session.progress`: counts usable calls, learners and their base words. It grows with everything that
  a session learns, and it is bounded.
* `Session.lesson_spec`: a lesson does not fail, and every round adds to the progress.
* `Session.lesson_learns`: a lesson that may take enough rounds ends with a hypothesis that accepts the
  words of the target.
-/

namespace BehavioralAutomata.Session

variable {α : Type} {β : Type} [DecidableEq α] [DecidableEq β] {T : System α β} {limit : Nat}
  {s s' : TableSession α}

/-! ## Progress -/

instance (s : TableSession α) (c : α) : Decidable (s.Usable c) :=
  inferInstanceAs (Decidable (s.localAlphabet.get? c = some (.call c true)))

/-- How much is known of the procedure of a call. -/
def progressOf (s : TableSession α) (c : α) : Nat :=
  ((s.learners.get? c).elim 0 fun l => l.base.length + 1) + if s.Usable c then 1 else 0

/-- How much is known of all procedures. -/
def progress (s : TableSession α) : Nat := (s.alphabet.calls.map s.progressOf).sum

/-- The largest progress that is possible. -/
def progressBound (A : Alphabet α) (limit : Nat) : Nat := A.calls.length * (limit + 2)

theorem Grows.learned_le (h : s.Grows s') (c : α) :
    (s.learners.get? c).elim 0 (fun l => l.base.length + 1) ≤
      (s'.learners.get? c).elim 0 fun l => l.base.length + 1 := by
  cases hl : s.learners.get? c with
  | none => exact Nat.zero_le _
  | some l =>
    obtain ⟨l', hl', hgrows⟩ := h.learners c l hl
    rw [hl']
    exact Nat.succ_le_succ hgrows.base.length_le

theorem Grows.usable_le (h : s.Grows s') (c : α) :
    (if s.Usable c then 1 else 0) ≤ if s'.Usable c then 1 else 0 := by
  by_cases hc : s.Usable c
  · rw [if_pos hc, if_pos (h.usable c hc)]
  · rw [if_neg hc]
    exact Nat.zero_le _

theorem Grows.progressOf_le (h : s.Grows s') (c : α) : s.progressOf c ≤ s'.progressOf c :=
  Nat.add_le_add (h.learned_le c) (h.usable_le c)

/-- What is gained belongs to a call of the alphabet, and counts. -/
theorem Gains.exists_progressOf_lt (h : s.Gains s') (hgrows : s.Grows s')
    (hs' : s'.Sound T limit) : ∃ c ∈ T.alphabet.calls, s.progressOf c < s'.progressOf c := by
  have isCall : ∀ c l, s'.learners.get? c = some l → c ∈ T.alphabet.calls := fun c l hl =>
    Alphabet.kind?_eq_call_iff.1 (hs'.store.entry (hs'.learns c l hl).access).1
  cases h with
  | usable c before after =>
    obtain ⟨t, ht⟩ := AssocMap.mem_keys_iff.1 (hs'.usable c after)
    refine ⟨c, Alphabet.kind?_eq_call_iff.1 (hs'.store.terminating c t ht).1, ?_⟩
    have hle := hgrows.learned_le c
    rw [progressOf, progressOf, if_neg before, if_pos after]
    omega
  | learner c before after =>
    obtain ⟨l, hl⟩ := AssocMap.mem_keys_iff.1 after
    refine ⟨c, isCall c l hl, ?_⟩
    have hle := hgrows.usable_le c
    rw [progressOf, progressOf, AssocMap.get?_eq_none_iff.2 before, hl]
    simp only [Option.elim_none, Option.elim_some]
    omega
  | @base c l l' before after lt =>
    refine ⟨c, isCall c l' after, ?_⟩
    have hle := hgrows.usable_le c
    rw [progressOf, progressOf, before, after]
    simp only [Option.elim_some]
    omega

theorem Grows.progress_le (h : s.Grows s') (hs : s.Sound T limit) (hs' : s'.Sound T limit) :
    s.progress ≤ s'.progress := by
  rw [progress, progress, hs.alphabet, hs'.alphabet]
  exact List.sum_le_sum fun c _ => h.progressOf_le c

theorem Gains.progress_lt (h : s.Gains s') (hgrows : s.Grows s') (hs : s.Sound T limit)
    (hs' : s'.Sound T limit) : s.progress < s'.progress := by
  rw [progress, progress, hs.alphabet, hs'.alphabet]
  exact List.sum_lt_sum s.progressOf s'.progressOf (fun c _ => hgrows.progressOf_le c)
    (h.exists_progressOf_lt hgrows hs')

theorem Advances.progress_lt (h : s.Advances T limit true s') (hs : s.Sound T limit) :
    s.progress < s'.progress :=
  (h.gains rfl).progress_lt h.grows hs h.sound

/-- A table has no more base words than its procedure tells words apart. -/
theorem Sound.progress_le (hs : s.Sound T limit) (hT : T.EntriesAccept)
    (hlimit : LimitSuffices T limit) : s.progress ≤ progressBound T.alphabet limit := by
  have hle : ∀ n ∈ T.alphabet.calls.map s.progressOf, n ≤ limit + 2 := by
    intro n hn
    obtain ⟨c, _, rfl⟩ := List.mem_map.1 hn
    have husable : (if s.Usable c then 1 else 0) ≤ 1 := by split <;> omega
    rw [progressOf]
    cases hl : s.learners.get? c with
    | none =>
      rw [Option.elim_none]
      omega
    | some l =>
      have hlearns := hs.learns c l hl
      have hbase := hlearns.closed.length_base_le (hlimit.bounded hT hs.store hlearns.access)
      rw [Option.elim_some]
      omega
  have hsum := List.sum_le_card_nsmul _ _ hle
  rw [List.length_map, nsmul_eq_mul] at hsum
  rw [progress, progressBound, hs.alphabet]
  exact hsum

/-! ## Rounds -/

variable (hT : T.EntriesAccept) (hlimit : LimitSuffices T limit)

include hT hlimit

/-- A counterexample is used as often as it changes something, and at least once if the hypothesis is
wrong about it. -/
theorem refineRepeatedly_spec {q : LabelledWord α} (hq : q.accepted = T.accepts q.word)
    (hbefore : T.accepts q.word.dropLast = true) (hs : s.Sound T limit) (hc : s.Complete) (n : Nat) :
    ∃ k s', refineRepeatedly T.oracle (firstTable limit) q n s = .ok (k, s') ∧
      s.Advances T limit (k != 0) s' ∧ (s.agrees q = false → n ≠ 0 → k ≠ 0) := by
  induction n generalizing s with
  | zero => exact ⟨0, s, rfl, .refl hs, fun _ h => absurd rfl h⟩
  | succ n ih =>
    have hmis : ¬ s.Misattributes T q := fun h =>
      not_misattributes hT hlimit hs (hq.symm.trans h.1) hbefore h
    obtain ⟨b, s₁, h₁, hadvances₁, hno⟩ := refine_spec hT hlimit hs hc hq hmis
    cases b with
    | false =>
      refine ⟨0, s₁, ?_, hadvances₁, fun h => ?_⟩
      · rw [refineRepeatedly, h₁]
        rfl
      · cases hno h
    | true =>
      obtain ⟨k, s₂, h₂, hadvances₂, _⟩ := ih hadvances₁.sound (hadvances₁.complete hc)
      refine ⟨k + 1, s₂, ?_, hadvances₁.trans hadvances₂, fun _ _ => Nat.succ_ne_zero k⟩
      rw [refineRepeatedly, h₁]
      change (refineRepeatedly T.oracle (firstTable limit) q n s₁ >>= _) = _
      rw [h₂]
      rfl

omit hlimit in
/-- The hypothesis is wrong about a counterexample, and the system accepts it without its last symbol. -/
theorem counterexample_spec (hs : s.Sound T limit) {w : List α}
    (hx : separatingWord? T s.hypothesis.toSystem = some w) :
    s.agrees ⟨w, T.accepts w⟩ = false ∧ T.accepts w.dropLast = true := by
  have hsep := separates_of_separatingWord? hs.alphabet_hypothesis.symm hx
  have hpos : 0 < w.length := by
    apply List.length_pos_of_ne_nil
    rintro rfl
    exact hsep.differ rfl
  have hshorter : w.dropLast ≠ w := by
    intro heq
    have hlen := congrArg List.length heq
    rw [List.length_dropLast] at hlen
    omega
  refine ⟨?_, (hsep.accepts_prefix hT (hs.entriesAccept hT) (List.dropLast_prefix w) hshorter).1⟩
  rw [agrees, decide_eq_false_iff_not]
  exact fun h => hsep.differ h.symm

/-- A lesson does not fail. Every round adds to the progress, and a lesson ends early only because there
are no counterexamples. -/
theorem lesson_spec (hs : s.Sound T limit) (hc : s.Complete) {times : Nat} (ht : times ≠ 0)
    (n : Nat) :
    ∃ rounds done s', lesson T.oracle (firstTable limit) T times n s = .ok ((rounds, done), s') ∧
      s'.Sound T limit ∧ s.progress + rounds.length ≤ s'.progress ∧
      (done = true → ∀ w, s'.hypothesis.accepts w = T.accepts w) ∧
      (done = false → rounds.length = n) := by
  induction n generalizing s with
  | zero => exact ⟨[], false, s, rfl, hs, Nat.le_refl _, by rintro ⟨⟩, fun _ => rfl⟩
  | succ n ih =>
    cases hx : separatingWord? T s.hypothesis.toSystem with
    | none =>
      refine ⟨[], true, s, ?_, hs, Nat.le_refl _, fun _ w => ?_, by rintro ⟨⟩⟩
      · rw [lesson, counterexample?, hx]
        rfl
      · exact (accepts_eq_of_separatingWord? hs.alphabet_hypothesis.symm hx w).symm
    | some w =>
      obtain ⟨hno, hbefore⟩ := counterexample_spec hT hs hx
      obtain ⟨k, s₁, h₁, hadvances, hused⟩ :=
        refineRepeatedly_spec hT hlimit (q := ⟨w, T.accepts w⟩) rfl hbefore hs hc times
      have hk := hused hno ht
      obtain ⟨rounds, done, s₂, h₂, hs₂, hprogress, hdone, hlength⟩ :=
        ih hadvances.sound (hadvances.complete hc)
      rw [bne_iff_ne.2 hk] at hadvances
      have hlt := hadvances.progress_lt hs
      refine ⟨⟨⟨w, T.accepts w⟩, k, s₁.hypothesis.size⟩ :: rounds, done, s₂, ?_, hs₂, ?_, hdone,
        fun h => ?_⟩
      · rw [lesson, counterexample?, hx]
        change (refineRepeatedly T.oracle (firstTable limit) ⟨w, T.accepts w⟩ times s >>= _) = _
        rw [h₁]
        change (if k = 0 then _ else _) = _
        rw [if_neg hk]
        rw [h₂]
        rfl
      · rw [List.length_cons]
        omega
      · rw [List.length_cons, hlength h]

/-- A lesson that starts from nothing does not fail, however many rounds it may take and whichever
sequences the session prefers. It uses no more counterexamples than there can be progress. If it may
take more rounds than that, none is left, and the hypothesis accepts the words of the target. -/
theorem lesson_learns (preference : Preference) (n : Nat) :
    ∃ rounds done s, lesson T.oracle (firstTable limit) T 1 n (start T.alphabet preference) =
        .ok ((rounds, done), s) ∧
      rounds.length ≤ progressBound T.alphabet limit ∧
      (progressBound T.alphabet limit < n → done = true) ∧
      (done = true → ∀ w, s.hypothesis.accepts w = T.accepts w) := by
  have hs := sound_start T limit preference
  have hc := complete_start T.alphabet preference
  obtain ⟨rounds, done, s, h, hs', hprogress, hdone, hlength⟩ :=
    lesson_spec hT hlimit hs hc Nat.one_ne_zero n
  have hle := hs'.progress_le hT hlimit
  refine ⟨rounds, done, s, h, by omega, fun hn => ?_, hdone⟩
  by_contra hnot
  have hlen := hlength (Bool.not_eq_true _ ▸ hnot)
  omega

omit hT hlimit in
theorem lesson_onceSystem : ∃ rounds s,
    lesson onceSystem.oracle (firstTable 4) onceSystem 1 13 (start onceSystem.alphabet .shortest) =
      .ok ((rounds, true), s) ∧
    rounds.length ≤ 12 ∧ ∀ w, s.hypothesis.accepts w = onceSystem.accepts w := by
  have hT : onceSystem.EntriesAccept := by decide
  have hlimit : LimitSuffices onceSystem 4 := by decide
  obtain ⟨rounds, done, s, h, hle, hdone, hagree⟩ := lesson_learns hT hlimit .shortest 13
  obtain rfl := hdone (by decide)
  exact ⟨rounds, s, h, hle, hagree rfl⟩

end BehavioralAutomata.Session
