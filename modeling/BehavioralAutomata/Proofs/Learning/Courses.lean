import BehavioralAutomata.Proofs.Learning.Budgets
import BehavioralAutomata.Proofs.Learning.Equipment
import Mathlib.Algebra.Order.BigOperators.Group.List
import Mathlib.Algebra.Order.Ring.Nat

/-!
# How many refinements succeed

Every refinement that succeeds adds a state to the hypothesis of a procedure. What happens in between does
not take states away, although learners get further symbols and sequences are replaced, and a procedure
can not tell more local words apart than it has accepting states, and two more.

* `Session.Course`: a truthful session and the number of its refinements, also in the middle of learning
  from a word.
* `Session.Course.counted`: that number is at most the number of states that were found.
* `Session.Reachable.refinements_bounded`: so there is a bound on it, which only the system determines.
-/

namespace BehavioralAutomata

open Relation (ReflTransGen)

variable {α : Type} {β : Type} [DecidableEq α] [DecidableEq β] {T : System α β} {limit : Nat}

/-- One refinement for every accepting state of a procedure, and one more for each procedure. -/
def System.refinementBound {α β : Type} (T : System α β) : Nat :=
  (T.procedures.values.map fun A => A.acceptingCount + 1).sum

namespace Session

variable {n : Nat} {s s' : TableSession α} {q : LabelledWord α} {c : α}
  {l l' : ObservationTable (LocalSymbol α)}

/-! ## States that were found -/

/-- The number of states of the hypothesis of a procedure, without the one that it starts in. -/
def furtherStatesOf (s : TableSession α) (c : α) : Nat :=
  (s.learners.get? c).elim 0 fun l => l.base.length - 1

def furtherStates (T : System α β) (s : TableSession α) : Nat :=
  (T.procedures.keys.map s.furtherStatesOf).sum

theorem Grows.furtherStatesOf_le (h : s.Grows s') (c : α) :
    s.furtherStatesOf c ≤ s'.furtherStatesOf c := by
  rw [furtherStatesOf, furtherStatesOf]
  cases hl : s.learners.get? c with
  | none => exact Nat.zero_le _
  | some l =>
    obtain ⟨l', hl', hgrows⟩ := h.learners c l hl
    rw [hl']
    exact Nat.sub_le_sub_right hgrows.base.length_le 1

omit [DecidableEq β] in
theorem Grows.furtherStates_le (h : s.Grows s') : s.furtherStates T ≤ s'.furtherStates T :=
  List.sum_le_sum fun c _ => h.furtherStatesOf_le c

/-- A learner that changes has found a state. -/
theorem Sound.furtherStates_lt (hs : s.Sound T limit) (hl : s.learners.get? c = some l)
    (hgrows : l.Grows l') (hlt : l.base.length < l'.base.length) :
    s.furtherStates T < (s.withLearner c l').furtherStates T := by
  have hle := (adapts_withLearner hl hgrows).toGrows.furtherStatesOf_le
  have hlearns := hs.learns c l hl
  have hpos := List.length_pos_of_mem (List.mem_of_mem_head? hlearns.closed.base_head)
  refine List.sum_lt_sum _ _ (fun d _ => hle d) ⟨c, ?_, ?_⟩
  · exact AssocMap.mem_keys_iff.2 (hs.store.exists_procedure hlearns.access)
  · rw [furtherStatesOf, furtherStatesOf, hl, get?_withLearner, if_pos rfl]
    simp only [Option.elim_some]
    omega

/-- A hypothesis has no more states than its procedure has local states. -/
theorem Sound.size_hypothesis_le (hs : s.Sound T limit) (hT : T.EntriesAccept)
    (hl : s.learners.get? c = some l) {A : Acceptor β} (hA : T.procedures.get? c = some A) :
    l.hypothesis.size ≤ A.acceptingCount + 2 := by
  have hclosed := (hs.learns c l hl).closed
  rw [hclosed.size_hypothesis]
  exact hclosed.length_base_le (System.bounded_localLanguage hT hA)

theorem Sound.furtherStates_le_bound (hs : s.Sound T limit) (hT : T.EntriesAccept) :
    s.furtherStates T ≤ T.refinementBound := by
  rw [furtherStates, System.refinementBound, AssocMap.keys, AssocMap.values, List.map_map, List.map_map]
  apply List.sum_le_sum
  rintro ⟨c, A⟩ he
  have hA : T.procedures.get? c = some A := AssocMap.get?_eq_some_iff.2 he
  change s.furtherStatesOf c ≤ A.acceptingCount + 1
  rw [furtherStatesOf]
  cases hl : s.learners.get? c with
  | none => exact Nat.zero_le _
  | some l =>
    have hle := hs.size_hypothesis_le hT hl hA
    rw [(hs.learns c l hl).closed.size_hypothesis] at hle
    rw [Option.elim_some]
    omega

/-! ## Courses -/

/-- The sessions that learning from truthful words goes through, with the number of the refinements that
have succeeded so far. -/
inductive Course (T : System α β) (limit : Nat) (preference : Preference) :
    Nat → TableSession α → Prop where
  | start : Course T limit preference 0 (start T.alphabet preference)
  /-- What the word shows of the procedures is taken. -/
  | extract {n : Nat} {s s' : TableSession α} {q : LabelledWord α} {b : Bool} :
      Course T limit preference n s → q.accepted = T.accepts q.word → q.word ≠ [] →
      s.extract T.oracle (firstTable limit) q = .ok (b, s') → Course T limit preference n s'
  /-- A learner is refined, because the hypothesis does not agree with the word. -/
  | resolve {n : Nat} {s s' : TableSession α} {q : LabelledWord α} :
      Course T limit preference n s → q.accepted = T.accepts q.word →
      resolveStep T.oracle q s = .inl s' → Course T limit preference (n + 1) s'
  /-- A learner is refined, because its hypothesis goes on behind a return. -/
  | repair {n : Nat} {s s' : TableSession α} {c : α} :
      Course T limit preference n s → repairStep T.oracle c s = .inl s' →
      Course T limit preference (n + 1) s'

/-- What is known of a session in which `n` refinements have succeeded. -/
structure Counted (T : System α β) (limit n : Nat) (s : TableSession α) : Prop where
  sound : s.Sound T limit
  initialCall : s.KnowsInitialCall T
  outstanding : s.Outstanding [] []
  equipped : s.Equipped
  count_le : n ≤ s.furtherStates T

namespace Counted

theorem start (T : System α β) (limit : Nat) (preference : Preference) :
    Counted T limit 0 (start T.alphabet preference) where
  sound := sound_start T limit preference
  initialCall h := absurd rfl h
  outstanding := outstanding_start T.alphabet preference
  equipped := equipped_start T.alphabet preference
  count_le := Nat.zero_le _

/-- Changes of the alphabets and of the sequences lose no state. -/
theorem extract (h : Counted T limit n s) (hq : q.accepted = T.accepts q.word) (hne : q.word ≠ [])
    {b : Bool} (hextract : s.extract T.oracle (firstTable limit) q = .ok (b, s')) :
    Counted T limit n s' := by
  obtain ⟨hsteps, hout, _⟩ := changes_of_extract h.outstanding hne hextract
  obtain ⟨hs', hi'⟩ := sound_of_changes hsteps hq h.sound h.initialCall
  obtain ⟨hequipped, hgrows⟩ := equipped_of_changes hsteps h.equipped
  exact ⟨hs', hi', hout, hequipped, h.count_le.trans hgrows.furtherStates_le⟩

/-- A refinement that succeeds is paid for by a new state. -/
theorem withLearner (h : Counted T limit n s) (hl : s.learners.get? c = some l)
    {v : LabelledWord (LocalSymbol α)} (hv : v.word ⊆ l.alphabet)
    (hrefine : LocalLearning.refine (s.store.askLocal T.oracle c) v l = Except.ok (true, l')) :
    Counted T limit (n + 1) (s.withLearner c l') := by
  obtain ⟨hlearns, hgrows, hA, hlt, _⟩ := (h.sound.learns c l hl).of_refine h.sound.store hv hrefine
  obtain ⟨hspelled, _⟩ := (h.equipped.refine_outcome hl hv).of_eq_ok hrefine
  exact {
    sound := h.sound.withLearner hl hlearns hgrows
    initialCall := h.initialCall
    outstanding := h.outstanding.withLearner hl l'
    equipped := h.equipped.withLearner hl hspelled hA
    count_le := Nat.lt_of_le_of_lt h.count_le (h.sound.furtherStates_lt hl hgrows hlt) }

end Counted

variable {preference : Preference}

theorem Course.counted (h : Course T limit preference n s) : Counted T limit n s := by
  induction h with
  | start => exact .start T limit preference
  | extract _ hq hne hextract ih => exact ih.extract hq hne hextract
  | resolve _ _ hstep ih =>
    obtain ⟨c, v, l, l', hlocal, hl, hrefine, rfl⟩ :=
      exists_of_refineLocal (exists_of_resolveStep hstep).2
    exact ih.withLearner hl (ih.sound.localCounterexample_subset hl hlocal) hrefine
  | repair _ hstep ih =>
    obtain ⟨l, v, l', hl, hv, hrefine, rfl⟩ := exists_of_repairStep hstep
    obtain ⟨x, hx⟩ := (ih.sound.learns _ l hl).violation_spec ih.sound.store hv
    exact ih.withLearner hl hx.subset hrefine

/-! ## Courses of learning from words -/

/-- The session belongs to a course. -/
def Passed (T : System α β) (limit : Nat) (preference : Preference) (s : TableSession α) : Prop :=
  ∃ n, Course T limit preference n s

theorem RepairsAll.passed {cs : List α} {r : Except (LearningError α) (TableSession α)}
    (h : RepairsAll T.oracle cs s r) (hs : Passed T limit preference s) (hr : r = .ok s') :
    Passed T limit preference s' := by
  induction h with
  | nil => exact Except.ok.inj hr ▸ hs
  | cons hstops _ ih =>
    refine ih (hstops.keeps (fun _ _ hpassed hstep => ?_) (fun _ _ => eq_of_repairStep) hs) hr
    obtain ⟨n, hn⟩ := hpassed
    exact ⟨n + 1, hn.repair hstep⟩
  | error => cases hr

theorem Refines.passed {r : Except (LearningError α) (TableSession α)}
    (h : Refines T.oracle (firstTable limit) q s r) (hq : q.accepted = T.accepts q.word)
    (hs : Passed T limit preference s) (hr : r = .ok s') : Passed T limit preference s' := by
  cases h with
  | empty => exact Except.ok.inj hr ▸ hs
  | unextracted => cases hr
  | unresolved => cases hr
  | resolved hne hextract hstops hrepairs =>
    obtain ⟨n, hn⟩ := hs
    refine hrepairs.passed ?_ hr
    refine hstops.keeps (fun _ _ hpassed hstep => ?_) (fun _ _ => eq_of_resolveStep)
      ⟨n, hn.extract hq hne hextract⟩
    obtain ⟨k, hk⟩ := hpassed
    exact ⟨k + 1, hk.resolve hq hstep⟩

theorem Reachable.passed (hT : T.EntriesAccept) (h : Reachable T limit preference s) :
    Passed T limit preference s := by
  induction h with
  | start => exact ⟨0, .start⟩
  | refine h hq hrefine ih =>
    refine (h.refines (fun hacc => hq.symm.trans hacc) hT).passed hq ih ?_
    rw [hrefine]
    rfl

/-- In a session that truthful words lead to, a hypothesis has at most two states more than its procedure
has accepting states, and none that could be left out or merged. The number of refinements that succeed
until then, or at any time, is bounded by the system, and learning from one more word ends by itself. -/
theorem Reachable.refinements_bounded (hT : T.EntriesAccept) (h : Reachable T limit preference s) :
    (∀ c l, s.learners.get? c = some l → ∃ A, T.procedures.get? c = some A ∧
      l.hypothesis.size ≤ A.acceptingCount + 2 ∧ l.hypothesis.Reduced l.alphabet) ∧
    (∃ n, Course T limit preference n s) ∧
    (∀ n s', Course T limit preference n s' → n ≤ T.refinementBound) ∧
    ∀ q : LabelledWord α, (q.accepted = true → T.accepts q.word = true) →
      Refines T.oracle (firstTable limit) q s
        ((s.refine T.oracle (firstTable limit) q).map Prod.snd) := by
  have hs := h.sound.1
  refine ⟨fun c l hl => ?_, h.passed hT, fun n s' hn => ?_, fun q hq => h.refines hq hT⟩
  · have hlearns := hs.learns c l hl
    obtain ⟨A, hA⟩ := hs.store.exists_procedure hlearns.access
    exact ⟨A, hA, hs.size_hypothesis_le hT hl hA, hlearns.closed.reduced hlearns.experiments_subset⟩
  · have hcounted := hn.counted
    exact hcounted.count_le.trans (hcounted.sound.furtherStates_le_bound hT)

/-- `S` has three accepting states and `T` has two, so that there are at most seven refinements. -/
theorem refinements_bounded_returningSystem : ∃ s s' n,
    Reachable returningSystem.toSystem 5 .first s ∧
    Course returningSystem.toSystem 5 .first n s ∧ n ≤ 7 ∧
    Refines returningSystem.oracle (firstTable 5) ⟨['S', 'T', 'b', 'R', 'R'], true⟩ s (.ok s') := by
  have hrun : (do
      let r ← (start returningSystem.alphabet .first : TableSession Char).refine
        returningSystem.oracle (firstTable 5) ⟨['S', 'T', 'b', 'R'], true⟩
      let r' ← r.2.refine returningSystem.oracle (firstTable 5) ⟨['S', 'T', 'b', 'R', 'R'], true⟩
      return r'.1 : Except (LearningError Char) Bool) = .ok true := by decide +kernel
  obtain ⟨r, hr, hrun⟩ := exists_of_bind_eq_ok hrun
  obtain ⟨r', hr', _⟩ := exists_of_bind_eq_ok hrun
  have hreachable : Reachable returningSystem.toSystem 5 .first r.2 := .refine .start rfl hr
  obtain ⟨_, ⟨n, hn⟩, hbound, hrefines⟩ := hreachable.refinements_bounded (by decide)
  have hresult := hrefines ⟨['S', 'T', 'b', 'R', 'R'], true⟩ fun _ => rfl
  rw [show r.2.refine returningSystem.toSystem.oracle (firstTable 5) _ = _ from hr'] at hresult
  exact ⟨r.2, r'.2, n, hreachable, hn, hbound n r.2 hn, hresult⟩

end Session

end BehavioralAutomata
