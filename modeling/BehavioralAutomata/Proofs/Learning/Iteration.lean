import BehavioralAutomata.Proofs.Learning.Repair
import BehavioralAutomata.Proofs.Loops

/-!
# The rounds of learning

The loops of learning go on until their own test ends them. A budget only adds that they fail when it is
used up.

* `Session.resolveStep`, `Session.repairStep`: one round, without a budget.
* `Session.ResolveRound`, `Session.RepairRound`: all that a round can do.
* `Session.resolve_succ`, `Session.repair_succ`: the loops with budgets consist of these rounds.
-/

namespace BehavioralAutomata.Session

variable {α : Type} [DecidableEq α]

section

variable (ask : List α → Except (LearningError α) Bool)

/-- One round of resolving a word: a refinement, unless the hypothesis agrees with the word. -/
def resolveStep (q : LabelledWord α) (s : TableSession α) :
    TableSession α ⊕ Except (LearningError α) (TableSession α) :=
  if s.agrees q then .inr (.ok s)
  else match s.refineLocal ask q with
    | .ok s' => .inl s'
    | .error e => .inr (.error e)

/-- One round of repairing a procedure: a refinement, unless it does not go on behind a return. -/
def repairStep (c : α) (s : TableSession α) :
    TableSession α ⊕ Except (LearningError α) (TableSession α) :=
  match s.learners.get? c with
  | none => .inr (.ok s)
  | some l =>
    match LocalLearner.violation? l with
    | none => .inr (.ok s)
    | some v =>
      match LocalLearning.refine (s.store.askLocal ask c) v l with
      | .error e => .inr (.error e)
      | .ok (used, l') => if used then .inl (s.withLearner c l') else .inr (.error (.unrepaired c))

/-- All that a round of resolving a word can do. -/
inductive ResolveRound (q : LabelledWord α) (s : TableSession α) :
    TableSession α ⊕ Except (LearningError α) (TableSession α) → Prop where
  | agrees : s.agrees q = true → ResolveRound q s (.inr (.ok s))
  | refined {s' : TableSession α} :
      s.agrees q = false → s.refineLocal ask q = .ok s' → ResolveRound q s (.inl s')
  | failed {e : LearningError α} :
      s.agrees q = false → s.refineLocal ask q = .error e → ResolveRound q s (.inr (.error e))

/-- All that a round of repairing a procedure can do. -/
inductive RepairRound (c : α) (s : TableSession α) :
    TableSession α ⊕ Except (LearningError α) (TableSession α) → Prop where
  | closed : s.violation? c = none → RepairRound c s (.inr (.ok s))
  | refined {l l' : ObservationTable (LocalSymbol α)} {v : LabelledWord (LocalSymbol α)} :
      s.learners.get? c = some l → LocalLearner.violation? l = some v →
      LocalLearning.refine (s.store.askLocal ask c) v l = Except.ok (true, l') →
      RepairRound c s (.inl (s.withLearner c l'))
  | unused {l l' : ObservationTable (LocalSymbol α)} {v : LabelledWord (LocalSymbol α)} :
      s.learners.get? c = some l → LocalLearner.violation? l = some v →
      LocalLearning.refine (s.store.askLocal ask c) v l = Except.ok (false, l') →
      RepairRound c s (.inr (.error (.unrepaired c)))
  | failed {l : ObservationTable (LocalSymbol α)} {v : LabelledWord (LocalSymbol α)}
      {e : LearningError α} :
      s.learners.get? c = some l → LocalLearner.violation? l = some v →
      LocalLearning.refine (s.store.askLocal ask c) v l = Except.error e →
      RepairRound c s (.inr (.error e))

theorem resolveRound (q : LabelledWord α) (s : TableSession α) :
    ResolveRound ask q s (resolveStep ask q s) := by
  rw [resolveStep]
  cases hagrees : s.agrees q with
  | true => exact .agrees hagrees
  | false =>
    rw [if_neg Bool.false_ne_true]
    cases hrefine : s.refineLocal ask q with
    | ok s' => exact .refined hagrees hrefine
    | error e => exact .failed hagrees hrefine

theorem repairRound (c : α) (s : TableSession α) : RepairRound ask c s (repairStep ask c s) := by
  rw [repairStep]
  cases hl : s.learners.get? c with
  | none => exact .closed (by rw [violation?, hl, Option.bind_none])
  | some l =>
    cases hv : LocalLearner.violation? l with
    | none =>
      simp only [hv]
      exact .closed ((violation?_eq hl).trans hv)
    | some v =>
      simp only [hv]
      cases hrefine : LocalLearning.refine (s.store.askLocal ask c) v l with
      | error e => exact .failed hl hv hrefine
      | ok r =>
        obtain ⟨used, l'⟩ := r
        cases used with
        | true => exact .refined hl hv hrefine
        | false => exact .unused hl hv hrefine

end

variable {ask : List α → Except (LearningError α) Bool} {q : LabelledWord α} {c : α}
  {s s' : TableSession α}

theorem resolveRound_of_eq {r : TableSession α ⊕ Except (LearningError α) (TableSession α)}
    (h : resolveStep ask q s = r) : ResolveRound ask q s r :=
  h ▸ resolveRound ask q s

theorem repairRound_of_eq {r : TableSession α ⊕ Except (LearningError α) (TableSession α)}
    (h : repairStep ask c s = r) : RepairRound ask c s r :=
  h ▸ repairRound ask c s

theorem resolveStep_of_agrees (h : s.agrees q = true) : resolveStep ask q s = .inr (.ok s) := by
  rw [resolveStep, if_pos h]

theorem exists_of_resolveStep (h : resolveStep ask q s = .inl s') :
    s.agrees q = false ∧ s.refineLocal ask q = .ok s' := by
  cases resolveRound_of_eq h with
  | refined hno hrefine => exact ⟨hno, hrefine⟩

theorem eq_of_resolveStep (h : resolveStep ask q s = .inr (.ok s')) : s' = s := by
  cases resolveRound_of_eq h with
  | agrees => rfl

theorem repairStep_of_violation? (h : s.violation? c = none) : repairStep ask c s = .inr (.ok s) := by
  generalize hr : repairStep ask c s = r
  cases repairRound_of_eq hr with
  | closed => rfl
  | refined hl hv | unused hl hv | failed hl hv =>
    rw [violation?_eq hl, hv] at h
    cases h

theorem exists_of_repairStep (h : repairStep ask c s = .inl s') :
    ∃ l v l', s.learners.get? c = some l ∧ LocalLearner.violation? l = some v ∧
      LocalLearning.refine (s.store.askLocal ask c) v l = Except.ok (true, l') ∧
      s' = s.withLearner c l' := by
  cases repairRound_of_eq h with
  | refined hl hv hrefine => exact ⟨_, _, _, hl, hv, hrefine, rfl⟩

theorem eq_of_repairStep (h : repairStep ask c s = .inr (.ok s')) : s' = s := by
  cases repairRound_of_eq h with
  | closed => rfl

/-! ## Loops with budgets -/

/-- With a budget the loop does the same first round. -/
theorem resolve_succ (n : Nat) (s : TableSession α) :
    (resolve ask q (n + 1) s).map Prod.snd =
      (resolveStep ask q s).elim (fun s' => (resolve ask q n s').map Prod.snd) id := by
  rw [resolve, resolveStep]
  split
  · rfl
  · cases s.refineLocal ask q with
    | error e => rfl
    | ok s' =>
      change (resolve ask q n s' >>= _).map Prod.snd = (resolve ask q n s').map Prod.snd
      cases resolve ask q n s' <;> rfl

theorem repair_succ (n : Nat) (s : TableSession α) :
    (repair ask c (n + 1) s).map Prod.snd =
      (repairStep ask c s).elim (fun s' => (repair ask c n s').map Prod.snd) id := by
  rw [repair, repairStep]
  cases s.learners.get? c with
  | none => rfl
  | some l =>
    cases hv : LocalLearner.violation? l with
    | none =>
      simp only [hv]
      rfl
    | some v =>
      simp only [hv]
      cases LocalLearning.refine (s.store.askLocal ask c) v l with
      | error e => rfl
      | ok r =>
        obtain ⟨used, l'⟩ := r
        cases used with
        | false => rfl
        | true =>
          change (repair ask c n (s.withLearner c l') >>= _).map Prod.snd =
            (repair ask c n (s.withLearner c l')).map Prod.snd
          cases repair ask c n (s.withLearner c l') <;> rfl

/-- Without a budget the loop only tests. -/
theorem resolve_zero_cases (ask : List α → Except (LearningError α) Bool) (q : LabelledWord α)
    (s : TableSession α) : (resolve ask q 0 s).map Prod.snd = .ok s ∨
      ∃ e, (resolve ask q 0 s).map Prod.snd = .error e ∧
        (s.localCounterexample q = .error e ∨ ∃ c v, e = .unusedCounterexample c v) := by
  rw [resolve]
  split
  · exact .inl rfl
  · cases hlocal : s.localCounterexample q with
    | error e => exact .inr ⟨e, rfl, .inl rfl⟩
    | ok r => exact .inr ⟨_, rfl, .inr ⟨r.1, r.2, rfl⟩⟩

theorem repair_zero_cases (ask : List α → Except (LearningError α) Bool) (c : α)
    (s : TableSession α) : (repair ask c 0 s).map Prod.snd = .ok s ∨
      (repair ask c 0 s).map Prod.snd = .error (.unrepaired c) := by
  rw [repair]
  cases s.violation? c with
  | none => exact .inl rfl
  | some v => exact .inr rfl

end BehavioralAutomata.Session
