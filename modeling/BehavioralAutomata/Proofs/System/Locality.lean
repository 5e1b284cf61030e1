import BehavioralAutomata.Proofs.System.LocalRuns

/-!
# What lies below a frame does not matter

A word without unmatched calls and returns is read by the procedure that is active in front of it, and by
those that it invokes.

* `System.run_eq_dead_iff`: whether such a word kills a run is decided above the stack.
* `System.run_balanced_local`: it moves the top frame and leaves the stack below as it was, and so does the
  return behind it, which removes the frame.
-/

namespace BehavioralAutomata.System

variable {α : Type u} {β : Type v} [DecidableEq α] [DecidableEq β] {S : System α β}

/-- The frames below have no part in the death of a run. -/
theorem run_eq_dead_iff {f : Frame α} {t : List α} (ht : S.alphabet.Balanced t)
    (fs : List (Frame α)) :
    S.run (.active f fs) t = .dead ↔ S.run (.active f []) t = .dead := by
  constructor
  · intro hdead
    by_contra halone
    obtain ⟨g, hrun⟩ := exists_run_alone ht halone
    rw [run_alone hrun] at hdead
    cases hdead
  · intro halone
    by_contra halive
    obtain ⟨g, hrun⟩ := exists_run_alone ht halive
    cases halone.symm.trans hrun

/-- A return in front of which the top frame is in the state `p` kills the run, or it removes the frame. -/
theorem step_ret_eq {c : α} {P : Procedure α β} (hP : S.procedure? c = some P) (p : Nat)
    (fs : List (Frame α)) : S.step (.active ⟨c, p⟩ fs) S.alphabet.ret =
      if (P.liveSuccessor p S.alphabet.ret).isSome then Configuration.finished.above fs
      else .dead := by
  cases hp : P.liveSuccessor p S.alphabet.ret with
  | none =>
    have hstuck : S.advance ⟨c, p⟩ S.alphabet.ret = none := by
      rw [advance, hP, Option.bind_some, hp, Option.map_none]
    exact step_eq_dead hstuck fs
  | some p' =>
    have hmoved : S.advance ⟨c, p⟩ S.alphabet.ret = some ⟨c, p'⟩ :=
      advance_eq_some_iff.2 ⟨P, p', hP, hp, rfl⟩
    exact step_ret hmoved fs

/-- A word without unmatched calls and returns kills a run above every stack, or above none. If it does not,
it leads the top frame to the state that the procedure reaches on the normal form, and the stack is as it
was. A return behind it kills the run, above every stack or above none, or it removes exactly this frame. -/
theorem run_balanced_local {c : α} {P : Procedure α β} (hP : S.procedure? c = some P) (q : Nat)
    {t : List α} (ht : S.alphabet.pending? t = some 0) :
    (∀ fs, S.run (.active ⟨c, q⟩ fs) t = .dead) ∨
    ∃ p, P.reachedFrom q (S.alphabet.normalize t) = some p ∧
      (∀ fs, S.run (.active ⟨c, q⟩ fs) t = .active ⟨c, p⟩ fs) ∧
      ∀ fs, S.run (.active ⟨c, q⟩ fs) (t ++ [S.alphabet.ret]) =
        if (P.liveSuccessor p S.alphabet.ret).isSome then Configuration.finished.above fs
        else .dead := by
  by_cases halone : S.run (.active ⟨c, q⟩ []) t = .dead
  · exact .inl fun fs => (run_eq_dead_iff ht fs).2 halone
  obtain ⟨⟨d, p⟩, hrun⟩ := exists_run_alone ht halone
  obtain ⟨hproc, hreach⟩ := reachedFrom_of_follow hP (follow_normalize hrun).1
  obtain rfl : d = c := hproc
  have habove : ∀ fs, S.run (.active ⟨d, q⟩ fs) t = .active ⟨d, p⟩ fs := run_alone hrun
  refine .inr ⟨p, hreach, habove, fun fs => ?_⟩
  rw [run_append, habove, run_cons, run_nil, step_ret_eq hP]

/-- Reads `b`, or invokes `S` in its place, and returns. -/
def towerAcceptor : Acceptor Char where
  states := #[⟨true, .ofList [('b', 1), ('S', 1)]⟩, ⟨true, .ofList [('R', 2)]⟩, ⟨true, ∅⟩]
  start := some 0
  target_lt := by decide
  start_lt := by decide

def towerSystem : System Char Char where
  alphabet := ⟨['b'], ['S'], 'R', by decide⟩
  initialCall := some 'S'
  procedures := .ofList [('S', towerAcceptor)]
  read := some

/-- Two invocations, one inside the other, are one step of the frame that reads them, above other frames and
above none. -/
theorem run_balanced_towerSystem :
    towerSystem.alphabet.pending? ['S', 'S', 'b', 'R', 'R'] = some 0 ∧
      towerSystem.run (.active ⟨'S', 0⟩ []) ['S', 'S', 'b', 'R', 'R'] = .active ⟨'S', 1⟩ [] ∧
      towerSystem.run (.active ⟨'S', 0⟩ [⟨'S', 1⟩]) ['S', 'S', 'b', 'R', 'R'] =
        .active ⟨'S', 1⟩ [⟨'S', 1⟩] ∧
      towerSystem.run (.active ⟨'S', 0⟩ [⟨'S', 1⟩]) ['S', 'S', 'b', 'R', 'R', 'R'] =
        .active ⟨'S', 1⟩ [] := by
  have hP : towerSystem.procedure? 'S' = some ⟨towerAcceptor, some⟩ := rfl
  have hbalanced : towerSystem.alphabet.pending? ['S', 'S', 'b', 'R', 'R'] = some 0 := by decide
  rcases run_balanced_local hP 0 hbalanced with hdead | ⟨p, hp, hrun, hret⟩
  · exact absurd (hdead []) (by decide)
  · have hstate : (⟨towerAcceptor, some⟩ : Procedure Char Char).reachedFrom 0
        (towerSystem.alphabet.normalize ['S', 'S', 'b', 'R', 'R']) = some 1 := by decide
    obtain rfl : p = 1 := Option.some.inj (hp.symm.trans hstate)
    exact ⟨hbalanced, hrun [], hrun _, hret _⟩

end BehavioralAutomata.System
