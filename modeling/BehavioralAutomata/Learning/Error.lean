import BehavioralAutomata.Learning.LabelledWord

/-!
# Why learning fails

Learning fails if a sequence is missing that a question needs, if a table does not close in time, or if
a wrong word can not be blamed on a procedure whose hypothesis it changes.
-/

namespace BehavioralAutomata

inductive LearningError (α : Type) where
  | noAccessSequence (procedure : α)
  | noTerminatingSequence (procedure : α)
  /-- An observation table needed more rounds than it is allowed. -/
  | limitExceeded (limit : Nat)
  /-- The hypothesis goes wrong where no procedure is active. -/
  | noActiveProcedure (position : Nat) (word : List α)
  | unknownSymbols (word : List α)
  | unknownProcedure (procedure : α)
  /-- The hypothesis of a procedure stays wrong on a word that shows it is wrong. -/
  | unusedCounterexample (procedure : α) (counterexample : LabelledWord (LocalSymbol α))
  /-- The hypothesis of a procedure goes on behind a return and can not be changed. -/
  | unrepaired (procedure : α)
deriving DecidableEq

def LearningError.message [Render α] : LearningError α → String
  | .noAccessSequence c => "no access sequence for " ++ render c
  | .noTerminatingSequence c => "no terminating sequence for " ++ render c
  | .limitExceeded n => "iteration threshold of " ++ render n ++ " exceeded"
  | .noActiveProcedure i w =>
    "no procedure is active at position " ++ render i ++ " of " ++ render w
  | .unknownSymbols w => render w ++ " contains unknown symbols"
  | .unknownProcedure c => "procedure " ++ render c ++ " is not known"
  | .unusedCounterexample c q =>
    "learner of " ++ render c ++ " did not use the counterexample " ++ render q
  | .unrepaired c => "learner of " ++ render c ++ " did not repair return closure"

end BehavioralAutomata
