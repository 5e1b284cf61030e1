import BehavioralAutomata.Learning.Session

/-!
# Lessons

In a lesson a session is given counterexamples to its hypothesis until there are none.
-/

namespace BehavioralAutomata

/-- A counterexample, how many refinements used it, and the size of the hypothesis afterwards. -/
structure LessonRound (α : Type) where
  counterexample : LabelledWord α
  used : Nat
  size : Nat
deriving DecidableEq

namespace Session

variable {L α : Type} [DecidableEq α] {m : Type → Type} [Monad m]
  [MonadExceptOf (LearningError α) m] [LocalLearning m L α] (ask : List α → m Bool)
  (create : α → List (LocalSymbol α) → L)

/-- Refines with one word as long as that changes something, and answers how often it did. -/
def refineRepeatedly (q : LabelledWord α) : (times : Nat) → Session L α → m (Nat × Session L α)
  | 0, s => return (0, s)
  | n + 1, s => do
    let (changed, s) ← s.refine ask create q
    if changed then
      let (k, s) ← refineRepeatedly q n s
      return (k + 1, s)
    else return (0, s)

/-- Learns the target from counterexamples for the given number of rounds at most, with each
counterexample `times` times at most. Answers the rounds and whether no counterexample is left. A
lesson ends early if a counterexample changes nothing. -/
def lesson {β : Type} [DecidableEq β] (target : System α β) (times : Nat) :
    (rounds : Nat) → Session L α → m ((List (LessonRound α) × Bool) × Session L α)
  | 0, s => return (([], false), s)
  | n + 1, s =>
    match counterexample? target s.hypothesis.toSystem with
    | none => return (([], true), s)
    | some q => do
      let (used, s) ← refineRepeatedly ask create q times s
      let round : LessonRound α := ⟨q, used, s.hypothesis.size⟩
      if used = 0 then return (([round], false), s)
      let ((rounds, done), s) ← lesson target times n s
      return ((round :: rounds, done), s)

end Session

end BehavioralAutomata
