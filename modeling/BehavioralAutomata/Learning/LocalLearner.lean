import BehavioralAutomata.Acceptor.Exploration
import BehavioralAutomata.Learning.Error
import BehavioralAutomata.Learning.ObservationTable.Basic

/-!
# Learners of single procedures

A system is learned with one learner per procedure. What such a learner has to offer is said by two
classes; observation tables are one way to meet them.
-/

namespace BehavioralAutomata

/-- What a learner of a procedure knows. -/
class LocalLearner (L : Type) (α : outParam Type) where
  hypothesis : L → Acceptor (LocalSymbol α)
  inputs : L → List (LocalSymbol α)
  /-- The word that stands for the state of the hypothesis that a word leads to. -/
  representative : L → List (LocalSymbol α) → List (LocalSymbol α)
  /-- How often a counterexample that was used before can be used again. -/
  spare : L → Nat

/-- What a learner of a procedure does. It asks for verdicts on local words. -/
class LocalLearning (m : Type → Type) (L : Type) (α : outParam Type) extends LocalLearner L α where
  /-- Finds the first hypothesis. -/
  start : (List (LocalSymbol α) → m Bool) → L → m L
  /-- Changes a hypothesis that disagrees with a word, and answers whether it did. -/
  refine : (List (LocalSymbol α) → m Bool) → LabelledWord (LocalSymbol α) → L → m (Bool × L)
  /-- Adds a symbol to the inputs, unless it is one of them. -/
  grow : (List (LocalSymbol α) → m Bool) → LocalSymbol α → L → m L

namespace LocalLearner

variable {L α : Type} [DecidableEq α] [LocalLearner L α]

/-- The first of the words that lead from `w` over a return and one more symbol to acceptance. -/
def violationFrom? (l : L) (w : List (LocalSymbol α)) :
    Option (LabelledWord (LocalSymbol α)) :=
  let H := hypothesis l
  (H.reached w).bind fun q =>
    ((inputs l).filter (·.isReturn)).findSome? fun ret =>
      (H.successor q ret).bind fun p =>
        ((inputs l).find? fun s => (H.successor p s).any H.isAccepting).map fun s =>
          ⟨w ++ [ret, s], false⟩

/-- A word that the hypothesis accepts although it goes on behind a return, as a counterexample. Only
the words that stand for the states of the hypothesis are tried in front of the return. -/
def violation? (l : L) : Option (LabelledWord (LocalSymbol α)) :=
  (((hypothesis l).stateCover (inputs l)).map (representative l)).eraseDups.findSome?
    (violationFrom? l)

end LocalLearner

section

variable {m : Type → Type} {α : Type} [Monad m] [MonadExceptOf (LearningError α) m]

variable (α) in
/-- Closing a table beyond its limit makes learning fail. -/
def withinLimit (x : ExceptT LimitExceeded m δ) : m δ := do
  match ← x.run with
  | .ok a => return a
  | .error e => throw (LearningError.limitExceeded e.limit : LearningError α)

variable [DecidableEq α]

/-- A table uses every counterexample once at most, because its suffixes are experiments then. -/
instance : LocalLearner (ObservationTable (LocalSymbol α)) α where
  hypothesis T := T.hypothesis
  inputs T := T.alphabet
  representative T := T.representative
  spare _ := 0

instance : LocalLearning m (ObservationTable (LocalSymbol α)) α where
  start ask T := withinLimit α (T.close ask)
  refine ask q T := withinLimit α (T.refine ask q)
  grow ask s T := withinLimit α (T.grow ask s)

end

end BehavioralAutomata
