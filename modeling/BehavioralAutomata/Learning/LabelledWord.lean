import BehavioralAutomata.LocalSymbol
import BehavioralAutomata.Separation.Search

/-!
# Words with a verdict

A `LabelledWord` is a word with the verdict of the system that is learned. On a counterexample the
hypothesis disagrees with it.
-/

namespace BehavioralAutomata

structure LabelledWord (α : Type u) where
  word : List α
  accepted : Bool
deriving DecidableEq

instance [Render α] : Render (LabelledWord α) :=
  ⟨fun q => render q.word ++ " " ++ render q.accepted⟩

/-- A word on which the hypothesis and the target disagree, with the verdict of the target. -/
def counterexample? {α β γ : Type} [DecidableEq α] [DecidableEq β] [DecidableEq γ]
    (target : System α β) (hypothesis : System α γ) : Option (LabelledWord α) :=
  (separatingWord? target hypothesis).map fun w => ⟨w, target.accepts w⟩

end BehavioralAutomata
