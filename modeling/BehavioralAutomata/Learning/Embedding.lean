import BehavioralAutomata.Learning.SequenceStore

/-!
# Embedding local words

A local word of a procedure is put behind its access sequence and its call, and every usable call in it
becomes a whole invocation. What the system says to the result is what the procedure says to the local
word. Nothing can follow an unusable call or a return locally, so local words in which something does
are rejected without asking.
-/

namespace BehavioralAutomata.SequenceStore

variable {α : Type} [DecidableEq α]

/-- The local word with every usable call replaced by an invocation, or `none` if a return or an
unusable call is not the last symbol. -/
def invocations (S : SequenceStore α) :
    List (LocalSymbol α) → Except (LearningError α) (Option (List α))
  | [] => .ok (some [])
  | .internal a :: w => do return (← S.invocations w).map (a :: ·)
  | .call c true :: w => do
    let t ← S.terminatingSequence c
    return (← S.invocations w).map ([c] ++ t ++ [S.alphabet.ret] ++ ·)
  | [s] => .ok (some [s.symbol])
  | _ :: _ :: _ => .ok none

/-- The word to ask for a local word of the procedure `c`, if there is one. -/
def embed (S : SequenceStore α) (c : α) (w : List (LocalSymbol α)) :
    Except (LearningError α) (Option (List α)) := do
  let u ← S.accessSequence c
  return (← S.invocations w).map (u ++ [c] ++ ·)

/-- Answers local queries of the procedure `c` by asking an oracle for the system. -/
def askLocal {m : Type → Type} [Monad m] [MonadExceptOf (LearningError α) m]
    (ask : List α → m Bool) (S : SequenceStore α) (c : α) (w : List (LocalSymbol α)) : m Bool :=
  match S.embed c w with
  | .error e => throw e
  | .ok none => return false
  | .ok (some v) => ask v

end BehavioralAutomata.SequenceStore
