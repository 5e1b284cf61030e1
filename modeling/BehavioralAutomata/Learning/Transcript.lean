/-!
# Transcripts of membership queries

A `Transcript` holds the words that an oracle was asked, in order. Any function from words to verdicts
becomes an oracle that keeps one.
-/

namespace BehavioralAutomata

/-- The words that were asked so far. -/
structure Transcript (α : Type) where
  words : Array (List α)

namespace Transcript

variable {α : Type}

def empty : Transcript α := ⟨#[]⟩

def record (t : Transcript α) (w : List α) : Transcript α := ⟨t.words.push w⟩

/-- The number of words. -/
def queries (t : Transcript α) : Nat := t.words.size

/-- The number of symbols of all words. -/
def symbols (t : Transcript α) : Nat := t.words.foldl (fun n w => n + w.length) 0

/-- What was asked after the first `n` words. -/
def after (t : Transcript α) (n : Nat) : List (List α) := t.words.toList.drop n

@[simp] theorem toList_record (t : Transcript α) (w : List α) :
    (t.record w).words.toList = t.words.toList ++ [w] := by
  simp [record]

/-- Asks for the verdict on a word and records it. -/
def ask {m : Type → Type} [Monad m] [MonadStateOf (Transcript α) m] (verdict : List α → Bool)
    (w : List α) : m Bool := do
  modifyThe (Transcript α) (·.record w)
  return verdict w

end Transcript

end BehavioralAutomata
