import BehavioralAutomata.WordMap

/-!
# What an oracle has answered

`Answers` holds the words that are known, in the order in which they were asked, with their verdicts.
A word is in the list once, however often it is entered.
-/

namespace BehavioralAutomata

structure Answers (β : Type) [DecidableEq β] where
  /-- The words that are known, latest first. -/
  asked : List (List β)
  verdicts : WordMap β Bool
  nodup : asked.Nodup
  mem_asked_iff : ∀ w, w ∈ asked ↔ (verdicts.get? w).isSome = true

namespace Answers

variable {β : Type} [DecidableEq β]

instance : EmptyCollection (Answers β) := ⟨⟨[], ∅, List.nodup_nil, by simp⟩⟩

/-- The words that are known, in order. -/
def words (K : Answers β) : List (List β) := K.asked.reverse

def size (K : Answers β) : Nat := K.asked.length

/-- The verdict on a word, if it is known. -/
def get? (K : Answers β) (w : List β) : Option Bool := K.verdicts.get? w

theorem mem_words_iff {K : Answers β} {w : List β} : w ∈ K.words ↔ (K.get? w).isSome = true := by
  rw [words, List.mem_reverse, mem_asked_iff, get?]

theorem nodup_words (K : Answers β) : K.words.Nodup :=
  List.pairwise_reverse.2 (K.nodup.imp Ne.symm)

@[simp] theorem length_words (K : Answers β) : K.words.length = K.size := by simp [words, size]

@[simp] theorem words_empty : (∅ : Answers β).words = [] := rfl

@[simp] theorem get?_empty (w : List β) : (∅ : Answers β).get? w = none := WordMap.get?_empty w

/-- Enters the verdict on a word. -/
def insert (K : Answers β) (w : List β) (b : Bool) : Answers β where
  asked := if (K.verdicts.get? w).isSome then K.asked else w :: K.asked
  verdicts := K.verdicts.insert b w
  nodup := by
    split
    · exact K.nodup
    · next h => exact List.nodup_cons.2 ⟨fun hw => h ((K.mem_asked_iff w).1 hw), K.nodup⟩
  mem_asked_iff u := by
    rw [WordMap.get?_insert]
    by_cases h : u = w
    · subst h
      split
      · next h => simpa [K.mem_asked_iff] using h
      · simp
    · split <;> simp [h, K.mem_asked_iff]

@[simp] theorem get?_insert (K : Answers β) (w u : List β) (b : Bool) :
    (K.insert w b).get? u = if u = w then some b else K.get? u :=
  WordMap.get?_insert ..

@[simp] theorem words_insert (K : Answers β) (w : List β) (b : Bool) :
    (K.insert w b).words = if w ∈ K.words then K.words else K.words ++ [w] := by
  simp only [words, insert, List.mem_reverse, mem_asked_iff]
  split <;> simp

end Answers

end BehavioralAutomata
