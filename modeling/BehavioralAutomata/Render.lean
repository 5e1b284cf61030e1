/-!
# Short texts

Symbols, words, verdicts and pairs have a short text, which is what messages and tables are made of.
A word is written as its symbols without a separator, between quotation marks.
-/

namespace BehavioralAutomata

/-- A type whose values have a short text. -/
class Render (α : Type u) where
  render : α → String

export Render (render)

instance : Render Char := ⟨String.singleton⟩

instance : Render Nat := ⟨Nat.repr⟩

/-- Decimal, with a sign in front of a negative number only. -/
instance : Render Int where
  render
    | .ofNat n => n.repr
    | .negSucc n => "-" ++ (n + 1).repr

/-- A verdict is a plus sign if it is positive and a minus sign otherwise. -/
instance : Render Bool := ⟨fun b => if b then "+" else "-"⟩

instance [Render α] : Render (List α) :=
  ⟨fun w => "\"" ++ String.join (w.map render) ++ "\""⟩

instance [Render α] [Render β] : Render (α × β) :=
  ⟨fun p => "(" ++ render p.1 ++ ", " ++ render p.2 ++ ")"⟩

/-- The message if a list of this length is asked for an element that it does not have. -/
def indexMessage (i length : Nat) : String :=
  "index out of bounds: the len is " ++ render length ++ " but the index is " ++ render i

end BehavioralAutomata
