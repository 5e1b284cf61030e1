/-!
# Sets of characters

A set of characters is given by ranges of code points. The sets follow Unicode 15.1, and only the renderer of
`Text.Table` looks at them.
-/

namespace BehavioralAutomata.Text

/-- A set of characters, by the first and the last code point of each range. -/
abbrev CodeRanges := List (Nat × Nat)

def CodeRanges.contains (ranges : CodeRanges) (c : Char) : Bool :=
  ranges.any fun r => r.1 ≤ c.toNat && c.toNat ≤ r.2

end BehavioralAutomata.Text
