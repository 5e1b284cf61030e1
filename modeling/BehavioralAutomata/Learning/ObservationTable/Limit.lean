/-!
# The limit on the rounds of a table

The limit is a number of 64 bits in decimal, with or without a plus sign. Any other text is ignored.
-/

namespace BehavioralAutomata.ObservationTable

/-- The limit if none is given. -/
def defaultLimit : Nat := 200000

def digitsToNat? : List Char → Option Nat
  | [] => none
  | cs => if cs.all Char.isDigit then
      some (cs.foldl (fun n c => 10 * n + (c.toNat - '0'.toNat)) 0)
    else none

/-- The number that a text stands for, if it fits into 64 bits. -/
def parseLimit? (text : String) : Option Nat :=
  let digits := match text.toList with
    | '+' :: cs => cs
    | cs => cs
  (digitsToNat? digits).filter (· < UInt64.size)

def limitOfText (text : String) : Nat := (parseLimit? text).getD defaultLimit

end BehavioralAutomata.ObservationTable
