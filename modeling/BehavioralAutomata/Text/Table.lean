import BehavioralAutomata.Text.Style

/-!
# Framed tables

`Table.framed` sets rows of cells into a frame with round corners. A column is as wide as its widest
cell, a row is as high as its highest cell, rows may be shorter than the longest one, and escape
sequences take no room.

This and all that it is made of stands for the text libraries that a program is linked with. It is one
`Renderer` of several that are possible.
-/

namespace BehavioralAutomata.Text.Table

/-- The `i`-th of several cells, which is empty if there are fewer. -/
def cellAt (cells : List String) (i : Nat) : String := cells[i]?.getD ""

/-- The lines of a row, as rows of cells with one line each. -/
def lines (row : List String) : List (List String) :=
  let cells := row.map styledLines
  (List.range ((cells.map List.length).foldl max 0)).map fun i =>
    cells.map fun lines => cellAt lines i

def columnWidth (rows : List (List String)) (i : Nat) : Nat :=
  (rows.map fun row => shownWidth (cellAt row i)).foldl max 0

def columnWidths (rows : List (List String)) : List Nat :=
  (List.range ((rows.map List.length).foldl max 0)).map (columnWidth rows)

def line (widths : List Nat) (row : List String) : String :=
  let cells := widths.zipIdx.map fun (w, i) =>
    let cell := cellAt row i
    " " ++ cell ++ "".pushn ' ' (w - shownWidth cell) ++ " │"
  "│" ++ String.join cells

/-- A horizontal line with the given left end, crossing and right end. -/
def rule (widths : List Nat) (left crossing right : String) : String :=
  left ++ crossing.intercalate (widths.map fun w => "".pushn '─' (w + 2)) ++ right

/-- The framed table. Only the header is followed by a line, and without rows the frame stays open. -/
def framed (header : List String) (rows : List (List String)) : String :=
  let header := lines header
  let rows := rows.flatMap lines
  let widths := columnWidths (header ++ rows)
  let foot := if rows.isEmpty then [] else [rule widths "╰" "┴" "╯"]
  "\n".intercalate <|
    [rule widths "╭" "┬" "╮"] ++ header.map (line widths) ++ [rule widths "├" "┼" "┤"] ++
      rows.map (line widths) ++ foot

instance : Renderer := ⟨Colour.wrap, framed⟩

end BehavioralAutomata.Text.Table
