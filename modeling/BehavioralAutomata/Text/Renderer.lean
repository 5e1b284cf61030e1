/-!
# Tables and colours

How a table is framed and how a text is coloured is left to a renderer, which is a parameter of everything
that is printed. The printers decide what is in the cells.
-/

namespace BehavioralAutomata.Text

/-- A colour of the foreground. -/
inductive Colour where
  | green
  | blue
deriving DecidableEq

class Renderer where
  /-- A text in a colour. -/
  paint : Colour → String → String
  /-- A table with these rows, of cells that may be coloured and have several lines. -/
  layout (header : List String) (rows : List (List String)) : String

export Renderer (paint layout)

end BehavioralAutomata.Text
