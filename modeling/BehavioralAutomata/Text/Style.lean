import BehavioralAutomata.Text.Escape
import BehavioralAutomata.Text.Renderer

/-!
# Styles

A text may change the style in which a terminal shows what follows, its colour for instance. If such a
text is cut into lines that are shown apart from each other, each line has to start with the style that
holds there and to end without one. This stands for a text library and belongs to the renderer of
`Text.Table`.

* `Style.after`: the style behind a text.
* `styledLines`: the lines of a text, each on its own.
* `Colour.wrap`: a text with the sequences that switch a colour on and off.
-/

namespace BehavioralAutomata.Text

/-- What can be changed about the way in which a text is shown. -/
inductive Attribute where
  | bold
  | faint
  | italic
  | underline
  | slowBlink
  | fastBlink
  | inverse
  | hidden
  | struck
  | font
  | blackletter
  | doubleUnderline
  | proportional
  | foreground
  | background
  | underlineColour
  | framed
  | encircled
  | overlined
  | ideogramUnderline
  | ideogramDoubleUnderline
  | ideogramOverline
  | ideogramDoubleOverline
  | ideogramStress
  | superscript
  | subscript
deriving DecidableEq

namespace Attribute

/-- The attributes, in the order in which they are switched on. -/
def all : List Attribute :=
  [bold, faint, italic, underline, slowBlink, fastBlink, inverse, hidden, struck, font, blackletter,
    doubleUnderline, proportional, foreground, background, underlineColour, framed, encircled,
    overlined, ideogramUnderline, ideogramDoubleUnderline, ideogramOverline, ideogramDoubleOverline,
    ideogramStress, superscript, subscript]

/-- The parameter that switches an attribute off. -/
def ending : Attribute → Nat
  | font => 10
  | bold | faint => 22
  | italic | blackletter => 23
  | underline | doubleUnderline => 24
  | slowBlink | fastBlink => 25
  | inverse => 27
  | hidden => 28
  | struck => 29
  | proportional => 50
  | foreground => 39
  | background => 49
  | framed | encircled => 54
  | overlined => 55
  | ideogramUnderline | ideogramDoubleUnderline | ideogramOverline | ideogramDoubleOverline
  | ideogramStress => 65
  | underlineColour => 59
  | superscript | subscript => 75

/-- The parameters that switch attributes off, in the order in which they are written. -/
def endings : List Nat := [10, 22, 23, 24, 25, 27, 28, 29, 50, 39, 49, 54, 55, 65, 59, 75]

/-- The attribute that a parameter switches on. -/
def ofParameter? (n : Nat) : Option Attribute :=
  match n with
  | 1 => some bold
  | 2 => some faint
  | 3 => some italic
  | 4 => some underline
  | 5 => some slowBlink
  | 6 => some fastBlink
  | 7 => some inverse
  | 8 => some hidden
  | 9 => some struck
  | 20 => some blackletter
  | 21 => some doubleUnderline
  | 26 => some proportional
  | 51 => some framed
  | 52 => some encircled
  | 53 => some overlined
  | 60 => some ideogramUnderline
  | 61 => some ideogramDoubleUnderline
  | 62 => some ideogramOverline
  | 63 => some ideogramDoubleOverline
  | 64 => some ideogramStress
  | 73 => some superscript
  | 74 => some subscript
  | _ =>
    if 11 ≤ n && n ≤ 19 then some font
    else if 30 ≤ n && n ≤ 37 || 90 ≤ n && n ≤ 97 then some foreground
    else if 40 ≤ n && n ≤ 47 || 100 ≤ n && n ≤ 107 then some background
    else none

/-- The attribute whose colour the parameters behind this one give. -/
def ofColourParameter? : Nat → Option Attribute
  | 38 => some foreground
  | 48 => some background
  | 58 => some underlineColour
  | _ => none

end Attribute

/-- The way in which a text is shown. -/
structure Style where
  /-- The parameters that switched an attribute on. -/
  parameters : Attribute → Option (List Nat)
  /-- All attributes have been switched off at once before. -/
  reset : Bool
  /-- There was a parameter without a meaning. -/
  unknown : Bool

namespace Style

def plain : Style := ⟨fun _ => none, false, false⟩

def set (s : Style) (a : Attribute) (ns : List Nat) : Style :=
  { s with parameters := fun b => if b = a then some ns else s.parameters b }

/-- Switches off what a parameter ends. -/
def unset (s : Style) (n : Nat) : Style :=
  { s with parameters := fun a => if a.ending = n then none else s.parameters a }

/-- A parameter that needs no others. -/
def change (s : Style) (n : Nat) : Style :=
  if n = 0 then { plain with reset := true }
  else match Attribute.ofParameter? n with
    | some a => s.set a [n]
    | none => if n ∈ Attribute.endings then s.unset n else { s with unknown := true }

/-- The number that digits stand for. -/
def number? (s : List Char) : Option Nat :=
  if !s.isEmpty && s.all Char.isDigit then
    some (s.foldl (fun n c => 10 * n + (c.toNat - '0'.toNat)) 0)
  else none

/-- The number of a parameter, which has no leading zeros. -/
def parameter? (s : List Char) : Option Nat := (number? s).filter fun n => (toString n).toList = s

/-- A number that fits into a byte, and zero for everything else. -/
def byte (s : List Char) : Nat := ((number? s).filter (· < 256)).getD 0

/-- The colour at the head of the given parameters, and what follows it. -/
def colour : List (List Char) → Option (List Nat) × List (List Char)
  | ['5'] :: n :: rest => (some [5, byte n], rest)
  | ['2'] :: r :: g :: b :: rest => (some [2, byte r, byte g, byte b], rest)
  | ['2'] :: _ => (none, [])
  | _ :: rest => (none, rest)
  | [] => (none, [])

theorem length_colour_le (ps : List (List Char)) : (colour ps).2.length ≤ ps.length := by
  unfold colour
  split <;> grind

/-- The style behind a sequence with these parameters. -/
def apply (s : Style) : List (List Char) → Style
  | [] => s
  | p :: ps =>
    match parameter? p with
    | none => { s with unknown := true }.apply ps
    | some n =>
      match Attribute.ofColourParameter? n with
      | none => (s.change n).apply ps
      | some a =>
        have := length_colour_le ps
        match (colour ps).1 with
        | some ns => (s.set a (n :: ns)).apply (colour ps).2
        | none => s.apply (colour ps).2
termination_by ps => ps.length

/-- The parameters of a sequence that changes the style, from its introducer to its last letter. -/
def parametersOf : List Char → List (List Char)
  | '\x1b' :: '[' :: s => s.dropLast.splitOn ';'
  | s => s.dropLast.splitOn ';'

/-- The style behind a text. -/
def after (s : Style) (text : List Char) : Style :=
  (segments text).foldl
    (fun s segment => match segment with
      | .code .style c => s.apply (parametersOf c)
      | .code .other _ | .shown _ => s)
    s

/-- The sequence with the given parameters. -/
def sequence (ns : List Nat) : String := "\x1b[" ++ ";".intercalate (ns.map toString) ++ "m"

/-- Something has to be switched on or off. A font alone is not enough. -/
def isVisible (s : Style) : Bool :=
  s.reset || Attribute.all.any fun a => a ≠ .font && (s.parameters a).isSome

/-- What switches the style on. -/
def opening (s : Style) : String :=
  if s.isVisible then String.join (Attribute.all.filterMap fun a => (s.parameters a).map sequence)
  else ""

/-- The parameters that switch the style off. Everything is switched off once more behind a parameter
without a meaning, and before that if this has happened already. -/
def closingParameters (s : Style) : List Nat :=
  (if s.unknown && s.reset then [0] else []) ++
    (Attribute.endings.filter fun n =>
      Attribute.all.any fun a => (s.parameters a).isSome && a.ending = n) ++
    (if s.unknown then [0] else [])

/-- What switches the style off. -/
def closing (s : Style) : String :=
  if s.isVisible then String.join (s.closingParameters.map fun n => sequence [n]) else ""

end Style

/-- The lines behind a place where a style holds, each of them on its own. Empty ones stay empty. -/
def styledLinesFrom (s : Style) : List String → List String
  | [] => []
  | line :: lines =>
    let t := s.after line.toList
    (if line.isEmpty then line else s.opening ++ line ++ t.closing) :: styledLinesFrom t lines

/-- The lines of a text. If there are several, each of them has the style that holds there. -/
def styledLines (text : String) : List String :=
  match text.splitOn "\n" with
  | [line] => [line]
  | lines => styledLinesFrom .plain lines

/-- The number that a terminal knows the colour by. -/
def Colour.parameter : Colour → Nat
  | .green => 32
  | .blue => 34

/-- A text in a colour. -/
def Colour.wrap (c : Colour) (text : String) : String :=
  Style.sequence [c.parameter] ++ text ++ Style.sequence [39]

end BehavioralAutomata.Text
