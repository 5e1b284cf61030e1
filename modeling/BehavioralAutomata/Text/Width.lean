import BehavioralAutomata.Text.CodeRanges.Emoji
import BehavioralAutomata.Text.CodeRanges.Joining
import BehavioralAutomata.Text.CodeRanges.Width

/-!
# Display width

The width of a text is the number of columns that it takes. Each character takes one or two columns or
none, and some take another number because of what stands behind them: letters merge, and pictures
consist of several characters. So a text is measured from its end. This stands for a text library and belongs
to the renderer of `Text.Table`.

* `charWidth`: the columns of a character on its own.
* `Following.add`: the columns that a character adds in front of others.
* `width`: the columns of a text.
-/

namespace BehavioralAutomata.Text

/-- The columns of a character on its own. -/
def charWidth (c : Char) : Nat :=
  if c.toNat ≤ 0xa0 then 1
  else if c = '\u17d8' then 3
  else if c = '\u17a4' then 2
  else if CodeRanges.zeroWidth.contains c then 0
  else if CodeRanges.wide.contains c then 2
  else 1

/-- How a variation selector asks for a character to be shown. -/
inductive Presentation where
  | picture
  | text
deriving DecidableEq

/-- How many letters of flags stand behind a joiner. -/
inductive FlagCount where
  | one
  | even
  | odd
deriving DecidableEq

/-- What stands behind a character, as far as it matters for the columns that the character adds. -/
inductive Neighbour where
  | other
  /-- A letter that may merge with a letter in front of it. `joined` says that a joiner comes first. -/
  | letter (c : Char) (joined : Bool)
  | picture
  | skinTone
  /-- Letters of flags. -/
  | flagLetters (several : Bool)
  /-- A joiner in front of a picture. -/
  | joiner
  /-- The mark of a key, in front of a joiner. -/
  | keycap
  /-- Letters of flags, in front of a joiner. -/
  | joinedFlagLetters (n : FlagCount)
  /-- The end of a sequence of tags, in front of a joiner. It begins with so many letters. -/
  | tagLetters (n : Nat)
  /-- The end of a sequence of tags, in front of a joiner. It begins with so many digits. -/
  | tagDigits (n : Nat)
deriving DecidableEq

/-- What stands behind a character, with the variation selector that comes first, if there is one. -/
structure Following where
  presentation : Option Presentation
  neighbour : Neighbour
deriving DecidableEq

namespace Neighbour

/-- The joiner that makes one picture of two and lets letters merge. -/
def zeroWidthJoiner : Char := '\u200d'

def isSkinTone (c : Char) : Bool := CodeRanges.skinTones.contains c

/-- Two of these letters make a flag. -/
def isFlagLetter (c : Char) : Bool := CodeRanges.flagLetters.contains c

/-- The picture that tags make the flag of a region. -/
def isBlackFlag (c : Char) : Bool := c.toNat = 0x1f3f4

/-- A letter may merge with another one in front of it. -/
def merges (c : Char) : Bool :=
  CodeRanges.alefs.contains c || CodeRanges.khmerConsonants.contains c ||
    CodeRanges.tifinaghConsonants.contains c || CodeRanges.lisuEndings.contains c ||
    c.toNat ∈ [0x5dc, 0x1a10, 0x10c03]

/-- A character as the neighbour of the one in front of it. -/
def ofChar (c : Char) : Neighbour :=
  if c.toNat ≤ 0xa0 then .other
  else if isSkinTone c then .skinTone
  else if isFlagLetter c then .flagLetters false
  else if CodeRanges.pictures.contains c then .picture
  else if merges c then .letter c false
  else .other

/-- The columns that `c` adds in front of the letter `l`, if the two merge, and what they are then. -/
def merge? (l : Char) (joined : Bool) (c : Char) : Option (Int × Neighbour) :=
  if CodeRanges.alefs.contains l then
    if CodeRanges.lams.contains c then some (0, .other)
    else if CodeRanges.zeroWidth.contains c && !CodeRanges.separating.contains c then
      some (0, .letter l joined)
    else none
  else if c = zeroWidthJoiner then some (0, .letter l true)
  else if CodeRanges.ignorableMarks.contains c then some (0, .letter l joined)
  else if CodeRanges.khmerConsonants.contains l then
    if c = '\u17d2' then some (-1, .other) else none
  else if CodeRanges.tifinaghConsonants.contains l then
    if c = '\u2d7f' then some (1, .letter c joined)
    else if joined && CodeRanges.tifinaghConsonants.contains c then some (0, .other)
    else none
  else
    match l.toNat, joined, c.toNat with
    | 0x2d7f, _, _ => if CodeRanges.tifinaghConsonants.contains c then some (-1, .other) else none
    | 0x5dc, true, 0x5d0 => some (0, .other)
    | 0x1a10, true, 0x1a17 => some (0, .letter c true)
    | 0x1a17, _, 0x1a15 => some (0, .other)
    | 0x10c03, true, 0x10c32 => some (0, .other)
    | _, _, _ =>
      if CodeRanges.lisuEndings.contains l && CodeRanges.lisuTones.contains c then some (0, .other)
      else none

/-- The columns that `c` adds if a joiner behind it makes it a part of the next picture. -/
def join? (c : Char) : Option (Int × Neighbour) :=
  if c = '\u20e3' then some (0, .keycap)
  else if isFlagLetter c then some (1, .joinedFlagLetters .one)
  else if isSkinTone c then some (0, .skinTone)
  else if c.toNat = 0xe007f then some (0, .tagLetters 0)
  else if CodeRanges.pictures.contains c then some (0, .picture)
  else none

/-- The columns that `c` adds if it belongs to what stands behind it, and what the two are then. -/
def attach? (n : Neighbour) (c : Char) : Option (Int × Neighbour) :=
  match n with
  | .other | .keycap => none
  | .letter l joined => merge? l joined c
  | .picture => if c = zeroWidthJoiner then some (0, .joiner) else none
  | .skinTone =>
    if CodeRanges.toned.contains c then some (0, .picture)
    else if c = zeroWidthJoiner then some (0, .joiner)
    else none
  | .flagLetters several =>
    if isFlagLetter c then some (1, .flagLetters true)
    else if several && c = zeroWidthJoiner then some (0, .joiner)
    else none
  | .joiner => join? c
  | .joinedFlagLetters n =>
    if isFlagLetter c then
      some (if n = .even then (3, .joinedFlagLetters .odd) else (-1, .joinedFlagLetters .even))
    else if n ≠ .one && c = zeroWidthJoiner then some (0, .joiner)
    else none
  | .tagLetters n =>
    if CodeRanges.letterTags.contains c && n < 6 then some (0, .tagLetters (n + 1))
    else if CodeRanges.digitTags.contains c && n < 5 then some (0, .tagDigits 1)
    else if isBlackFlag c && 3 ≤ n then some (0, .picture)
    else none
  | .tagDigits n =>
    if CodeRanges.digitTags.contains c && n < 3 then some (0, .tagDigits (n + 1))
    else if isBlackFlag c && n = 3 then some (0, .picture)
    else none

/-- A picture in front of it is a part of what stands behind. -/
def isJoined (n : Neighbour) : Bool := n matches .joiner | .keycap

/-- What stays of a neighbour in front of which a variation selector asks for text. -/
def letterOnly : Neighbour → Neighbour
  | .letter l joined => .letter l joined
  | _ => .other

/-- What stays of a neighbour in front of which a variation selector asks for a picture. -/
def letterOrJoined (n : Neighbour) : Neighbour := if n.isJoined then n else n.letterOnly

end Neighbour

namespace Following

def start : Following := ⟨none, .other⟩

/-- The character has two forms, is a picture unless it is asked to be text, and is no ideograph. -/
def hasPlainForm (c : Char) : Bool :=
  CodeRanges.selectable.contains c && CodeRanges.pictures.contains c &&
    !(0x1f200 ≤ c.toNat && c.toNat ≤ 0x1f2ff)

/-- The columns that a character without a variation selector behind it adds. -/
def addUnstyled (n : Neighbour) (c : Char) : Int × Following :=
  match n.attach? c with
  | some (d, n) => (d, ⟨none, n⟩)
  | none => (charWidth c, ⟨none, .ofChar c⟩)

/-- The columns that a character adds in front of others, and what stands behind the next one. -/
def add (f : Following) (c : Char) : Int × Following :=
  if f.presentation = some .picture && CodeRanges.selectable.contains c then
    (if f.neighbour.isJoined then 0 else 2, ⟨none, .picture⟩)
  else
    let n := if f.presentation = some .picture then f.neighbour.letterOnly else f.neighbour
    if c.toNat ≤ 0xa0 then (charWidth c, start)
    else if c = '\ufe0f' then (0, ⟨some .picture, n.letterOrJoined⟩)
    else if c = '\ufe0e' then (0, ⟨some .text, n.letterOnly⟩)
    else if f.presentation = some .text && hasPlainForm c then (1, start)
    else addUnstyled n c

end Following

/-- The number of columns that a text takes. -/
def width (s : List Char) : Nat :=
  let (n, _) := s.foldr
    (fun c (n, f) =>
      let (d, f) := Following.add f c
      (n + d, f))
    ((0 : Int), Following.start)
  n.toNat

end BehavioralAutomata.Text
