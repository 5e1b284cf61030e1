import BehavioralAutomata.Text.Width

/-!
# Escape sequences

Between the characters to be shown, a text may hold sequences that tell a terminal what to do. Each one
starts with the escape character.

A terminal reads a text character by character (`Stage.step`) and counts the bytes that it shows. When a
sequence ends, the bytes behind the last sequence are divided: as many as have been shown are taken to
be text, the first ones, and all others to be the sequence. This is what the eye sees unless something
is shown in the middle of a sequence, or behind one that is broken off. This stands for a text library and
belongs to the renderer of `Text.Table`.

* `segments`: a text as runs of shown characters and sequences.
* `shownWidth`: the columns of what is shown.
-/

namespace BehavioralAutomata.Text

/-- What a sequence is about. -/
inductive Purpose where
  /-- The style of what follows. -/
  | style
  | other
deriving DecidableEq

/-- A part of a text. -/
inductive Segment where
  | shown (s : List Char)
  | code (purpose : Purpose) (s : List Char)
deriving DecidableEq

namespace Escape

/-- The character that starts a sequence. -/
def introducer : Char := '\x1b'

/-- The part of a sequence that its next characters belong to. -/
inductive Part where
  | entry
  | parameters
  | intermediates
deriving DecidableEq

/-- What a terminal is reading. -/
inductive Stage where
  /-- Characters to be shown. -/
  | ground
  /-- The character behind an introducer. -/
  | start
  /-- A sequence of a character set or the like, which one more letter ends. -/
  | intermediate
  /-- A control sequence, with the numbers of its marks and of its separators. A letter ends it. -/
  | control (part : Part) (marks separators : Nat)
  /-- The rest of a control sequence that makes no sense. -/
  | ignored
  /-- A command to the system, which the bell ends. -/
  | command
  /-- The head of a string for a device. -/
  | device (part : Part)
  /-- A string, which its terminator ends. -/
  | string
deriving DecidableEq

/-- What a character does. -/
structure Step where
  /-- What comes next. -/
  stage : Stage
  /-- The number of bytes that it shows. -/
  bytes : Nat
  /-- The sequence that it ends. -/
  ends : Option Purpose

def Step.into (s : Stage) : Step := ⟨s, 0, none⟩

/-- One byte is shown, and nothing else changes. -/
def Step.byte (s : Stage) : Step := ⟨s, 1, none⟩

/-- The character is the last one of a sequence. -/
def Step.last (purpose : Purpose) : Step := ⟨.ground, 0, some purpose⟩

/-- The characters that cancel a sequence. -/
def cancels (c : Char) : Bool := c = '\x18' || c = '\x1a'

/-- The most marks and separators that a control sequence may have. -/
def maxMarks : Nat := 1

def maxSeparators : Nat := 31

/-- The bytes that are control characters by themselves. -/
def isControlByte (b : UInt8) : Bool := (0x80 ≤ b && b ≤ 0x8f) || (0x91 ≤ b && b ≤ 0x9a) || b = 0x9c

/-- The terminator of a string is a byte, and a byte of a character will do. The bytes of the character
behind it stand by themselves. -/
def stringStep (c : Char) : Step :=
  match (String.utf8EncodeChar c).dropWhile (· ≠ 0x9c) with
  | [] => .into .string
  | _ :: bytes => ⟨.ground, bytes.countP isControlByte, none⟩

/-- A character of a control sequence that is neither a control character nor beyond the last letter. -/
def controlStep (part : Part) (marks separators : Nat) (c : Char) : Step :=
  if c ≤ '/' then .into (.control .intermediates (marks + 1) separators)
  else if '@' ≤ c then
    if maxMarks < marks || maxSeparators < separators then .into .ground
    else .last (if c = 'm' && marks = 0 then .style else .other)
  else if part = .intermediates then .into .ignored
  else if c ≤ '9' then .into (.control .parameters marks separators)
  else if c ≤ ';' then .into (.control .parameters marks (separators + 1))
  else if part = .entry then .into (.control .parameters (marks + 1) separators)
  else .into .ignored

/-- Such a character in the head of a string for a device. -/
def deviceStep (part : Part) (c : Char) : Step :=
  if c ≤ '/' then .into (.device .intermediates)
  else if '@' ≤ c || part = .intermediates || ('<' ≤ c && part = .parameters) then .into .string
  else .into (.device .parameters)

/-- The character behind an introducer. -/
def startStep (c : Char) : Step :=
  if c ≤ '/' then .into .intermediate
  else if c = '[' then .into (.control .entry 0 0)
  else if c = ']' then .into .command
  else if c = 'P' then .into (.device .entry)
  else if c ∈ ['X', '^', '_'] then .into .string
  else .last .other

/-- The characters that sequences are made of. -/
def isGraphic (c : Char) : Bool := ' ' ≤ c && c ≤ '~'

/-- Control characters take effect inside a sequence, but not inside a string. -/
def Stage.step (s : Stage) (c : Char) : Step :=
  let ends := if s = .command then some .other else none
  if c = introducer then ⟨.start, 0, ends⟩
  else if cancels c then ⟨.ground, 1, ends⟩
  else match s with
    | .ground => ⟨.ground, c.utf8Size, none⟩
    | .command => if c = '\x07' then .last .other else .into .command
    | .string => stringStep c
    | .device part => if isGraphic c then deviceStep part c else .into (.device part)
    | .start => if c < ' ' then .byte .start else if isGraphic c then startStep c else .into .start
    | .intermediate =>
      if c < ' ' then .byte .intermediate
      else if '0' ≤ c && c ≤ '~' then .last .other
      else .into .intermediate
    | .control part marks separators =>
      if c < ' ' then .byte (.control part marks separators)
      else if isGraphic c then controlStep part marks separators c
      else .into (.control part marks separators)
    | .ignored =>
      if c < ' ' then .byte .ignored
      else if '@' ≤ c && c ≤ '~' then .into .ground
      else .into .ignored

end Escape

open Escape

/-- The segment of shown characters. -/
def shownSegment (s : List Char) : List Segment := if s.isEmpty then [] else [.shown s]

/-- The characters that fit into the given number of bytes, and the other ones. -/
def splitBytes (n : Nat) : List Char → List Char × List Char
  | [] => ([], [])
  | c :: s =>
    if c.utf8Size ≤ n then
      let (first, rest) := splitBytes (n - c.utf8Size) s
      (c :: first, rest)
    else ([], c :: s)

/-- The segments of what lies behind the last sequence, up to the end of the next one. -/
def finished (bytes : Nat) (purpose : Purpose) (s : List Char) : List Segment :=
  let (first, rest) := splitBytes bytes s
  shownSegment first ++ [.code purpose rest]

/-- The segments of what lies behind the last sequence if no other one ends: it is shown as it is, but
an introducer in front of another one is not. -/
def unfinished (run : List Char) : List Char → List Segment
  | [] => shownSegment run.reverse
  | c :: cs =>
    if c = introducer && cs.head? = some introducer then
      shownSegment run.reverse ++ .code .other [c] :: unfinished [] cs
    else unfinished (c :: run) cs

/-- The segments of the rest of a text. What lies behind the last sequence is given from its end, with
the number of bytes that are shown there. If there are none, an unfinished sequence is not shown. -/
def segmentsFrom (stage : Stage) (bytes : Nat) (run : List Char) : List Char → List Segment
  | [] => if bytes = 0 then [.code .other run.reverse] else unfinished [] run.reverse
  | c :: cs =>
    let step := stage.step c
    match step.ends with
    | some purpose =>
      finished (bytes + step.bytes) purpose (c :: run).reverse ++ segmentsFrom step.stage 0 [] cs
    | none => segmentsFrom step.stage (bytes + step.bytes) (c :: run) cs

/-- The runs of shown characters and the sequences of a text. -/
def segments (s : List Char) : List Segment := segmentsFrom .ground 0 [] s

/-- The columns that a text takes. Sequences take none, and characters do not merge across them. -/
def shownWidth (s : String) : Nat :=
  (segments s.toList).foldl
    (fun n segment => match segment with
      | .shown run => n + width run
      | .code _ _ => n)
    0

end BehavioralAutomata.Text
