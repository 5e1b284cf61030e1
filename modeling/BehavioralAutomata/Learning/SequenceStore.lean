import BehavioralAutomata.Acceptor.Exploration
import BehavioralAutomata.Alphabet.Matching
import BehavioralAutomata.Learning.Error

/-!
# Access and terminating sequences

The access sequence of a procedure is a word behind which it can be called; its terminating sequence is
a word that it can read before it returns. Both are taken from words that the system accepts.

* `SequenceStore.scan`: takes the first sequences from a word. A store that prefers short terminating
  sequences also replaces one whenever the word has a shorter one.
* `SequenceStore.scanHypotheses`: looks for short terminating sequences in hypotheses.
-/

namespace BehavioralAutomata

/-- Which terminating sequence a store keeps. -/
inductive Preference where
  /-- The first one that is found. -/
  | first
  /-- The first one of those that are shortest. -/
  | shortest
deriving DecidableEq

/-- The sequences of the procedures that were found so far. -/
structure SequenceStore (α : Type) where
  alphabet : Alphabet α
  preference : Preference
  access : AssocMap α (List α)
  terminating : AssocMap α (List α)
deriving DecidableEq

/-- The calls for which a scan found a first access sequence or a first terminating sequence. -/
structure Discoveries (α : Type) where
  calls : List α
  terminations : List α
deriving DecidableEq

def Discoveries.isEmpty (d : Discoveries α) : Bool := d.calls.isEmpty && d.terminations.isEmpty

namespace SequenceStore

variable {α : Type} [DecidableEq α]

def empty (A : Alphabet α) (preference : Preference) : SequenceStore α := ⟨A, preference, ∅, ∅⟩

def accessSequence (S : SequenceStore α) (c : α) : Except (LearningError α) (List α) :=
  (S.access.get? c).elim (.error (.noAccessSequence c)) .ok

def terminatingSequence (S : SequenceStore α) (c : α) : Except (LearningError α) (List α) :=
  (S.terminating.get? c).elim (.error (.noTerminatingSequence c)) .ok

def hasTerminating (S : SequenceStore α) (c : α) : Bool := S.terminating.contains c

/-! ## Scanning accepted words -/

/-- What a procedure reads before it returns, where `after` is the word behind its call and `n` the
offset of the return that ends it. -/
def body (after : List (α × Option Nat)) (n : Nat) : List α := (after.take n).map Prod.fst

/-- Records the access sequence of `c`, whose symbols are `before` from its end, and the body of an
invocation that returns at `ret?`, where there were none. -/
def recordFirst (S : SequenceStore α) (d : Discoveries α) (before : List α) (c : α)
    (ret? : Option Nat) (after : List (α × Option Nat)) : SequenceStore α × Discoveries α :=
  let (S, d) :=
    if S.access.contains c then (S, d)
    else ({ S with access := S.access.insert c before.reverse },
      { d with calls := d.calls ++ [c] })
  if S.terminating.contains c then (S, d)
  else match ret? with
    | some n => ({ S with terminating := S.terminating.insert c (body after n) },
        { d with terminations := d.terminations ++ [c] })
    | none => (S, d)

/-- Records the first sequences that a word shows, which is given from the position behind `before`
with its matching returns. -/
def scanFirst (S : SequenceStore α) (d : Discoveries α) (before : List α) :
    List (α × Option Nat) → SequenceStore α × Discoveries α
  | [] => (S, d)
  | (s, r) :: w =>
    if S.alphabet.isCall s then
      let (S, d) := S.recordFirst d before s r w
      S.scanFirst d (s :: before) w
    else S.scanFirst d (s :: before) w

/-- A sequence of `n` symbols is shorter than the terminating sequence of `c`, or the first one. -/
def improves (S : SequenceStore α) (c : α) (n : Nat) : Bool :=
  (S.terminating.get? c).all (n < ·.length)

/-- Replaces terminating sequences by shorter ones that a word shows, which is given with its matching
returns. -/
def scanShorter (S : SequenceStore α) : List (α × Option Nat) → SequenceStore α
  | [] => S
  | (s, r) :: w =>
    if S.alphabet.isCall s then
      match r with
      | some n =>
        if S.improves s n then
          scanShorter { S with terminating := S.terminating.insert s (body w n) } w
        else S.scanShorter w
      | none => S.scanShorter w
    else S.scanShorter w

/-- Takes sequences from a word that the system accepts, and answers which are the first ones. -/
def scan (S : SequenceStore α) (w : List α) : Discoveries α × SequenceStore α :=
  let marked := S.alphabet.withReturns w
  let (S, d) := S.scanFirst ⟨[], []⟩ [] marked
  match S.preference with
  | .first => (d, S)
  | .shortest => (d, S.scanShorter marked)

/-! ## Searching hypotheses -/

/-- The word that a local word stands for, in which every usable call becomes an invocation. -/
def expand? (S : SequenceStore α) : List (LocalSymbol α) → Option (List α)
  | [] => some []
  | .internal a :: w => (S.expand? w).map (a :: ·)
  | .call c true :: w => do
    let t ← S.terminating.get? c
    let v ← S.expand? w
    return [c] ++ t ++ [S.alphabet.ret] ++ v
  | _ :: _ => none

/-- A local word leads the hypothesis to an accepting state from which it can return. -/
def mayReturn (H : Acceptor (LocalSymbol α)) (ret : LocalSymbol α)
    (w : List (LocalSymbol α)) : Bool :=
  (((H.reached w).filter H.isAccepting).bind (H.successor · ret)).any H.isAccepting

/-- Uses the local word `w` of the procedure `c` as terminating sequence, if it is one and shorter
than the one that is there. Also answers whether it was used. -/
def offer (S : SequenceStore α) (c : α) (H : Acceptor (LocalSymbol α)) (ret : LocalSymbol α)
    (w : List (LocalSymbol α)) : Bool × SequenceStore α :=
  if mayReturn H ret w then
    match S.expand? w with
    | some t =>
      if S.improves c t.length then (true, { S with terminating := S.terminating.insert c t })
      else (false, S)
    | none => (false, S)
  else (false, S)

/-- Offers the representative of every state of a hypothesis. -/
def scanHypothesis (S : SequenceStore α) (c : α) (H : Acceptor (LocalSymbol α))
    (representative : List (LocalSymbol α) → List (LocalSymbol α))
    (inputs : List (LocalSymbol α)) (ret : LocalSymbol α) : Bool × SequenceStore α :=
  (H.stateCover inputs).foldl
    (fun (used, S) w =>
      let (b, S) := S.offer c H ret (representative w)
      (used || b, S))
    (false, S)

/-- Searches hypotheses for terminating sequences, if short ones are preferred. `representative?` has
the representatives of the states of each procedure that is learned. Answers the calls whose
terminating sequence was recorded or replaced. -/
def scanHypotheses (S : SequenceStore α)
    (hypotheses : List (α × Acceptor (LocalSymbol α)))
    (representative? : α → Option (List (LocalSymbol α) → List (LocalSymbol α)))
    (inputs : List (LocalSymbol α)) : List α × SequenceStore α :=
  match S.preference, inputs.find? (·.isReturn) with
  | .shortest, some ret =>
    hypotheses.foldl
      (fun (out, S) (c, H) =>
        match representative? c with
        | some representative =>
          let (used, S) := S.scanHypothesis c H representative inputs ret
          (if used && !out.contains c then out ++ [c] else out, S)
        | none => (out, S))
      ([], S)
  | _, _ => ([], S)

end SequenceStore

end BehavioralAutomata
