import BehavioralAutomata.Acceptor.Basic
import BehavioralAutomata.Alphabet.Basic
import BehavioralAutomata.System.Configuration

/-!
# Systems of behavioral automata

A `System` has one acceptor for every procedure. The active procedure reads internal symbols; a call
starts another procedure, for which the caller waits in the state behind the call; and the return
symbol ends the active procedure.

* `System.step`, `System.reached`: how symbols and words move between configurations.
* `System.accepts`: every local step must lead to an accepting state, so a configuration that is alive
  accepts, except right behind a call whose procedure starts in a rejecting state.
* `Procedure`: an acceptor as it looks from outside, where symbols may have other names than inside.
-/

namespace BehavioralAutomata

/-- An acceptor over `β` that reads symbols from `α`. A symbol without counterpart has no edges. -/
structure Procedure (α : Type u) (β : Type v) where
  acceptor : Acceptor β
  read : α → Option β

namespace Procedure

variable {α : Type u} {β : Type v}

def start (P : Procedure α β) : Option Nat := P.acceptor.start

def isAccepting (P : Procedure α β) (q : Nat) : Bool := P.acceptor.isAccepting q

def size (P : Procedure α β) : Nat := P.acceptor.size

variable [DecidableEq β]

def successor (P : Procedure α β) (q : Nat) (a : α) : Option Nat :=
  (P.read a).bind (P.acceptor.successor q)

/-- The successor, if it accepts. -/
def liveSuccessor (P : Procedure α β) (q : Nat) (a : α) : Option Nat :=
  (P.successor q a).filter P.isAccepting

/-- The accepting successor as a search looks it up: the edges of the state are read once for all
symbols. -/
theorem liveSuccessor_eq (P : Procedure α β) (q : Nat) (a : α) :
    P.liveSuccessor q a = (P.read a).bind (P.acceptor.liveEdges q).get? := by
  rw [liveSuccessor, successor]
  cases P.read a with
  | none => rfl
  | some b => exact (P.acceptor.get?_liveEdges q b).symm

def reachedFrom (P : Procedure α β) (q : Nat) : List α → Option Nat
  | [] => some q
  | a :: w => (P.successor q a).bind (P.reachedFrom · w)

def reached (P : Procedure α β) (w : List α) : Option Nat := P.start.bind (P.reachedFrom · w)

def accepts (P : Procedure α β) (w : List α) : Bool := (P.reached w).any P.isAccepting

theorem reachedFrom_append (P : Procedure α β) (q : Nat) (u v : List α) :
    P.reachedFrom q (u ++ v) = (P.reachedFrom q u).bind (P.reachedFrom · v) := by
  induction u generalizing q with
  | nil => rfl
  | cons a u ih =>
    simp only [List.cons_append, reachedFrom, Option.bind_assoc]
    exact congrArg _ (funext (ih ·))

end Procedure

/-- A system over the symbols `α` whose procedures are acceptors over `β`. -/
structure System (α : Type u) (β : Type v) where
  alphabet : Alphabet α
  /-- The call that every word but the empty one starts with. -/
  initialCall : Option α
  procedures : AssocMap α (Acceptor β)
  /-- What a symbol is for the procedures. -/
  read : α → Option β

namespace System

variable {α : Type u} {β : Type v}

/-- The number of states of all procedures. -/
def size (S : System α β) : Nat := S.procedures.values.foldl (fun n A => n + A.size) 0

variable [DecidableEq α]

/-- The procedure that a call invokes. -/
def procedure? (S : System α β) (c : α) : Option (Procedure α β) :=
  (S.procedures.get? c).map (⟨·, S.read⟩)

/-- The state in which the procedure of a call starts. -/
def entry? (S : System α β) (c : α) : Option Nat := (S.procedure? c).bind Procedure.start

/-- A configuration accepts if its top frame does. -/
def isAccepting (S : System α β) : Configuration α → Bool
  | .initial | .finished => true
  | .dead => false
  | .active top _ => (S.procedure? top.procedure).any (·.isAccepting top.state)

variable [DecidableEq β]

/-- Moves a frame along a symbol of its own procedure, to an accepting state. -/
def advance (S : System α β) (f : Frame α) (a : α) : Option (Frame α) :=
  (S.procedure? f.procedure).bind fun P =>
    (P.liveSuccessor f.state a).map fun q => { f with state := q }

/-- The configuration behind one more symbol. -/
def step (S : System α β) (c : Configuration α) (a : α) : Configuration α :=
  match c with
  | .initial =>
    if S.alphabet.kind? a = some .call ∧ S.initialCall = some a then
      match S.entry? a with
      | some q => .active ⟨a, q⟩ []
      | none => .dead
    else .dead
  | .active top below =>
    match S.alphabet.kind? a with
    | some .internal =>
      match S.advance top a with
      | some top => .active top below
      | none => .dead
    | some .call =>
      match S.entry? a, S.advance top a with
      | some q, some caller => .active ⟨a, q⟩ (caller :: below)
      | _, _ => .dead
    | some .ret =>
      match S.advance top a, below with
      | some _, caller :: below => .active caller below
      | some _, [] => .finished
      | none, _ => .dead
    | none => .dead
  | .finished | .dead => .dead

/-- The configuration behind a word. -/
def run (S : System α β) (c : Configuration α) (w : List α) : Configuration α := w.foldl S.step c

/-- The configuration that a word leads to from the beginning. -/
def reached (S : System α β) (w : List α) : Configuration α := S.run .initial w

def accepts (S : System α β) (w : List α) : Bool := S.isAccepting (S.reached w)

/-- All configurations on the way, the first and the last one included. -/
def trace (S : System α β) (c : Configuration α) : List α → List (Configuration α)
  | [] => [c]
  | a :: w => c :: S.trace (S.step c a) w

@[simp] theorem step_dead (S : System α β) (a : α) : S.step .dead a = .dead := rfl

@[simp] theorem run_nil (S : System α β) (c : Configuration α) : S.run c [] = c := rfl

@[simp] theorem run_cons (S : System α β) (c : Configuration α) (a : α) (w : List α) :
    S.run c (a :: w) = S.run (S.step c a) w := rfl

theorem run_append (S : System α β) (c : Configuration α) (u v : List α) :
    S.run c (u ++ v) = S.run (S.run c u) v := List.foldl_append

@[simp] theorem run_dead (S : System α β) (w : List α) : S.run .dead w = .dead := by
  induction w with
  | nil => rfl
  | cons a w ih => exact ih

end System

end BehavioralAutomata
