import BehavioralAutomata.Acceptor.Completion
import BehavioralAutomata.Acceptor.Exploration
import BehavioralAutomata.Random.Source
import BehavioralAutomata.System.Plain

/-!
# Random systems

* `Random.totalSystem`: every state but two leads somewhere with every internal symbol and call.
* `Random.partialSystem`: each of these edges is there with probability one half.
* `Random.keylockSystem`: the procedures form a chain and accept a single word and its beginnings.

All procedures are completed with a rejecting state. The random numbers may come from any source.
-/

namespace BehavioralAutomata

/-- Why a system can not be drawn. -/
inductive GenerationError (α : Type) where
  | tooFewStates
  | noCalls
  | noInternals
  /-- A procedure is to have less than the two states that all procedures have. -/
  | underflow
  /-- A number is to be drawn below zero. -/
  | emptyRange
  /-- A list of `length` elements has none with this index. -/
  | missingIndex (i length : Nat)
  /-- A procedure accepts a word but not all of its beginnings. -/
  | notPrefixClosed
  | acceptor (e : AcceptorError α)
  | system (e : SystemError α)
deriving DecidableEq

def GenerationError.message [Render α] : GenerationError α → String
  | .tooFewStates => "procedures need more than two states"
  | .noCalls => "the alphabet has no call symbols"
  | .noInternals => "keylock systems need internal symbols"
  | .underflow => "attempt to subtract with overflow"
  | .emptyRange => "empty range: Unbounded..Excluded(0)"
  | .missingIndex i length => indexMessage i length
  | .notPrefixClosed => "assertion failed: dfa.is_prefix_closed()"
  | .acceptor e => e.message
  | .system e => e.message

/-- A computation that draws from a source with the states `G`. -/
abbrev Draw (G α : Type) : Type → Type := StateT G (Except (GenerationError α))

namespace Random

variable {G α : Type} [DecidableEq α]

/-- Adds an edge. -/
def connect (D : Acceptor α) (p : Nat) (a : α) (q : Nat) : Draw G α (Acceptor α) :=
  match D.addEdge p a q with
  | .ok (_, D) => pure D
  | .error e => throw (.acceptor e)

/-- An acceptor with `n` accepting states of which the first one is the initial state. -/
def rows (n : Nat) : Draw G α (Acceptor α) :=
  match (Acceptor.ofVerdicts (List.replicate n true)).setInitial 0 with
  | .ok D => pure D
  | .error e => throw (.acceptor e)

def system (A : Alphabet α) (initialCall : Option α) (procedures : List (α × Acceptor α)) :
    Draw G α (PlainSystem α) :=
  match PlainSystem.ofProcedures A initialCall procedures with
  | .ok S => pure S
  | .error e => throw (.system e)

variable [RandomSource G]

/-- A number below `n`. -/
def below (n : Nat) : Draw G α Nat :=
  if n = 0 then throw .emptyRange else modifyGet (RandomSource.below · n)

def coin : Draw G α Bool := modifyGet RandomSource.coin

/-- An element of a list. -/
def pick (xs : List α) : Draw G α α := do
  let i ← below xs.length
  match xs[i]? with
  | some x => return x
  | none => throw (.missingIndex i xs.length)

/-- Adds a last accepting state, to which the return symbol leads from every other state with
probability one half, and completes the procedure. -/
def finish (A : Alphabet α) (D : Acceptor α) : Draw G α (Acceptor α) := do
  let last := D.size
  let D ← (List.range last).foldlM
    (fun D q => do if ← coin then connect D q A.ret last else pure D) (D.addState true)
  if D.isPrefixClosed then return (D.complete A.symbols).2 else throw .notPrefixClosed

/-- Draws an edge to one of the first `n` states. -/
def drawEdge (n : Nat) (D : Acceptor α) (q : Nat) (a : α) : Draw G α (Acceptor α) := do
  connect D q a (← below n)

/-- As `drawEdge`, but the edge is there with probability one half. -/
def tossEdge (n : Nat) (D : Acceptor α) (q : Nat) (a : α) : Draw G α (Acceptor α) := do
  if ← coin then drawEdge n D q a else pure D

/-- Draws the edges of the first `n` states for all symbols but the return symbol. -/
def drawEdges (A : Alphabet α) (n : Nat) (edge : Acceptor α → Nat → α → Draw G α (Acceptor α))
    (D : Acceptor α) : Draw G α (Acceptor α) :=
  (List.range n).foldlM (fun D q => A.procedural.foldlM (fun D a => edge D q a) D) D

/-- A procedure with `size` states in which every symbol but the return symbol leads on. -/
def totalProcedure (A : Alphabet α) (size : Nat) : Draw G α (Acceptor α) := do
  let n := size - 2
  finish A (← drawEdges A n (drawEdge n) (← rows n))

/-- As `totalProcedure`, but each edge is there with probability one half. -/
def partialProcedure (A : Alphabet α) (size : Nat) : Draw G α (Acceptor α) :=
  if size < 2 then throw .underflow
  else do
    let n := size - 2
    finish A (← drawEdges A n (tossEdge n) (← rows (max n 1)))

/-- Each call is as likely as any other to be the initial one. -/
def initialCall (A : Alphabet α) : Draw G α α :=
  if A.calls.isEmpty then throw .noCalls else pick A.calls

/-- A system whose procedures are drawn one after the other. -/
def systemOf (A : Alphabet α) (size : Nat) (procedure : Draw G α (Acceptor α)) :
    Draw G α (PlainSystem α) :=
  if size ≤ 2 then throw .tooFewStates
  else do
    let procedures ← A.calls.mapM fun c => return (c, ← procedure)
    system A (some (← initialCall A)) procedures

def totalSystem (A : Alphabet α) (size : Nat) : Draw G α (PlainSystem α) :=
  systemOf A size (totalProcedure A size)

def partialSystem (A : Alphabet α) (size : Nat) : Draw G α (PlainSystem α) :=
  systemOf A size (partialProcedure A size)

/-! ## Keylocks -/

/-- What a procedure of a keylock reads first: the next call, if there is one, or else an internal
symbol. -/
def firstSymbol (A : Alphabet α) : Option α → Draw G α α
  | some c => return c
  | none => pick A.internals

/-- A procedure of a keylock: it reads the first symbol, then `size - 2` internal symbols, and then
returns. -/
def keylockProcedure (A : Alphabet α) (size : Nat) (next : Option α) : Draw G α (Acceptor α) := do
  let first ← firstSymbol A next
  let D ← connect (← rows (size + 1)) 0 first 1
  let D ← (List.range' 1 (size - 2)).foldlM
    (fun D q => do connect D q (← pick A.internals) (q + 1)) D
  let D ← connect D (size - 1) A.ret size
  return (D.complete A.symbols).2

/-- Each procedure calls the next one of the list. -/
def keylockProcedures (A : Alphabet α) (size : Nat) : List α → Draw G α (List (α × Acceptor α))
  | [] => return []
  | c :: calls => do
    let D ← keylockProcedure A size calls.head?
    return (c, D) :: (← keylockProcedures A size calls)

/-- A chain of procedures in random order. -/
def keylockSystem (A : Alphabet α) (size : Nat) : Draw G α (PlainSystem α) :=
  if size ≤ 2 then throw .tooFewStates
  else if A.internals.isEmpty then throw .noInternals
  else do
    let calls ← modifyGet (RandomSource.shuffle · A.calls)
    system A calls.head? (← keylockProcedures A size calls)

end Random

end BehavioralAutomata
