import BehavioralAutomata.Acceptor.Basic
import BehavioralAutomata.Render
import BehavioralAutomata.Text.Renderer

/-!
# Listing and printing acceptors

Edges and symbols are listed in ascending order of the symbols, whatever the order in which they were
added. `Acceptor.table` has one row per state and one column per symbol.
-/

namespace BehavioralAutomata.Acceptor

variable {α : Type u} [Ord α]

/-- The edges in ascending order of their symbols. -/
def State.sortedEdges (s : State α) : List (α × Nat) :=
  s.edges.entries.mergeSort fun e f => (compare e.1 f.1).isLE

/-- The edges that leave a state, or `none` if the state does not exist. -/
def edgesFrom? (A : Acceptor α) (q : Nat) : Option (List (α × Nat)) :=
  A.states[q]?.map State.sortedEdges

/-- All edges, by state and symbol. -/
def edges (A : Acceptor α) : List (Nat × α × Nat) :=
  A.states.toList.zipIdx.flatMap fun (s, p) => s.sortedEdges.map fun (a, q) => (p, a, q)

variable [DecidableEq α]

/-- The symbols that some edge carries, in ascending order. -/
def symbols (A : Acceptor α) : List α := A.labels.mergeSort fun a b => (compare a b).isLE

variable [Render α] [Text.Renderer]

/-- A state's row: its number, green if it accepts and marked if it is the initial state, and where
each symbol leads. -/
def row (A : Acceptor α) (symbols : List α) (q : Nat) : List String :=
  let name := (if A.start = some q then "->" else "") ++ render q
  (if A.isAccepting q then Text.paint .green name else name) ::
    symbols.map fun a => (A.successor q a).elim "-" render

def table (A : Acceptor α) : String :=
  Text.layout ("DFA" :: A.symbols.map render)
    ((List.range A.size).map (A.row A.symbols))

end BehavioralAutomata.Acceptor
