import BehavioralAutomata.Acceptor.Basic

/-!
# Blueprints of acceptors

A `Blueprint` lists edges and verdicts and leaves the number of states open: there are as many as the
greatest number that is mentioned asks for. Edges that contradict each other are refused.
-/

namespace BehavioralAutomata

/-- What an acceptor is built from. -/
structure Blueprint (α : Type u) where
  edges : List (Nat × α × Nat)
  /-- Verdicts of single states; the last one for a state counts. -/
  verdicts : List (Nat × Bool)
  /-- The verdict of states that `verdicts` leaves out. -/
  default : Bool

namespace Blueprint

variable {α : Type u}

/-- One more than the greatest state that is mentioned. -/
def size (B : Blueprint α) (start : Nat) : Nat :=
  (B.edges.flatMap (fun e => [e.1, e.2.2]) ++ B.verdicts.map Prod.fst).foldl max start + 1

variable [DecidableEq α]

/-- Adds one edge, which must not contradict an edge that is there. -/
def addEdge (A : Acceptor α) (e : Nat × α × Nat) : Except (AcceptorError α) (Acceptor α) := do
  let (old, A) ← A.addEdge e.1 e.2.1 e.2.2
  if old.all (· = e.2.2) then .ok A else .error (.ambiguous e.1 e.2.1)

/-- The acceptor with the given initial state. -/
def build (B : Blueprint α) (start : Nat) : Except (AcceptorError α) (Acceptor α) := do
  let A ← B.verdicts.foldlM (fun A v => A.setAccepting v.1 v.2)
    (Acceptor.ofVerdicts (List.replicate (B.size start) B.default))
  let A ← B.edges.foldlM addEdge A
  A.setInitial start

end Blueprint

end BehavioralAutomata
