import BehavioralAutomata.Acceptor.Basic

/-!
# Reachable states and their shortest words

* `Acceptor.representatives`: the states that can be reached with the symbols of a list, each with the
  word that is shortest and, among the shortest, first in the order of the list.
* `Acceptor.isPrefixClosed`: no rejecting state that can be reached leads to an accepting one.
-/

namespace BehavioralAutomata.Acceptor

variable {α : Type u} [DecidableEq α]

/-- The edges of `q` that lead to states which neither `seen` nor an earlier edge leads to. -/
def newEdges (A : Acceptor α) (q : Nat) (seen : List Nat) : List α → List (α × Nat)
  | [] => []
  | a :: symbols =>
    match A.successor q a with
    | some p =>
      if p ∈ seen then A.newEdges q seen symbols else (a, p) :: A.newEdges q (p :: seen) symbols
    | none => A.newEdges q seen symbols

/-- Breadth-first search. The queue holds the states that were seen but not left yet. -/
def discover (A : Acceptor α) (symbols : List α) (seen : List Nat) :
    (fuel : Nat) → (queue : List (List α × Nat)) → List (List α × Nat)
  | 0, _ => []
  | _ + 1, [] => []
  | fuel + 1, (w, q) :: queue =>
    let new := A.newEdges q seen symbols
    (w, q) :: A.discover symbols (new.map Prod.snd ++ seen) fuel
      (queue ++ new.map fun (a, p) => (w ++ [a], p))

/-- The reachable states with their shortest words, in order of discovery. A search leaves every state
at most once, so it never takes more steps than there are states. -/
def representatives (A : Acceptor α) (symbols : List α) : List (List α × Nat) :=
  match A.start with
  | some q => A.discover symbols [q] A.size [([], q)]
  | none => []

/-- One word for every state that can be reached. -/
def stateCover (A : Acceptor α) (symbols : List α) : List (List α) :=
  (A.representatives symbols).map Prod.fst

/-- No rejecting state that can be reached leads to an accepting one. -/
def isPrefixClosed (A : Acceptor α) : Bool :=
  (A.representatives A.labels).all fun (_, q) =>
    A.isAccepting q || A.labels.all fun a => (A.successor q a).all (!A.isAccepting ·)

end BehavioralAutomata.Acceptor
