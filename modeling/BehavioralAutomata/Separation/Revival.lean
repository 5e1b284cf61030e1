import BehavioralAutomata.System.Basic

/-!
# Back to acceptance

A call may enter a procedure in a rejecting state, and the word may still be accepted again later.
`System.revival?` looks for the symbols that lead from such an entry back to acceptance. Words for the
procedures are found round by round, because they may pass through further rejecting entries.
-/

namespace BehavioralAutomata.System

variable {α : Type u} {β : Type v} [DecidableEq α] [DecidableEq β]

/-- A word that leads from the entry `q` of `P` to acceptance, where `known` has words for other
procedures. -/
def revivalFrom? (S : System α β) (known : AssocMap α (List α)) (P : Procedure α β) (q : Nat) :
    Option (List α) :=
  if P.isAccepting q then some []
  else S.alphabet.symbols.findSome? fun a =>
    (P.liveSuccessor q a).bind fun _ =>
      match S.alphabet.kind? a with
      | some .call => (known.get? a).map (a :: ·)
      | _ => some [a]

/-- Tries to find a word for a procedure that has none. -/
def addRevival (S : System α β) (known : AssocMap α (List α)) (c : α) (A : Acceptor β) :
    AssocMap α (List α) :=
  match known.get? c with
  | some _ => known
  | none =>
    match A.start.bind (S.revivalFrom? known ⟨A, S.read⟩) with
    | some w => known.insert c w
    | none => known

/-- One round through all procedures. -/
def addRevivals (S : System α β) (known : AssocMap α (List α)) : AssocMap α (List α) :=
  S.procedures.entries.foldl (fun known (c, A) => S.addRevival known c A) known

/-- Rounds until one finds nothing new. -/
def revivals (S : System α β) : (rounds : Nat) → AssocMap α (List α) → AssocMap α (List α)
  | 0, known => known
  | n + 1, known =>
    let next := S.addRevivals known
    if next.size = known.size then known else S.revivals n next

/-- A word that leads from the entry of a call to acceptance. Every round but the last finds a word for
another procedure, so there are no more rounds than procedures. -/
def revival? (S : System α β) (c : α) : Option (List α) :=
  (S.revivals S.procedures.size ∅).get? c

end BehavioralAutomata.System
