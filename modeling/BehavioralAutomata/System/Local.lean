import BehavioralAutomata.LocalAlphabet
import BehavioralAutomata.System.Basic

/-!
# Systems whose procedures read local symbols

A procedure reads the current local symbol of what it is given. Edges for local symbols that are no
longer current stay in the acceptors and are never taken.
-/

namespace BehavioralAutomata

/-- A system whose procedures are acceptors over local symbols. -/
structure LocalSystem (α : Type u) [DecidableEq α] extends System α (LocalSymbol α) where
  localAlphabet : LocalAlphabet α
  read_eq : read = localAlphabet.get?

namespace LocalSystem

variable {α : Type u} [DecidableEq α]

def ofProcedures (A : Alphabet α) (B : LocalAlphabet α) (initialCall : Option α)
    (procedures : AssocMap α (Acceptor (LocalSymbol α))) : LocalSystem α :=
  { alphabet := A, initialCall, procedures, read := B.get?, localAlphabet := B, read_eq := rfl }

/-- The system without procedures, which accepts the empty word only. -/
def empty (A : Alphabet α) (B : LocalAlphabet α) : LocalSystem α := ofProcedures A B none ∅

end LocalSystem

end BehavioralAutomata
