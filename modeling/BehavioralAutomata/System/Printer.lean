import BehavioralAutomata.Acceptor.Printer
import BehavioralAutomata.System.Local
import BehavioralAutomata.System.Plain

/-!
# Printing systems

A system is printed as its alphabet, followed by the name and the table of every procedure. The initial
procedure is marked.
-/

namespace BehavioralAutomata

variable {α : Type u} {β : Type v} [DecidableEq α] [Render α] [Text.Renderer]

/-- The name and the table of every procedure, each ended by a line break. -/
def System.procedureTables [DecidableEq β] [Ord β] [Render β] (S : System α β) : String :=
  String.join <| S.procedures.entries.map fun (c, A) =>
    (if S.initialCall = some c then "->" else "") ++ render c ++ "\n" ++ A.table ++ "\n"

def PlainSystem.describe [Ord α] (S : PlainSystem α) : String :=
  "SBA over " ++ S.alphabet.describe ++ "\n" ++ S.procedureTables

def LocalSystem.describe [Ord α] (S : LocalSystem α) : String :=
  "SBA over " ++ S.alphabet.describe ++ " with mapping " ++ S.localAlphabet.describe ++ "\n" ++
    S.procedureTables

end BehavioralAutomata
