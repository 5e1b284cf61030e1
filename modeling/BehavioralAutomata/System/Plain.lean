import BehavioralAutomata.System.Basic

/-!
# Systems whose procedures read the symbols as they are

* `PlainSystem.ofProcedures`: every procedure must belong to a call.
* `PlainSystem.ofCalls`: they are known to belong to calls.
* `PlainSystem.modify`: changes one procedure and leaves the others as they are.
-/

namespace BehavioralAutomata

/-- A system with one acceptor over the symbols themselves per call. -/
structure PlainSystem (α : Type u) [DecidableEq α] extends System α α where
  read_eq : read = some
  isCall_of_mem : ∀ c ∈ procedures.keys, alphabet.isCall c = true

/-- Why procedures do not form a system. -/
inductive SystemError (α : Type u) where
  /-- There is a procedure for a symbol that is no call. -/
  | notCall (symbol : α)
deriving DecidableEq

def SystemError.message [Render α] : SystemError α → String
  | .notCall s => "procedure " ++ render s ++ " is registered for a non-call symbol"

namespace PlainSystem

variable {α : Type u} [DecidableEq α]

/-- The system with these procedures. A call that is repeated keeps its first place and takes its last
acceptor. -/
def ofProcedures (A : Alphabet α) (initialCall : Option α) (procedures : List (α × Acceptor α)) :
    Except (SystemError α) (PlainSystem α) :=
  let procedures := AssocMap.ofList procedures
  match h : procedures.keys.find? (!A.isCall ·) with
  | some c => .error (.notCall c)
  | none => .ok
    { alphabet := A, initialCall, procedures, read := some
      read_eq := rfl
      isCall_of_mem := by simpa using h }

/-- The system with these procedures of calls. -/
def ofCalls (A : Alphabet α) (initialCall : Option α) (procedures : AssocMap α (Acceptor α))
    (h : ∀ c ∈ procedures.keys, A.isCall c = true) : PlainSystem α :=
  { alphabet := A, initialCall, procedures, read := some, read_eq := rfl, isCall_of_mem := h }

/-- Changes the procedure of `c`, if there is one. -/
def modify (S : PlainSystem α) (c : α) (f : Acceptor α → Acceptor α) : PlainSystem α :=
  { S with
    procedures := S.procedures.modify c f
    isCall_of_mem := by
      rw [AssocMap.keys_modify]
      exact S.isCall_of_mem }

end PlainSystem

end BehavioralAutomata
