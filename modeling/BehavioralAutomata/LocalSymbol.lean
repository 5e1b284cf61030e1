import BehavioralAutomata.Alphabet.Basic

/-!
# Symbols as a procedure sees them

A `LocalSymbol` is a symbol together with its kind and, for a call, whether the called procedure is
known to end. A call that is not usable can not be replaced by a whole invocation, so nothing can
follow it locally. A usable and an unusable call of one procedure are different symbols.
-/

namespace BehavioralAutomata

/-- A symbol as a procedure sees it while it is learned. -/
inductive LocalSymbol (α : Type u) where
  | internal (symbol : α)
  | call (symbol : α) (usable : Bool)
  | ret (symbol : α)
deriving DecidableEq

namespace LocalSymbol

variable {α : Type u}

def symbol : LocalSymbol α → α
  | .internal s => s
  | .call s _ => s
  | .ret s => s

def kind : LocalSymbol α → SymbolKind
  | .internal _ => .internal
  | .call _ _ => .call
  | .ret _ => .ret

/-- The symbol may occur anywhere in a local word. -/
def isUsable : LocalSymbol α → Bool
  | .call _ usable => usable
  | _ => true

def isCall : LocalSymbol α → Bool
  | .call _ _ => true
  | _ => false

def isReturn : LocalSymbol α → Bool
  | .ret _ => true
  | _ => false

/-- Unusable symbols are marked with a star. -/
instance [Render α] : Render (LocalSymbol α) :=
  ⟨fun s => if s.isUsable then render s.symbol else render s.symbol ++ "*"⟩

/-- By symbol, then unusable before usable, then by kind. -/
instance [Ord α] : Ord (LocalSymbol α) where
  compare s t :=
    (compare s.symbol t.symbol).then <|
      (compare s.isUsable.toNat t.isUsable.toNat).then (compare s.kind.rank t.kind.rank)

end LocalSymbol

end BehavioralAutomata
