import BehavioralAutomata.AssocMap
import BehavioralAutomata.LocalSymbol

/-!
# Local alphabets

A `LocalAlphabet` holds the current local symbol of every symbol. In the beginning no call is usable;
`LocalAlphabet.upgrade` makes one usable.
-/

namespace BehavioralAutomata

/-- The current local symbol of each symbol. -/
structure LocalAlphabet (α : Type u) where
  entries : AssocMap α (LocalSymbol α)
deriving DecidableEq

/-- Why a symbol can not be made usable. -/
inductive UpgradeError where
  | notCall
deriving DecidableEq

def UpgradeError.message : UpgradeError → String
  | .notCall => "only calls can be upgraded"

namespace LocalAlphabet

variable {α : Type u} [DecidableEq α]

/-- The local symbol in the beginning: calls are not usable. -/
def first (A : Alphabet α) (s : α) : LocalSymbol α :=
  match A.kind? s with
  | some .call => .call s false
  | some .internal => .internal s
  | _ => .ret s

/-- The local alphabet in which no call is usable. -/
def ofAlphabet (A : Alphabet α) : LocalAlphabet α :=
  ⟨.ofList (A.symbols.map fun s => (s, first A s))⟩

def get? (B : LocalAlphabet α) (s : α) : Option (LocalSymbol α) := B.entries.get? s

/-- Makes `l` the local symbol of the symbol that it stands for. -/
def set (B : LocalAlphabet α) (l : LocalSymbol α) : LocalAlphabet α := ⟨B.entries.insert l.symbol l⟩

/-- Makes a call usable. Also answers its new local symbol if it was not usable before. -/
def upgrade (B : LocalAlphabet α) (s : α) :
    Except UpgradeError (Option (LocalSymbol α) × LocalAlphabet α) :=
  match B.get? s with
  | none => .ok (none, B)
  | some l =>
    if !l.isCall then .error .notCall
    else if l.isUsable then .ok (none, B)
    else .ok (some (.call s true), B.set (.call s true))

/-- The local symbols, in the order of the alphabet. -/
def symbols (B : LocalAlphabet α) : List (LocalSymbol α) := B.entries.values

/-- The local word of `w`, if every symbol is known. -/
def localWord? (B : LocalAlphabet α) (w : List α) : Option (List (LocalSymbol α)) := w.mapM B.get?

@[simp] theorem localWord?_nil (B : LocalAlphabet α) : B.localWord? [] = some [] := rfl

theorem localWord?_cons_eq_some_iff {B : LocalAlphabet α} {s : α} {w : List α}
    {v : List (LocalSymbol α)} :
    B.localWord? (s :: w) = some v ↔
      ∃ l u, B.get? s = some l ∧ B.localWord? w = some u ∧ v = l :: u := by
  simp only [localWord?, List.mapM_cons, Option.bind_eq_bind, Option.bind_eq_some_iff,
    Option.pure_def, Option.some.injEq]
  constructor
  · rintro ⟨l, hl, u, hu, rfl⟩
    exact ⟨l, u, hl, hu, rfl⟩
  · rintro ⟨l, u, hl, hu, rfl⟩
    exact ⟨l, hl, u, hu, rfl⟩

theorem localWord?_append {B : LocalAlphabet α} {u w : List α} {v z : List (LocalSymbol α)}
    (hu : B.localWord? u = some v) (hw : B.localWord? w = some z) :
    B.localWord? (u ++ w) = some (v ++ z) := by
  rw [localWord?] at hu hw ⊢
  rw [List.mapM_append, hu, hw]
  rfl

theorem localWord?_append_singleton {B : LocalAlphabet α} {u : List α} {v : List (LocalSymbol α)}
    {a : α} {l : LocalSymbol α} (hu : B.localWord? u = some v) (ha : B.get? a = some l) :
    B.localWord? (u ++ [a]) = some (v ++ [l]) :=
  localWord?_append hu (localWord?_cons_eq_some_iff.2 ⟨l, [], ha, rfl, rfl⟩)

/-- The two local alphabets have the same entries, whatever their order. -/
def sameEntries (B C : LocalAlphabet α) : Bool := B.entries.sameEntries C.entries

@[simp] theorem get?_set (B : LocalAlphabet α) (l : LocalSymbol α) (s : α) :
    (B.set l).get? s = if s = l.symbol then some l else B.get? s := by
  simp [set, get?]

def describe [Render α] (B : LocalAlphabet α) : String :=
  "[" ++ ", ".intercalate (B.entries.entries.map fun e => render e.1 ++ " -> " ++ render e.2) ++ "]"

end LocalAlphabet

end BehavioralAutomata
