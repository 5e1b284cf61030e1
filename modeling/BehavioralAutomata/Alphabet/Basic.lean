import BehavioralAutomata.Render

/-!
# Alphabets of call/return words

* `Alphabet`: internal symbols, call symbols and one return symbol, all of them different.
* `Alphabet.kind?`: which of the three a symbol is.
* `Alphabet.ofLists`: the only way in from outside; it names the first symbol that is declared twice.
-/

namespace BehavioralAutomata

/-- What a symbol does to the stack of active procedures. -/
inductive SymbolKind where
  /-- Invokes the procedure of the same name. -/
  | call
  /-- Is read by the active procedure. -/
  | internal
  /-- Ends the active procedure. -/
  | ret
deriving DecidableEq

namespace SymbolKind

/-- The word for a kind in messages. -/
def describe : SymbolKind → String
  | .call => "Call"
  | .internal => "Internal"
  | .ret => "Return"

/-- Calls come before internal symbols and these before the return symbol. -/
def rank : SymbolKind → Nat
  | .call => 0
  | .internal => 1
  | .ret => 2

end SymbolKind

/-- An alphabet whose symbols are internal symbols, calls and one return symbol. -/
structure Alphabet (α : Type u) where
  internals : List α
  calls : List α
  ret : α
  nodup : (internals ++ calls ++ [ret]).Nodup
deriving DecidableEq

/-- Why lists of symbols do not form an alphabet. -/
inductive AlphabetError (α : Type u) where
  /-- The symbol is declared twice with one kind. -/
  | duplicate (symbol : α)
  /-- The symbol is declared with two kinds. -/
  | overlap (symbol : α) (first second : SymbolKind)
deriving DecidableEq

def AlphabetError.message [Render α] : AlphabetError α → String
  | .duplicate s => "symbol `" ++ render s ++ "` is declared more than once"
  | .overlap s first second =>
    "symbol `" ++ render s ++ "` is declared both as " ++ first.describe ++ " and as " ++
      second.describe ++ " symbol"

namespace Alphabet

variable {α : Type u}

/-- The symbols that a procedure reads without ending: internal symbols, then calls. -/
def procedural (A : Alphabet α) : List α := A.internals ++ A.calls

/-- All symbols: internal symbols, calls and the return symbol. -/
def symbols (A : Alphabet α) : List α := A.procedural ++ [A.ret]

def size (A : Alphabet α) : Nat := A.symbols.length

/-- A line that lists the symbols by kind. -/
def describe [Render α] (A : Alphabet α) : String :=
  "internal \x7b" ++ ", ".intercalate (A.internals.map render) ++
    "\x7d, call \x7b" ++ ", ".intercalate (A.calls.map render) ++
    "\x7d, return " ++ render A.ret

variable [DecidableEq α]

/-- The kind of a symbol, or `none` for a symbol outside the alphabet. -/
def kind? (A : Alphabet α) (s : α) : Option SymbolKind :=
  if s ∈ A.internals then some .internal
  else if s ∈ A.calls then some .call
  else if s = A.ret then some .ret
  else none

def isInternal (A : Alphabet α) (s : α) : Bool := A.kind? s = some .internal

def isCall (A : Alphabet α) (s : α) : Bool := A.kind? s = some .call

def isReturn (A : Alphabet α) (s : α) : Bool := A.kind? s = some .ret

def contains (A : Alphabet α) (s : α) : Bool := (A.kind? s).isSome

omit [DecidableEq α] in
theorem nodup_calls (A : Alphabet α) : A.calls.Nodup :=
  (List.nodup_append.1 (List.nodup_append.1 A.nodup).1).2.1

theorem kind?_eq_internal_iff {A : Alphabet α} : A.kind? s = some .internal ↔ s ∈ A.internals := by
  grind [kind?]

theorem kind?_eq_call_iff {A : Alphabet α} : A.kind? s = some .call ↔ s ∈ A.calls := by
  have := A.nodup
  grind [kind?]

theorem kind?_eq_ret_iff {A : Alphabet α} : A.kind? s = some .ret ↔ s = A.ret := by
  have := A.nodup
  grind [kind?]

theorem mem_symbols_iff {A : Alphabet α} : s ∈ A.symbols ↔ A.contains s = true := by
  simp only [symbols, procedural, List.mem_append, List.mem_singleton, contains, kind?]
  by_cases hi : s ∈ A.internals
  · simp [hi]
  by_cases hc : s ∈ A.calls
  · simp [hi, hc]
  simp only [hi, hc, false_or, if_false]
  split <;> simp [*]

theorem mem_symbols_iff_exists {A : Alphabet α} : s ∈ A.symbols ↔ ∃ k, A.kind? s = some k := by
  rw [mem_symbols_iff, contains, Option.isSome_iff_exists]

/-! ## Reading an alphabet from lists -/

/-- The first symbol that `seen` or an earlier declaration already declares. -/
def clash? (seen : List (α × SymbolKind)) : List (α × SymbolKind) → Option (AlphabetError α)
  | [] => none
  | (s, k) :: rest =>
    match seen.find? (·.1 = s) with
    | some (_, first) => some (if first = k then .duplicate s else .overlap s first k)
    | none => clash? ((s, k) :: seen) rest

theorem nodup_of_clash?_eq_none {seen ds : List (α × SymbolKind)} (h : clash? seen ds = none) :
    (ds.map Prod.fst).Nodup ∧ ∀ s ∈ ds.map Prod.fst, s ∉ seen.map Prod.fst := by
  induction ds generalizing seen with
  | nil => simp
  | cons d ds ih =>
    obtain ⟨s, k⟩ := d
    rw [clash?] at h
    split at h
    · simp at h
    · next hs =>
      have := ih h
      grind

/-- The alphabet with these symbols, unless one of them is declared twice. -/
def ofLists (internals calls : List α) (ret : α) : Except (AlphabetError α) (Alphabet α) :=
  match h : clash? [] (internals.map (·, .internal) ++ calls.map (·, .call) ++ [(ret, .ret)]) with
  | some e => .error e
  | none => .ok ⟨internals, calls, ret, by
      simpa [Function.comp_def] using (nodup_of_clash?_eq_none h).1⟩

end Alphabet

end BehavioralAutomata
