import BehavioralAutomata.Acceptor.Basic

/-!
# Completion

`Acceptor.complete` sends every edge that is missing to a new rejecting state, from which there is no
way back. The language stays the same.
-/

namespace BehavioralAutomata.Acceptor

variable {α : Type u} [DecidableEq α]

/-- Every state has an edge for every symbol of the list. -/
def isTotal (A : Acceptor α) (symbols : List α) : Bool :=
  A.states.all fun s => symbols.all s.edges.contains

/-- The edges of a state, with those that are missing sent to `sink`. -/
def fillEdges (symbols : List α) (sink : Nat) (edges : AssocMap α Nat) : AssocMap α Nat :=
  symbols.foldl (·.insertNew · sink) edges

theorem mem_values_fillEdges {symbols : List α} {edges : AssocMap α Nat}
    (h : q ∈ (fillEdges symbols sink edges).values) : q = sink ∨ q ∈ edges.values := by
  induction symbols generalizing edges with
  | nil => exact .inr h
  | cons a symbols ih =>
    rcases ih h with h | h
    · exact .inl h
    · simp only [AssocMap.insertNew] at h
      split at h
      · exact .inr h
      · exact AssocMap.mem_values_insert h

/-- Adds a rejecting state with a loop on every symbol of the list, to which every missing edge leads.
It becomes the initial state if there was none. -/
def addSink (A : Acceptor α) (symbols : List α) : Acceptor α where
  states := (A.states.map fun s => { s with edges := fillEdges symbols A.size s.edges }).push
    ⟨false, fillEdges symbols A.size ∅⟩
  start := A.start.or (some A.size)
  target_lt s hs q hq := by
    simp only [Array.size_push, Array.size_map]
    rcases Array.mem_push.1 hs with hs | rfl
    · obtain ⟨t, ht, rfl⟩ := Array.mem_map.1 hs
      rcases mem_values_fillEdges hq with rfl | hq
      · exact Nat.lt_succ_self _
      · exact Nat.lt_succ_of_lt (A.target_lt t ht q hq)
    · rcases mem_values_fillEdges hq with rfl | hq
      · exact Nat.lt_succ_self _
      · simp [AssocMap.values, EmptyCollection.emptyCollection] at hq
  start_lt q hq := by
    simp only [Array.size_push, Array.size_map]
    cases h : A.start with
    | none => simp [h] at hq; subst hq; exact Nat.lt_succ_self _
    | some p => simp [h] at hq; subst hq; exact Nat.lt_succ_of_lt (A.start_lt p h)

/-- Makes the acceptor total over the symbols and gives it an initial state. Also answers the state
that had to be added, if any. -/
def complete (A : Acceptor α) (symbols : List α) : Option Nat × Acceptor α :=
  if A.isTotal symbols && A.start.isSome then (none, A) else (some A.size, A.addSink symbols)

end BehavioralAutomata.Acceptor
