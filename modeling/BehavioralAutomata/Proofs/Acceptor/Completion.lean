import BehavioralAutomata.Proofs.Acceptor.PrefixClosure
import BehavioralAutomata.Proofs.Acceptor.Recognition

/-!
# What completion changes

* `Acceptor.successor_addSink`: the edges that are missing lead to the new state, whose number is the
  former size.
* `Acceptor.isAccepting_complete`, `Acceptor.liveSuccessor_complete`: every state keeps its verdict and
  its edges to accepting states. The new state rejects and has no such edges, like a state that does not
  exist.
* `Acceptor.start_complete`: the new state is the initial one only if there was none.
* `Acceptor.Completed`, `Acceptor.Extends`: what completion reaches, and what it keeps.
* `Acceptor.complete_conserves`: the language stays the same, and nothing is left for a second time.
-/

namespace BehavioralAutomata.Acceptor

variable {α : Type u} {A : Acceptor α} {symbols : List α}

theorem isAccepting_size (A : Acceptor α) : A.isAccepting A.size = false := by
  simp [isAccepting, size]

variable [DecidableEq α]

theorem successor_of_le {q : Nat} (h : A.size ≤ q) (a : α) : A.successor q a = none := by
  rw [successor, Array.getElem?_eq_none h, Option.bind_none]

theorem liveSuccessor_size (A : Acceptor α) (a : α) : A.liveSuccessor A.size a = none := by
  rw [liveSuccessor, successor_of_le (Nat.le_refl _), Option.filter_none]

theorem get?_fillEdges (symbols : List α) (sink : Nat) (edges : AssocMap α Nat) (a : α) :
    (fillEdges symbols sink edges).get? a =
      (edges.get? a).or (if a ∈ symbols then some sink else none) := by
  induction symbols generalizing edges with
  | nil => simp [fillEdges]
  | cons b symbols ih =>
    rw [fillEdges, List.foldl_cons]
    refine (ih (edges.insertNew b sink)).trans ?_
    rw [AssocMap.get?_insertNew]
    by_cases hab : a = b
    · subst hab
      cases edges.get? a <;> simp
    · simp [hab]

/-! ## The new state -/

theorem size_addSink (A : Acceptor α) (symbols : List α) : (A.addSink symbols).size = A.size + 1 := by
  simp [size, addSink]

theorem start_addSink (A : Acceptor α) (symbols : List α) :
    (A.addSink symbols).start = A.start.or (some A.size) := rfl

theorem isAccepting_addSink (A : Acceptor α) (symbols : List α) (q : Nat) :
    (A.addSink symbols).isAccepting q = A.isAccepting q := by
  rw [isAccepting, isAccepting, addSink, Array.getElem?_push, Array.size_map]
  split
  · next h =>
    subst h
    simp
  · rw [Array.getElem?_map, Option.any_map]

theorem successor_addSink (A : Acceptor α) (symbols : List α) (q : Nat) (a : α) :
    (A.addSink symbols).successor q a =
      (A.successor q a).or (if q ≤ A.size ∧ a ∈ symbols then some A.size else none) := by
  rw [successor, addSink, Array.getElem?_push, Array.size_map]
  split
  · next h =>
    obtain rfl : q = A.size := h
    rw [successor_of_le (Nat.le_refl _)]
    simp [get?_fillEdges]
  · next h =>
    rw [Array.getElem?_map, successor]
    cases hs : A.states[q]? with
    | none =>
      have hlt : A.size < q := Nat.lt_of_le_of_ne (Array.getElem?_eq_none_iff.1 hs) (Ne.symm h)
      simp [Nat.not_le.2 hlt]
    | some s =>
      have hle : q ≤ A.size := Nat.le_of_lt (Array.getElem?_eq_some_iff.1 hs).1
      simp [get?_fillEdges, hle]

/-- The new edges lead to a state that rejects. -/
theorem liveSuccessor_addSink (A : Acceptor α) (symbols : List α) (q : Nat) (a : α) :
    (A.addSink symbols).liveSuccessor q a = A.liveSuccessor q a := by
  have hsink : (if q ≤ A.size ∧ a ∈ symbols then some A.size else none).filter A.isAccepting =
      none := by
    split <;> simp [isAccepting_size]
  rw [liveSuccessor, liveSuccessor, successor_addSink, funext (isAccepting_addSink A symbols)]
  cases A.successor q a with
  | none => rw [Option.none_or, hsink, Option.filter_none]
  | some p => rw [Option.some_or]

/-! ## The language -/

theorem acceptsFrom_size (A : Acceptor α) (w : List α) : A.acceptsFrom A.size w = false := by
  cases w with
  | nil => exact A.isAccepting_size
  | cons a w =>
    rw [acceptsFrom, reachedFrom, successor_of_le (Nat.le_refl _)]
    rfl

theorem acceptsFrom_cons (A : Acceptor α) (q : Nat) (a : α) (w : List α) :
    A.acceptsFrom q (a :: w) = (A.successor q a).any (A.acceptsFrom · w) := by
  rw [acceptsFrom, reachedFrom]
  cases A.successor q a <;> rfl

theorem accepts_eq_any (A : Acceptor α) (w : List α) :
    A.accepts w = A.start.any (A.acceptsFrom · w) := by
  rw [accepts, reached]
  cases A.start <;> rfl

theorem acceptsFrom_addSink (A : Acceptor α) (symbols : List α) (q : Nat) (w : List α) :
    (A.addSink symbols).acceptsFrom q w = A.acceptsFrom q w := by
  induction w generalizing q with
  | nil => exact A.isAccepting_addSink symbols q
  | cons a w ih =>
    rw [acceptsFrom_cons, acceptsFrom_cons, successor_addSink, funext (ih ·)]
    cases A.successor q a with
    | some p => rfl
    | none =>
      rw [Option.none_or]
      split
      · exact A.acceptsFrom_size w
      · rfl

theorem accepts_addSink (A : Acceptor α) (symbols w : List α) :
    (A.addSink symbols).accepts w = A.accepts w := by
  rw [accepts_eq_any, accepts_eq_any, start_addSink,
    funext (A.acceptsFrom_addSink symbols · w)]
  cases A.start with
  | some q => rfl
  | none => exact A.acceptsFrom_size w

/-! ## Completion -/

/-- There is an initial state, and every state has an edge for every symbol of the list. -/
structure Completed (A : Acceptor α) (symbols : List α) : Prop where
  start : ∃ q, A.start = some q
  successor : ∀ q < A.size, ∀ a ∈ symbols, ∃ p, A.successor q a = some p

/-- The second acceptor has the states of the first one with their verdicts, its edges and its initial
state. -/
structure Extends (A B : Acceptor α) : Prop where
  size_le : A.size ≤ B.size
  start : ∀ q, A.start = some q → B.start = some q
  isAccepting : ∀ q < A.size, B.isAccepting q = A.isAccepting q
  successor : ∀ q a p, A.successor q a = some p → B.successor q a = some p

theorem Extends.refl (A : Acceptor α) : A.Extends A :=
  ⟨Nat.le_refl _, fun _ => id, fun _ _ => rfl, fun _ _ _ => id⟩

theorem completed_iff :
    A.Completed symbols ↔ A.isTotal symbols = true ∧ A.start.isSome = true := by
  rw [isTotal_iff, Option.isSome_iff_exists]
  exact ⟨fun h => ⟨h.successor, h.start⟩, fun h => ⟨h.2, h.1⟩⟩

theorem completed_addSink (A : Acceptor α) (symbols : List α) :
    (A.addSink symbols).Completed symbols where
  start := by
    rw [start_addSink]
    cases A.start <;> exact ⟨_, rfl⟩
  successor q hq a ha := by
    rw [size_addSink] at hq
    rw [successor_addSink, if_pos ⟨Nat.le_of_lt_succ hq, ha⟩]
    cases A.successor q a <;> exact ⟨_, rfl⟩

theorem extends_addSink (A : Acceptor α) (symbols : List α) : A.Extends (A.addSink symbols) where
  size_le := by
    rw [size_addSink]
    exact Nat.le_succ _
  start q hq := by
    rw [start_addSink, hq]
    rfl
  isAccepting q _ := A.isAccepting_addSink symbols q
  successor q a p hp := by
    rw [successor_addSink, hp]
    rfl

/-- The only thing that completion asks for is whether it has been reached already. -/
theorem complete_cases (A : Acceptor α) (symbols : List α) :
    A.complete symbols = (none, A) ∧ A.Completed symbols ∨
      A.complete symbols = (some A.size, A.addSink symbols) ∧ ¬A.Completed symbols := by
  rw [complete, completed_iff, ← Bool.and_eq_true]
  split
  · next h => exact .inl ⟨rfl, h⟩
  · next h => exact .inr ⟨rfl, h⟩

theorem isAccepting_complete (A : Acceptor α) (symbols : List α) (q : Nat) :
    (A.complete symbols).2.isAccepting q = A.isAccepting q := by
  obtain ⟨h, _⟩ | ⟨h, _⟩ := complete_cases A symbols
  · rw [h]
  · rw [h, isAccepting_addSink]

theorem liveSuccessor_complete (A : Acceptor α) (symbols : List α) (q : Nat) (a : α) :
    (A.complete symbols).2.liveSuccessor q a = A.liveSuccessor q a := by
  obtain ⟨h, _⟩ | ⟨h, _⟩ := complete_cases A symbols
  · rw [h]
  · rw [h, liveSuccessor_addSink]

theorem start_complete (A : Acceptor α) (symbols : List α) :
    (A.complete symbols).2.start = A.start.or (some A.size) := by
  obtain ⟨h, hcompleted⟩ | ⟨h, _⟩ := complete_cases A symbols
  · obtain ⟨q, hq⟩ := hcompleted.start
    rw [h, hq, Option.some_or]
  · rw [h, start_addSink]

theorem complete_of_completed (h : A.Completed symbols) : A.complete symbols = (none, A) := by
  obtain ⟨heq, _⟩ | ⟨_, hnot⟩ := complete_cases A symbols
  · exact heq
  · exact absurd h hnot

/-- The test for prefix-closed languages depends on the language only. -/
theorem isPrefixClosed_congr {B : Acceptor α} (h : ∀ w, B.accepts w = A.accepts w) :
    B.isPrefixClosed = A.isPrefixClosed := by
  rw [Bool.eq_iff_iff, isPrefixClosed_iff_forall_singleton, isPrefixClosed_iff_forall_singleton]
  simp only [h]

/-- Completion keeps the language, also on words with other symbols, and all that is there already. What
comes out has an initial state and is total, and it is completed to itself. A state is added exactly if the
acceptor was not so before. -/
theorem complete_conserves (A : Acceptor α) (symbols : List α) :
    (∀ w, (A.complete symbols).2.accepts w = A.accepts w) ∧
    (A.complete symbols).2.isPrefixClosed = A.isPrefixClosed ∧
    (A.complete symbols).2.Completed symbols ∧
    A.Extends (A.complete symbols).2 ∧
    ((A.complete symbols).1 = none ↔ A.Completed symbols) ∧
    (A.Completed symbols → (A.complete symbols).2 = A) ∧
    (A.complete symbols).2.complete symbols = (none, (A.complete symbols).2) := by
  obtain ⟨heq, hA⟩ | ⟨heq, hA⟩ := complete_cases A symbols
  · rw [heq]
    exact ⟨fun _ => rfl, rfl, hA, .refl A, iff_of_true rfl hA, fun _ => rfl, heq⟩
  · have hsink := A.completed_addSink symbols
    rw [heq]
    exact ⟨A.accepts_addSink symbols, isPrefixClosed_congr (A.accepts_addSink symbols), hsink,
      A.extends_addSink symbols, iff_of_false (Option.some_ne_none _) hA, fun h => absurd h hA,
      complete_of_completed hsink⟩

/-- Nothing is accepted, because there is no initial state. -/
def aimlessAcceptor : Acceptor Char where
  states := #[⟨true, .ofList [('a', 1), ('c', 0)]⟩, ⟨true, ∅⟩]
  start := none
  target_lt := by decide
  start_lt := by decide

/-- The new state becomes the initial one, and there is nothing to complete over a shorter list. -/
theorem complete_aimlessAcceptor :
    (aimlessAcceptor.complete ['a', 'b', 'a']).1 = some 2 ∧
    (aimlessAcceptor.complete ['a', 'b', 'a']).2.start = some 2 ∧
    (∀ w, (aimlessAcceptor.complete ['a', 'b', 'a']).2.accepts w = false) ∧
    (aimlessAcceptor.complete ['a', 'b', 'a']).2.complete ['a'] =
      (none, (aimlessAcceptor.complete ['a', 'b', 'a']).2) := by
  obtain ⟨haccepts, _, hcompleted, _⟩ := aimlessAcceptor.complete_conserves ['a', 'b', 'a']
  have hshorter : (aimlessAcceptor.complete ['a', 'b', 'a']).2.Completed ['a'] := by
    refine ⟨hcompleted.start, fun q hq a ha => hcompleted.successor q hq a ?_⟩
    exact List.mem_cons.2 (.inl (List.mem_singleton.1 ha))
  obtain ⟨_, _, _, _, hnone, hsame, _⟩ :=
    (aimlessAcceptor.complete ['a', 'b', 'a']).2.complete_conserves ['a']
  exact ⟨by decide +kernel, start_complete _ _, haccepts, Prod.ext (hnone.2 hshorter) (hsame hshorter)⟩

end BehavioralAutomata.Acceptor
