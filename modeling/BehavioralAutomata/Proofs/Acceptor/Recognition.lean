import BehavioralAutomata.Acceptor.Completion

/-!
# Acceptors for languages over an alphabet

* `Acceptor.Recognises`: a total acceptor for a language over an alphabet. Symbols outside of the alphabet
  may have edges as well, but nothing is said of them.
* `Acceptor.Reduced`: an acceptor without states that could be left out or merged.
* `Acceptor.isTotal_iff`, `Acceptor.exists_reachedFrom`: total acceptors never get stuck.
-/

namespace BehavioralAutomata.Acceptor

variable {α : Type u} [DecidableEq α] {A : Acceptor α} {symbols : List α}

/-- The word leads from `q` to an accepting state. -/
def acceptsFrom (A : Acceptor α) (q : Nat) (w : List α) : Bool :=
  (A.reachedFrom q w).any A.isAccepting

/-- A total acceptor with the verdicts of `f` on the words over an alphabet. -/
structure Recognises (A : Acceptor α) (symbols : List α) (f : List α → Bool) : Prop where
  total : A.isTotal symbols = true
  start : A.start.isSome = true
  accepts : ∀ w, w ⊆ symbols → A.accepts w = f w

/-- Over an alphabet every state is reached, and every two states are told apart. -/
structure Reduced (A : Acceptor α) (symbols : List α) : Prop where
  reached : ∀ q < A.size, ∃ w, w ⊆ symbols ∧ A.reached w = some q
  separated : ∀ p < A.size, ∀ q < A.size, p ≠ q →
    ∃ e, e ⊆ symbols ∧ A.acceptsFrom p e ≠ A.acceptsFrom q e

theorem Reduced.mono {letters : List α} (h : A.Reduced letters) (hsub : letters ⊆ symbols) :
    A.Reduced symbols where
  reached q hq := by
    obtain ⟨w, hw, hreach⟩ := h.reached q hq
    exact ⟨w, List.Subset.trans hw hsub, hreach⟩
  separated p hp q hq hne := by
    obtain ⟨e, he, hverdict⟩ := h.separated p hp q hq hne
    exact ⟨e, List.Subset.trans he hsub, hverdict⟩

theorem isTotal_iff :
    A.isTotal symbols = true ↔ ∀ q < A.size, ∀ a ∈ symbols, ∃ p, A.successor q a = some p := by
  have hsuccessor : ∀ (q : Nat) (hq : q < A.size) (a : α),
      A.successor q a = A.states[q].edges.get? a := fun q hq a => by
    rw [successor, Array.getElem?_eq_getElem hq, Option.bind_some]
  rw [isTotal, Array.all_eq_true]
  constructor
  · intro h q hq a ha
    rw [hsuccessor q hq]
    exact Option.isSome_iff_exists.1 (List.all_eq_true.1 (h q hq) a ha)
  · intro h q hq
    refine List.all_eq_true.2 fun a ha => ?_
    obtain ⟨p, hp⟩ := h q hq a ha
    rw [hsuccessor q hq] at hp
    exact Option.isSome_iff_exists.2 ⟨p, hp⟩

/-- In a total acceptor every word over the alphabet leads on. -/
theorem exists_reachedFrom (hA : A.isTotal symbols = true) {q : Nat} (hq : q < A.size) {w : List α}
    (hw : w ⊆ symbols) : ∃ p, p < A.size ∧ A.reachedFrom q w = some p := by
  induction w generalizing q with
  | nil => exact ⟨q, hq, rfl⟩
  | cons a w ih =>
    obtain ⟨ha, hw⟩ := List.cons_subset.1 hw
    obtain ⟨p, hp⟩ := isTotal_iff.1 hA q hq a ha
    obtain ⟨r, hr, hreach⟩ := ih (successor_lt hp) hw
    exact ⟨r, hr, by rw [reachedFrom, hp, Option.bind_some, hreach]⟩

namespace Recognises

variable {f : List α → Bool}

theorem exists_reached (h : A.Recognises symbols f) {w : List α} (hw : w ⊆ symbols) :
    ∃ q, q < A.size ∧ A.reached w = some q := by
  obtain ⟨p, hp⟩ := Option.isSome_iff_exists.1 h.start
  obtain ⟨q, hq, hreach⟩ := exists_reachedFrom h.total (A.start_lt p hp) hw
  exact ⟨q, hq, by rw [reached, hp, Option.bind_some, hreach]⟩

/-- Words that lead to one state have the same continuations. -/
theorem append_eq (h : A.Recognises symbols f) {u v e : List α} (hu : u ⊆ symbols)
    (hv : v ⊆ symbols) (he : e ⊆ symbols) (huv : A.reached u = A.reached v) :
    f (u ++ e) = f (v ++ e) := by
  have hue : u ++ e ⊆ symbols := List.append_subset.2 ⟨hu, he⟩
  have hve : v ++ e ⊆ symbols := List.append_subset.2 ⟨hv, he⟩
  rw [← h.accepts _ hue, ← h.accepts _ hve, Acceptor.accepts, Acceptor.accepts, reached_append,
    reached_append, huv]

end Recognises

end BehavioralAutomata.Acceptor
