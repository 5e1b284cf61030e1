import BehavioralAutomata.Proofs.Acceptor.Completion
import BehavioralAutomata.System.Plain

/-!
# Completed procedures

When the acceptors of a system are completed, calls of procedures without an initial state no longer
kill the run but enter a procedure that can read nothing. Such a run is dead one symbol later, and it
rejects until then.

* `System.Pads`: a system that differs from another one in such calls only.
* `System.Pads.delayed_run`: the runs of the two systems are the same until one of them dies.
* `PlainSystem.accepts_completeAll`: procedures can be completed without changing the language.
-/

namespace BehavioralAutomata

namespace System

variable {α : Type u} {β : Type v} [DecidableEq α] [DecidableEq β] {S T : System α β}

/-- The frame rejects and can not read anything. -/
structure Stuck (S : System α β) (f : Frame α) : Prop where
  rejects : ∀ fs, S.isAccepting (.active f fs) = false
  advance_eq : ∀ a, S.advance f a = none

/-- The system `T` does what `S` does, except that it may enter procedures that `S` can not enter, in
order to get stuck. -/
structure Pads (S T : System α β) : Prop where
  alphabet : T.alphabet = S.alphabet
  initialCall : T.initialCall = S.initialCall
  isAccepting : ∀ c, T.isAccepting c = S.isAccepting c
  advance : ∀ f a, T.advance f a = S.advance f a
  entry : ∀ c, T.entry? c = S.entry? c ∨
    S.entry? c = none ∧ ∃ q, T.entry? c = some q ∧ S.Stuck ⟨c, q⟩

/-- The run of `S` is dead, and the other one is going to die. Otherwise the two are the same. -/
inductive Delayed (S : System α β) : Configuration α → Configuration α → Prop where
  | same (c : Configuration α) : Delayed S c c
  | stuck {f : Frame α} (fs : List (Frame α)) (h : S.Stuck f) : Delayed S .dead (.active f fs)

namespace Pads

/-- What a frame that is stuck reads kills the run, whatever waits below it. -/
theorem step_stuck (h : S.Pads T) {f : Frame α} (hf : S.Stuck f) (fs : List (Frame α)) (a : α) :
    T.step (.active f fs) a = .dead := by
  have hnone : T.advance f a = none := (h.advance f a).trans (hf.advance_eq a)
  simp only [step, hnone]
  cases T.alphabet.kind? a with
  | none => rfl
  | some k => cases k <;> cases T.entry? a <;> rfl

/-- A call is the only symbol that the two systems read differently. -/
theorem delayed_step_same (h : S.Pads T) (c : Configuration α) (a : α) :
    S.Delayed (S.step c a) (T.step c a) := by
  cases c with
  | finished | dead => exact .same _
  | initial =>
    simp only [step, h.alphabet, h.initialCall]
    split
    · obtain hentry | ⟨hnone, q, hq, hstuck⟩ := h.entry a
      · rw [hentry]
        exact .same _
      · rw [hnone, hq]
        exact .stuck [] hstuck
    · exact .same _
  | active top below =>
    simp only [step, h.alphabet, h.advance]
    cases S.alphabet.kind? a with
    | none => exact .same _
    | some k =>
      cases k with
      | internal | ret => exact .same _
      | call =>
        obtain hentry | ⟨hnone, q, hq, hstuck⟩ := h.entry a
        · rw [hentry]
          exact .same _
        · rw [hnone, hq]
          cases S.advance top a with
          | none => exact .same _
          | some caller => exact .stuck (caller :: below) hstuck

theorem delayed_step (h : S.Pads T) {c d : Configuration α} (hcd : S.Delayed c d) (a : α) :
    S.Delayed (S.step c a) (T.step d a) := by
  cases hcd with
  | same => exact h.delayed_step_same c a
  | stuck fs hf =>
    rw [h.step_stuck hf fs a]
    exact .same .dead

theorem delayed_run (h : S.Pads T) {c d : Configuration α} (hcd : S.Delayed c d) (w : List α) :
    S.Delayed (S.run c w) (T.run d w) := by
  induction w generalizing c d with
  | nil => exact hcd
  | cons a w ih => exact ih (h.delayed_step hcd a)

/-- A run that is delayed rejects. -/
theorem accepts_eq (h : S.Pads T) (w : List α) : T.accepts w = S.accepts w := by
  have hrun := h.delayed_run (.same .initial) w
  rw [accepts, accepts, h.isAccepting, reached, reached]
  generalize S.run .initial w = c, T.run .initial w = d at hrun
  cases hrun with
  | same => rfl
  | stuck fs hf => exact hf.rejects fs

end Pads

end System

/-! ## Completion of one procedure after the other -/

namespace PlainSystem

variable {α : Type u} [DecidableEq α]

/-- Completes the procedure of `c` over the symbols, if there is one. -/
def complete (S : PlainSystem α) (c : α) (symbols : List α) : PlainSystem α :=
  S.modify c fun A => (A.complete symbols).2

/-- Completes procedures, each one over symbols of its own. -/
def completeAll (S : PlainSystem α) (procedures : List (α × List α)) : PlainSystem α :=
  procedures.foldl (fun S e => S.complete e.1 e.2) S

theorem procedure?_complete (S : PlainSystem α) (c : α) (symbols : List α) (d : α) :
    (S.complete c symbols).procedure? d =
      if d = c then (S.procedure? d).map fun P => ⟨(P.acceptor.complete symbols).2, P.read⟩
      else S.procedure? d := by
  rw [System.procedure?, complete, modify, AssocMap.get?_modify]
  split
  · rw [System.procedure?, Option.map_map, Option.map_map]
    rfl
  · rfl

/-- The new state of a procedure is stuck, in the completed system as in the one before. -/
theorem stuck_size {S : PlainSystem α} {c : α} {P : Procedure α α}
    (h : S.procedure? c = some P) : S.Stuck ⟨c, P.size⟩ where
  rejects fs := by
    simp only [System.isAccepting, h, Option.any_some]
    exact P.acceptor.isAccepting_size
  advance_eq a := by
    obtain ⟨A, _, rfl⟩ := Option.map_eq_some_iff.1 h
    simp only [System.advance, h, Option.bind_some, Procedure.liveSuccessor, Procedure.successor,
      S.read_eq]
    exact congrArg _ (A.liveSuccessor_size a)

theorem pads_complete (S : PlainSystem α) (c : α) (symbols : List α) :
    S.Pads (S.complete c symbols).toSystem where
  alphabet := rfl
  initialCall := rfl
  isAccepting d := by
    cases d with
    | initial | finished | dead => rfl
    | active top below =>
      simp only [System.isAccepting, procedure?_complete]
      split
      · rw [Option.any_map]
        exact congrArg (Option.any · _)
          (funext fun P => P.acceptor.isAccepting_complete symbols top.state)
      · rfl
  advance f a := by
    simp only [System.advance, procedure?_complete]
    split
    · cases h : S.procedure? f.procedure with
      | none => rfl
      | some P =>
        obtain ⟨A, _, rfl⟩ := Option.map_eq_some_iff.1 h
        simp only [Option.map_some, Option.bind_some, Procedure.liveSuccessor, Procedure.successor,
          S.read_eq]
        exact congrArg (Option.map _) (A.liveSuccessor_complete symbols f.state a)
    · rfl
  entry d := by
    simp only [System.entry?, procedure?_complete]
    split
    · cases h : S.procedure? d with
      | none => exact .inl rfl
      | some P =>
        have hstart : (P.acceptor.complete symbols).2.start = P.start.or (some P.size) :=
          P.acceptor.start_complete symbols
        simp only [Option.map_some, Option.bind_some, Procedure.start] at hstart ⊢
        rw [hstart]
        cases P.acceptor.start with
        | some q => exact .inl rfl
        | none => exact .inr ⟨rfl, P.size, rfl, stuck_size h⟩
    · exact .inl rfl

/-- The language of a system stays the same if procedures are completed, whichever of them, in whichever
order and over whichever symbols. The symbols need not be those of the alphabet. A procedure without an
initial state gets one by this, so that calls enter it that killed the run before. -/
theorem accepts_completeAll (S : PlainSystem α) (procedures : List (α × List α)) (w : List α) :
    (S.completeAll procedures).accepts w = S.accepts w := by
  induction procedures generalizing S with
  | nil => rfl
  | cons e procedures ih =>
    calc (S.completeAll (e :: procedures)).accepts w
      _ = (S.complete e.1 e.2).accepts w := ih (S.complete e.1 e.2)
      _ = S.accepts w := (S.pads_complete e.1 e.2).accepts_eq w

end PlainSystem

end BehavioralAutomata
