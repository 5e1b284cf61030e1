import BehavioralAutomata.Proofs.Acceptor.PrefixClosure

/-!
# Building acceptors

* `Acceptor.Joins`: an acceptor with an edge more, or with an edge that leads elsewhere.
  `Acceptor.exists_joins`: edges between states that exist can be added.
* `Acceptor.size_addState`, `Acceptor.isAccepting_addState`, `Acceptor.successor_addState`: a new state is the
  last one and has no edges.
* `Acceptor.AllAccept`: acceptors without rejecting states, whose languages are prefix-closed.
-/

namespace BehavioralAutomata.Acceptor

variable {α : Type u} {A B : Acceptor α}

theorem isAccepting_ofVerdicts (verdicts : List Bool) (q : Nat) :
    (ofVerdicts verdicts : Acceptor α).isAccepting q = verdicts[q]?.any id := by
  rw [isAccepting, ofVerdicts, List.getElem?_toArray, List.getElem?_map, Option.any_map]
  rfl

theorem isAccepting_addState (A : Acceptor α) (accepting : Bool) (q : Nat) :
    (A.addState accepting).isAccepting q = if q = A.size then accepting else A.isAccepting q := by
  rw [isAccepting, addState, Array.getElem?_push, size]
  split <;> rfl

variable [DecidableEq α] {p q : Nat} {a : α}

theorem successor_ofVerdicts (verdicts : List Bool) (q : Nat) (a : α) :
    (ofVerdicts verdicts : Acceptor α).successor q a = none := by
  rw [successor, ofVerdicts, List.getElem?_toArray, List.getElem?_map]
  cases verdicts[q]? <;> rfl

theorem successor_addState (A : Acceptor α) (accepting : Bool) (q : Nat) (a : α) :
    (A.addState accepting).successor q a = A.successor q a := by
  rw [successor, addState, Array.getElem?_push, successor]
  split
  · next h =>
    rw [Array.getElem?_eq_none (Nat.le_of_eq h.symm)]
    rfl
  · rfl

/-! ## Edges -/

/-- The second acceptor is the first one with the edge from `p` to `q` in place of the one that `p` had for
`a`, if any. -/
structure Joins (A : Acceptor α) (p : Nat) (a : α) (q : Nat) (B : Acceptor α) : Prop where
  size : B.size = A.size
  start : B.start = A.start
  isAccepting : ∀ r, B.isAccepting r = A.isAccepting r
  successor : ∀ r b, B.successor r b = if r = p ∧ b = a then some q else A.successor r b

theorem exists_joins (hp : p < A.size) (hq : q < A.size) (a : α) :
    ∃ B, A.addEdge p a q = .ok (A.successor p a, B) ∧ A.Joins p a q B := by
  rw [addEdge, dif_pos ⟨hp, hq⟩]
  refine ⟨_, rfl, ⟨Array.size_modify, rfl, fun r => ?_, fun r b => ?_⟩⟩
  · change Option.any _ (A.states.modify p _)[r]? = _
    rw [Array.getElem?_modify, Acceptor.isAccepting]
    split
    · rw [Option.any_map]
    · rfl
  · change ((A.states.modify p _)[r]?).bind _ = _
    rw [Array.getElem?_modify, Acceptor.successor]
    by_cases hr : r = p
    · subst hr
      rw [if_pos rfl, Array.getElem?_eq_getElem hp, Option.map_some, Option.bind_some,
        AssocMap.get?_insert, Option.bind_some]
      simp only [true_and]
    · rw [if_neg (Ne.symm hr), if_neg fun h => hr h.1]

/-! ## Accepting states -/

/-- No state rejects. -/
def AllAccept (A : Acceptor α) : Prop := ∀ q < A.size, A.isAccepting q = true

omit [DecidableEq α] in
theorem AllAccept.addState (h : A.AllAccept) : (A.addState true).AllAccept := by
  intro q hq
  rw [isAccepting_addState]
  split
  · rfl
  · next hne =>
    rw [size_addState] at hq
    exact h q (by omega)

theorem AllAccept.joins (h : A.AllAccept) (hB : A.Joins p a q B) : B.AllAccept := by
  intro r hr
  rw [hB.isAccepting]
  exact h r (hB.size ▸ hr)

/-- Where a word leads on, it has been accepted. -/
theorem AllAccept.isPrefixClosed (h : A.AllAccept) : A.isPrefixClosed = true := by
  refine isPrefixClosed_iff_forall_singleton.2 fun w a haccepts => ?_
  obtain ⟨p, hp, _⟩ := accepts_iff.1 haccepts
  obtain ⟨q, hq, hsucc⟩ := exists_of_reached_append_singleton hp
  exact accepts_iff.2 ⟨q, hq, h q (lt_of_successor hsucc)⟩

theorem AllAccept.liveSuccessor (h : A.AllAccept) (q : Nat) (a : α) :
    A.liveSuccessor q a = A.successor q a := by
  rw [Acceptor.liveSuccessor]
  cases hp : A.successor q a with
  | none => rfl
  | some p => rw [Option.filter_some, if_pos (h p (successor_lt hp))]

end BehavioralAutomata.Acceptor
