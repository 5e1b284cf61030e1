import BehavioralAutomata.AssocMap
import BehavioralAutomata.Render

/-!
# Partial deterministic acceptors

* `Acceptor`: numbered states, each accepting or not and with at most one edge per symbol, and
  possibly an initial state. Edges and the initial state refer to existing states only.
* `Acceptor.reached`, `Acceptor.accepts`: runs, which end where no edge leads on.
* `Acceptor.addState`, `Acceptor.addEdge`, `Acceptor.setInitial`, `Acceptor.setAccepting`: the ways to
  build one.
-/

namespace BehavioralAutomata

/-- One state of an acceptor: its verdict and where its edges lead. -/
structure Acceptor.State (α : Type u) where
  accepting : Bool
  edges : AssocMap α Nat
deriving DecidableEq

/-- A deterministic finite acceptor whose edges may be partial. States are known by their position. -/
structure Acceptor (α : Type u) where
  states : Array (Acceptor.State α)
  start : Option Nat
  target_lt : ∀ s ∈ states, ∀ q ∈ s.edges.values, q < states.size
  start_lt : ∀ q ∈ start, q < states.size
deriving DecidableEq

/-- Why a state or an edge can not be had. -/
inductive AcceptorError (α : Type u) where
  /-- The state does not exist. -/
  | missingState (q : Nat)
  /-- An end of the edge does not exist. -/
  | missingEnd (p : Nat) (s : α) (q : Nat)
  /-- Two edges with different targets are asked for. -/
  | ambiguous (p : Nat) (s : α)
  /-- One of `size` states is to be changed, but this is none of them. -/
  | missingIndex (q size : Nat)
deriving DecidableEq

def AcceptorError.message [Render α] : AcceptorError α → String
  | .missingState q => "state " ++ render q ++ " does not exist"
  | .missingEnd p s q =>
    "edge (" ++ render p ++ ", " ++ render s ++ ", " ++ render q ++
      ") refers to non-existent state"
  | .ambiguous p s => "transition (" ++ render p ++ ", " ++ render s ++ ") is not deterministic"
  | .missingIndex q size => indexMessage q size

namespace Acceptor

variable {α : Type u}

/-- The acceptor without states. -/
def empty : Acceptor α := ⟨#[], none, by simp, by simp⟩

instance : Inhabited (Acceptor α) := ⟨empty⟩

def size (A : Acceptor α) : Nat := A.states.size

def isAccepting (A : Acceptor α) (q : Nat) : Bool := A.states[q]?.any (·.accepting)

/-! ## Runs -/

section

variable [DecidableEq α]

/-- Where the edge of `q` for `a` leads, if there is one. -/
def successor (A : Acceptor α) (q : Nat) (a : α) : Option Nat := A.states[q]?.bind (·.edges.get? a)

/-- Where `w` leads from `q`, if every edge on the way exists. -/
def reachedFrom (A : Acceptor α) (q : Nat) : List α → Option Nat
  | [] => some q
  | a :: w => (A.successor q a).bind (A.reachedFrom · w)

/-- Where `w` leads from the initial state. -/
def reached (A : Acceptor α) (w : List α) : Option Nat := A.start.bind (A.reachedFrom · w)

/-- The word leads from the initial state to an accepting state. -/
def accepts (A : Acceptor α) (w : List α) : Bool := (A.reached w).any A.isAccepting

theorem reachedFrom_append (A : Acceptor α) (q : Nat) (u v : List α) :
    A.reachedFrom q (u ++ v) = (A.reachedFrom q u).bind (A.reachedFrom · v) := by
  induction u generalizing q with
  | nil => rfl
  | cons a u ih =>
    simp only [List.cons_append, reachedFrom, Option.bind_assoc]
    exact congrArg _ (funext (ih ·))

theorem reached_append (A : Acceptor α) (u v : List α) :
    A.reached (u ++ v) = (A.reached u).bind (A.reachedFrom · v) := by
  simp only [reached, Option.bind_assoc, reachedFrom_append]

theorem reached_append_singleton {A : Acceptor α} {w : List α} {q : Nat} (h : A.reached w = some q)
    (a : α) : A.reached (w ++ [a]) = A.successor q a := by
  rw [reached_append, h, Option.bind_some, reachedFrom]
  cases A.successor q a <;> rfl

theorem exists_of_reached_append_singleton {A : Acceptor α} {w : List α} {a : α} {p : Nat}
    (h : A.reached (w ++ [a]) = some p) : ∃ q, A.reached w = some q ∧ A.successor q a = some p := by
  rw [reached_append] at h
  obtain ⟨q, hq, h⟩ := Option.bind_eq_some_iff.1 h
  obtain ⟨r, hsucc, hr⟩ := Option.bind_eq_some_iff.1 h
  cases hr
  exact ⟨q, hq, hsucc⟩

theorem accepts_iff {A : Acceptor α} {w : List α} :
    A.accepts w = true ↔ ∃ q, A.reached w = some q ∧ A.isAccepting q = true :=
  Option.any_eq_true _ _

/-- The successor, if it accepts. -/
def liveSuccessor (A : Acceptor α) (q : Nat) (a : α) : Option Nat :=
  (A.successor q a).filter A.isAccepting

/-- The edges of `q` that lead to accepting states. -/
def liveEdges (A : Acceptor α) (q : Nat) : AssocMap α Nat :=
  (A.states[q]?.map (·.edges.filterValues A.isAccepting)).getD ∅

theorem get?_liveEdges (A : Acceptor α) (q : Nat) (a : α) :
    (A.liveEdges q).get? a = A.liveSuccessor q a := by
  rw [liveEdges, liveSuccessor, successor]
  cases A.states[q]? <;> simp [AssocMap.get?_filterValues]

theorem successor_lt {A : Acceptor α} (h : A.successor q a = some p) : p < A.size := by
  obtain ⟨s, hs, hp⟩ := Option.bind_eq_some_iff.1 h
  exact A.target_lt s (Array.mem_of_getElem? hs) p (AssocMap.mem_values_of_get? hp)

theorem lt_of_successor {A : Acceptor α} (h : A.successor q a = some p) : q < A.size := by
  obtain ⟨s, hs, _⟩ := Option.bind_eq_some_iff.1 h
  exact (Array.getElem?_eq_some_iff.1 hs).1

end

/-! ## Construction -/

/-- The states with these verdicts, without edges and without an initial state. -/
def ofVerdicts (accepting : List Bool) : Acceptor α where
  states := (accepting.map (⟨·, ∅⟩)).toArray
  start := none
  target_lt s hs q hq := by
    obtain ⟨b, _, rfl⟩ := List.mem_map.1 (List.mem_toArray.1 hs)
    simp [AssocMap.values, EmptyCollection.emptyCollection] at hq
  start_lt := by simp

@[simp] theorem size_ofVerdicts (accepting : List Bool) :
    (ofVerdicts accepting : Acceptor α).size = accepting.length := by
  simp [size, ofVerdicts]

/-- Appends a state without edges. Its number is the former size. -/
def addState (A : Acceptor α) (accepting : Bool) : Acceptor α where
  states := A.states.push ⟨accepting, ∅⟩
  start := A.start
  target_lt s hs q hq := by
    rw [Array.size_push]
    rcases Array.mem_push.1 hs with hs | rfl
    · exact Nat.lt_add_right _ (A.target_lt s hs q hq)
    · simp [AssocMap.values, EmptyCollection.emptyCollection] at hq
  start_lt q hq := by
    rw [Array.size_push]
    exact Nat.lt_add_right _ (A.start_lt q hq)

@[simp] theorem size_addState (A : Acceptor α) (b : Bool) : (A.addState b).size = A.size + 1 := by
  simp [size, addState]

/-- Makes `q` the initial state. -/
def setInitial (A : Acceptor α) (q : Nat) : Except (AcceptorError α) (Acceptor α) :=
  if h : q < A.size then
    .ok { A with start := some q, start_lt := fun _ hp => Option.some.inj hp ▸ h }
  else .error (.missingState q)

/-- Appends a state and makes it the initial one. -/
def addInitialState (A : Acceptor α) (accepting : Bool) : Acceptor α :=
  { A.addState accepting with
    start := some A.size
    start_lt := fun _ hp => by
      obtain rfl := Option.some.inj hp
      exact Nat.lt_of_lt_of_eq A.size.lt_succ_self (size_addState A accepting).symm }

/-- Changes the state `q` in a way that keeps its edges within the acceptor. -/
private def modifyState (A : Acceptor α) (q : Nat) (f : State α → State α)
    (hf : ∀ s ∈ A.states, ∀ p ∈ (f s).edges.values, p < A.size) : Acceptor α where
  states := A.states.modify q f
  start := A.start
  target_lt s hs p hp := by
    rw [Array.size_modify]
    obtain ⟨i, hi⟩ := Array.mem_iff_getElem?.1 hs
    rw [Array.getElem?_modify] at hi
    split at hi
    · obtain ⟨t, ht, rfl⟩ := Option.map_eq_some_iff.1 hi
      exact hf t (Array.mem_of_getElem? ht) p hp
    · exact A.target_lt s (Array.mem_of_getElem? hi) p hp
  start_lt q hq := by
    rw [Array.size_modify]
    exact A.start_lt q hq

/-- Changes the verdict of `q`. -/
def setAccepting (A : Acceptor α) (q : Nat) (accepting : Bool) :
    Except (AcceptorError α) (Acceptor α) :=
  if q < A.size then .ok (A.modifyState q (fun s => { s with accepting }) A.target_lt)
  else .error (.missingIndex q A.size)

variable [DecidableEq α]

/-- Adds the edge from `p` to `q`, or sends the edge that `p` already has for `a` to `q`. Also answers
where that edge led before. -/
def addEdge (A : Acceptor α) (p : Nat) (a : α) (q : Nat) :
    Except (AcceptorError α) (Option Nat × Acceptor α) :=
  if h : p < A.size ∧ q < A.size then
    .ok (A.successor p a,
      A.modifyState p (fun s => { s with edges := s.edges.insert a q }) fun s hs r hr => by
        rcases AssocMap.mem_values_insert hr with rfl | hr
        · exact h.2
        · exact A.target_lt s hs r hr)
  else .error (.missingEnd p a q)

/-- The acceptor with these states, edges and initial state. Of two edges for one symbol that leave a
state the later one counts. -/
def ofParts (accepting : List Bool) (edges : List (Nat × α × Nat)) (start : Option Nat) :
    Except (AcceptorError α) (Acceptor α) := do
  let A ← edges.foldlM (fun A e => (A.addEdge e.1 e.2.1 e.2.2).map Prod.snd) (ofVerdicts accepting)
  match start with
  | some q => A.setInitial q
  | none => .ok A

/-- The symbols that some edge carries. -/
def labels (A : Acceptor α) : List α := (A.states.toList.flatMap (·.edges.keys)).eraseDups

/-- The two acceptors agree state by state, and in the initial state. -/
def sameStates (A B : Acceptor α) : Bool :=
  A.start == B.start && A.size == B.size && (A.states.zip B.states).all fun (s, t) =>
    s.accepting == t.accepting && s.edges.sameEntries t.edges

end Acceptor

end BehavioralAutomata
