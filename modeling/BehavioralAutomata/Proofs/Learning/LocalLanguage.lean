import BehavioralAutomata.Proofs.Learning.Closing
import BehavioralAutomata.Proofs.System.Stacks

/-!
# The language of a procedure over local symbols

* `System.localLanguage`: what a procedure of a system says to a local word. A usable call is one step,
  and nothing can follow an unusable call or a return.
* `System.bounded_localLanguage`: a procedure tells at most as many local words apart as it has
  accepting states, and two more.
-/

namespace BehavioralAutomata

variable {α : Type} {β : Type} [DecidableEq α] [DecidableEq β]

/-- The symbol is of the kind that the local symbol says. -/
def LocalSymbol.Proper (A : Alphabet α) (l : LocalSymbol α) : Prop := A.kind? l.symbol = some l.kind

theorem LocalSymbol.Proper.eq_ret {A : Alphabet α} {x : LocalSymbol α} (h : x.Proper A)
    (hret : x.isReturn = true) : x = .ret A.ret := by
  cases x with
  | internal a => cases hret
  | call c usable => cases hret
  | ret a =>
    obtain rfl := Alphabet.kind?_eq_ret_iff.1 h
    rfl

/-- The number of accepting states. -/
def Acceptor.acceptingCount (A : Acceptor β) : Nat := (List.range A.size).countP A.isAccepting

namespace System

variable {T : System α β}

/-- The frame can read the call and enters an accepting state of the called procedure. -/
def enters (T : System α β) (f : Frame α) (c : α) : Bool :=
  (T.advance f c).isSome && (T.entry? c).any fun q => T.frameAccepts ⟨c, q⟩

/-- The verdict of a frame on a local word. -/
def localVerdict (T : System α β) (f : Frame α) : List (LocalSymbol α) → Bool
  | [] => T.frameAccepts f
  | .internal a :: w => (T.advance f a).any (T.localVerdict · w)
  | .call c true :: w => (T.advance f c).any (T.localVerdict · w)
  | .call c false :: w => w.isEmpty && T.enters f c
  | .ret a :: w => w.isEmpty && (T.advance f a).isSome

/-- A symbol that can be continued is one step. -/
theorem localVerdict_moved {l : LocalSymbol α} (hl : l.isReturn = false ∧ l.isUsable = true)
    (f : Frame α) (w : List (LocalSymbol α)) :
    T.localVerdict f (l :: w) = (T.advance f l.symbol).any (T.localVerdict · w) := by
  obtain ⟨hret, husable⟩ := hl
  cases l with
  | internal a => rfl
  | call c usable =>
    cases husable
    rfl
  | ret a => cases hret

/-- A symbol that can not be continued is the last one. -/
theorem localVerdict_stopped {l : LocalSymbol α} (hl : ¬ (l.isReturn = false ∧ l.isUsable = true))
    (f : Frame α) {w : List (LocalSymbol α)} (hw : w ≠ []) : T.localVerdict f (l :: w) = false := by
  obtain ⟨x, w, rfl⟩ := List.exists_cons_of_ne_nil hw
  cases l with
  | internal a => exact absurd ⟨rfl, rfl⟩ hl
  | call c usable =>
    cases usable with
    | true => exact absurd ⟨rfl, rfl⟩ hl
    | false => rfl
  | ret a => rfl

/-- The last symbol is read, and an unusable call is entered. -/
theorem localVerdict_last {f : Frame α} {l : LocalSymbol α} :
    T.localVerdict f [l] = true ↔ (∃ g, T.advance f l.symbol = some g) ∧
      ∀ d, l = .call d false → ∃ q, T.entry? d = some q ∧ T.frameAccepts ⟨d, q⟩ = true := by
  rw [← Option.isSome_iff_exists]
  have hmoved : ∀ a, (T.advance f a).any (T.localVerdict · []) = (T.advance f a).isSome := by
    intro a
    cases h : T.advance f a with
    | none => rfl
    | some g => exact frameAccepts_advance h
  cases l with
  | internal a =>
    rw [localVerdict, hmoved]
    exact ⟨fun h => ⟨h, by rintro _ ⟨⟩⟩, fun h => h.1⟩
  | call c usable =>
    cases usable with
    | true =>
      rw [localVerdict, hmoved]
      exact ⟨fun h => ⟨h, by rintro _ ⟨⟩⟩, fun h => h.1⟩
    | false =>
      rw [localVerdict, List.isEmpty_nil, Bool.true_and, enters, Bool.and_eq_true,
        Option.any_eq_true]
      refine and_congr_right fun _ => ⟨?_, fun h => h c rfl⟩
      rintro h d ⟨⟩
      exact h
  | ret a =>
    rw [localVerdict, List.isEmpty_nil, Bool.true_and]
    exact ⟨fun h => ⟨h, by rintro _ ⟨⟩⟩, fun h => h.1⟩

/-- The verdict of the procedure of a call on a local word. -/
def localLanguage (T : System α β) (c : α) (w : List (LocalSymbol α)) : Bool :=
  (T.entry? c).any fun q => T.localVerdict ⟨c, q⟩ w

theorem localLanguage_eq {c : α} {q : Nat} (hq : T.entry? c = some q) (w : List (LocalSymbol α)) :
    T.localLanguage c w = T.localVerdict ⟨c, q⟩ w := by
  rw [localLanguage, hq]
  rfl

theorem localLanguage_nil (hT : T.EntriesAccept) {c : α} {q : Nat} (hq : T.entry? c = some q) :
    T.localLanguage c [] = true := by
  rw [localLanguage_eq hq]
  exact hT c q hq

/-! ## Where a local word leads -/

/-- What becomes of a procedure on a local word. -/
inductive LocalState (α : Type) where
  /-- The word can not be read. -/
  | dead
  /-- The word can be read, but not continued. -/
  | ended
  /-- The procedure goes on from this frame. -/
  | running (f : Frame α)
deriving DecidableEq

/-- The verdict on a local word behind a state. -/
def LocalState.verdict (T : System α β) : LocalState α → List (LocalSymbol α) → Bool
  | .dead, _ => false
  | .ended, w => w.isEmpty
  | .running f, w => T.localVerdict f w

/-- Where a local word leads a frame. -/
def localState (T : System α β) (f : Frame α) : List (LocalSymbol α) → LocalState α
  | [] => .running f
  | .internal a :: w => (T.advance f a).elim .dead (T.localState · w)
  | .call c true :: w => (T.advance f c).elim .dead (T.localState · w)
  | .call c false :: w => if w.isEmpty && T.enters f c then .ended else .dead
  | .ret a :: w => if w.isEmpty && (T.advance f a).isSome then .ended else .dead

theorem localVerdict_append (f : Frame α) (u v : List (LocalSymbol α)) :
    T.localVerdict f (u ++ v) = (T.localState f u).verdict T v := by
  induction u generalizing f with
  | nil => rfl
  | cons l u ih =>
    have moved : ∀ a, (T.advance f a).any (T.localVerdict · (u ++ v)) =
        ((T.advance f a).elim .dead (T.localState · u)).verdict T v := by
      intro a
      cases T.advance f a with
      | none => rfl
      | some g => exact ih g
    have stopped : ∀ b : Bool, ((u ++ v).isEmpty && b) =
        (if u.isEmpty && b then LocalState.ended else .dead).verdict T v := by
      intro b
      cases b <;> cases u <;> simp [LocalState.verdict]
    cases l with
    | internal a => exact moved a
    | call c usable =>
      cases usable with
      | true => exact moved c
      | false => exact stopped _
    | ret a => exact stopped _

/-- A word leads a frame to a frame of the same procedure, and to an accepting one if it starts in an
accepting one. -/
theorem localState_running {f g : Frame α} {w : List (LocalSymbol α)}
    (h : T.localState f w = .running g) (hf : T.frameAccepts f = true) :
    g.procedure = f.procedure ∧ T.frameAccepts g = true := by
  induction w generalizing f with
  | nil =>
    cases h
    exact ⟨rfl, hf⟩
  | cons l w ih =>
    have moved : ∀ a, (T.advance f a).elim .dead (T.localState · w) = .running g →
        g.procedure = f.procedure ∧ T.frameAccepts g = true := by
      intro a h
      cases hm : T.advance f a with
      | none =>
        rw [hm] at h
        cases h
      | some k =>
        rw [hm] at h
        obtain ⟨hp, hg⟩ := ih h (frameAccepts_advance hm)
        exact ⟨hp.trans (procedure_advance hm), hg⟩
    have stopped : ∀ b : Bool,
        (if b then (LocalState.ended : LocalState α) else .dead) ≠ .running g := by
      intro b
      cases b <;> rintro ⟨⟩
    cases l with
    | internal a => exact moved a h
    | call c usable =>
      cases usable with
      | true => exact moved c h
      | false => exact absurd h (stopped _)
    | ret a => exact absurd h (stopped _)

/-- The local states that words can lead to. -/
def localStates (c : α) (A : Acceptor β) : List (LocalState α) :=
  .dead :: .ended :: ((List.range A.size).filter A.isAccepting).map fun q => .running ⟨c, q⟩

omit [DecidableEq α] [DecidableEq β] in
theorem length_localStates (c : α) (A : Acceptor β) :
    (localStates c A).length = A.acceptingCount + 2 := by
  rw [localStates, List.length_cons, List.length_cons, List.length_map, Acceptor.acceptingCount,
    List.countP_eq_length_filter]

theorem localState_mem {c : α} {q : Nat} {A : Acceptor β} (hA : T.procedures.get? c = some A)
    (hq : T.frameAccepts ⟨c, q⟩ = true) (w : List (LocalSymbol α)) :
    T.localState ⟨c, q⟩ w ∈ localStates c A := by
  cases h : T.localState ⟨c, q⟩ w with
  | dead => exact List.mem_cons_self
  | ended => exact List.mem_cons_of_mem _ List.mem_cons_self
  | running g =>
    obtain ⟨hp, hacc⟩ := localState_running h hq
    obtain ⟨d, p⟩ := g
    change d = c at hp
    subst hp
    have hacc' : A.isAccepting p = true := by
      simpa [frameAccepts, procedure?, hA, Procedure.isAccepting] using hacc
    have hlt : p < A.size := by
      rw [Acceptor.isAccepting] at hacc'
      cases hs : A.states[p]? with
      | none => simp [hs] at hacc'
      | some s => exact (Array.getElem?_eq_some_iff.1 hs).1
    refine List.mem_cons_of_mem _ (List.mem_cons_of_mem _ ?_)
    refine List.mem_map.2 ⟨p, List.mem_filter.2 ⟨List.mem_range.2 hlt, hacc'⟩, rfl⟩

/-- Words that a procedure tells apart lead to different local states. -/
theorem bounded_localLanguage (hT : T.EntriesAccept) {c : α} {A : Acceptor β}
    (hA : T.procedures.get? c = some A) :
    ObservationTable.Bounded (T.localLanguage c) (A.acceptingCount + 2) := by
  cases hq : T.entry? c with
  | none =>
    intro ws hws
    -- without an entry no word is accepted, so there is no second class
    cases ws with
    | nil => exact Nat.zero_le _
    | cons u ws =>
      cases ws with
      | nil => exact Nat.succ_le_succ (Nat.zero_le _)
      | cons v ws =>
        obtain ⟨e, he⟩ := List.rel_of_pairwise_cons hws List.mem_cons_self
        simp [localLanguage, hq] at he
  | some q =>
    rw [← length_localStates c]
    refine .of_states (localState_mem hA (hT c q hq)) fun u v huv e => ?_
    rw [localLanguage_eq hq, localLanguage_eq hq, localVerdict_append, localVerdict_append, huv]

end System

end BehavioralAutomata
