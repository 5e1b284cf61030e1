import BehavioralAutomata.System.Local
import BehavioralAutomata.System.Plain
import Mathlib.Data.List.Forall2

/-!
# Systems that look alike

A system is used through its alphabet, its initial call and what its procedures do with the symbols that
they are given. How they store their edges does not matter.

* `System.Alike`: systems with the same states and, as seen from outside, the same edges.
* `System.Alike.step_eq`, `System.Alike.accepts_eq`, `System.Alike.size_eq`: they go through the same
  configurations.
* `LocalSystem.toPlain`: a system over local symbols, presented over the symbols themselves.
* `LocalSystem.AgreesOnCurrent`: systems over local symbols that differ in edges that are never taken.
-/

namespace BehavioralAutomata

variable {α : Type u} {β : Type v} {γ : Type w}

/-- The two procedures have the same states with the same verdicts and the same initial state, and an edge
of one of them for a symbol is an edge of the other one for it. -/
structure Procedure.Alike [DecidableEq β] [DecidableEq γ] (P : Procedure α β) (Q : Procedure α γ) :
    Prop where
  size : Q.size = P.size
  start : Q.start = P.start
  isAccepting : ∀ q, Q.isAccepting q = P.isAccepting q
  successor : ∀ q a, Q.successor q a = P.successor q a

theorem Procedure.Alike.liveSuccessor [DecidableEq β] [DecidableEq γ] {P : Procedure α β}
    {Q : Procedure α γ} (h : P.Alike Q) (q : Nat) (a : α) :
    Q.liveSuccessor q a = P.liveSuccessor q a := by
  rw [Procedure.liveSuccessor, Procedure.liveSuccessor, h.successor, funext h.isAccepting]

namespace System

variable [DecidableEq α] [DecidableEq β] [DecidableEq γ] {S : System α β} {T : System α γ}

/-- The two systems have the same alphabet, the same initial call and the same calls with procedures, in
the same order, and the procedures of each call look alike. -/
structure Alike (S : System α β) (T : System α γ) : Prop where
  alphabet : T.alphabet = S.alphabet
  initialCall : T.initialCall = S.initialCall
  keys : T.procedures.keys = S.procedures.keys
  procedures : ∀ c P Q, S.procedure? c = some P → T.procedure? c = some Q → P.Alike Q

namespace Alike

protected theorem refl (S : System α β) : S.Alike S where
  alphabet := rfl
  initialCall := rfl
  keys := rfl
  procedures c P Q hP hQ := by
    cases hP.symm.trans hQ
    exact ⟨rfl, rfl, fun _ => rfl, fun _ _ => rfl⟩

/-- The acceptors of a call look alike, if there are any. -/
theorem rel_get? (h : S.Alike T) (c : α) :
    Option.Rel (fun A B => (Procedure.mk A S.read).Alike (Procedure.mk B T.read))
      (S.procedures.get? c) (T.procedures.get? c) := by
  have hkeys : c ∈ T.procedures.keys ↔ c ∈ S.procedures.keys := by rw [h.keys]
  rw [AssocMap.mem_keys_iff, AssocMap.mem_keys_iff] at hkeys
  have hprocedures := h.procedures c
  simp only [procedure?] at hprocedures
  cases hS : S.procedures.get? c with
  | none =>
    cases hT : T.procedures.get? c with
    | none => exact .none
    | some B => simp [hS, hT] at hkeys
  | some A =>
    cases hT : T.procedures.get? c with
    | none => simp [hS, hT] at hkeys
    | some B => exact .some (hprocedures _ _ (by rw [hS]; rfl) (by rw [hT]; rfl))

theorem rel_procedure? (h : S.Alike T) (c : α) :
    Option.Rel Procedure.Alike (S.procedure? c) (T.procedure? c) := by
  have hrel := h.rel_get? c
  rw [procedure?, procedure?]
  generalize S.procedures.get? c = x, T.procedures.get? c = y at hrel
  cases hrel with
  | none => exact .none
  | some hAB => exact .some hAB

/-- For what goes through the procedures one after the other. -/
theorem forall₂_entries (h : S.Alike T) :
    List.Forall₂ (fun e f => e.1 = f.1 ∧ (Procedure.mk e.2 S.read).Alike (Procedure.mk f.2 T.read))
      S.procedures.entries T.procedures.entries := by
  have hkeys : List.Forall₂ (fun e f => e.1 = f.1) S.procedures.entries T.procedures.entries := by
    refine List.forall₂_map_left_iff.1 (List.forall₂_map_right_iff.1 ?_)
    rw [List.forall₂_eq_eq_eq]
    exact h.keys.symm
  obtain ⟨hlength, hzip⟩ := List.forall₂_iff_zip.1 hkeys
  refine List.forall₂_iff_zip.2 ⟨hlength, fun hmem => ⟨hzip hmem, ?_⟩⟩
  obtain ⟨he, hf⟩ := List.of_mem_zip hmem
  have hS := AssocMap.get?_eq_some_iff.2 he
  have hT := AssocMap.get?_eq_some_iff.2 hf
  rw [← hzip hmem] at hT
  exact h.procedures _ _ _ (by rw [procedure?, hS]; rfl) (by rw [procedure?, hT]; rfl)

/-! ## Runs -/

theorem entry?_eq (h : S.Alike T) (c : α) : T.entry? c = S.entry? c := by
  have hrel := h.rel_procedure? c
  rw [System.entry?, System.entry?]
  generalize S.procedure? c = x, T.procedure? c = y at hrel
  cases hrel with
  | none => rfl
  | some hPQ => exact hPQ.start

theorem isAccepting_eq (h : S.Alike T) (c : Configuration α) :
    T.isAccepting c = S.isAccepting c := by
  cases c with
  | initial | finished | dead => rfl
  | active top below =>
    have hrel := h.rel_procedure? top.procedure
    rw [isAccepting, isAccepting]
    generalize S.procedure? top.procedure = x, T.procedure? top.procedure = y at hrel
    cases hrel with
    | none => rfl
    | some hPQ => exact hPQ.isAccepting top.state

theorem advance_eq (h : S.Alike T) (f : Frame α) (a : α) : T.advance f a = S.advance f a := by
  have hrel := h.rel_procedure? f.procedure
  rw [advance, advance]
  generalize S.procedure? f.procedure = x, T.procedure? f.procedure = y at hrel
  cases hrel with
  | none => rfl
  | some hPQ => exact congrArg (Option.map _) (hPQ.liveSuccessor f.state a)

theorem step_eq (h : S.Alike T) : T.step = S.step := by
  funext c a
  simp only [step, h.alphabet, h.initialCall, h.entry?_eq, h.advance_eq]

theorem reached_eq (h : S.Alike T) (w : List α) : T.reached w = S.reached w := by
  rw [reached, reached, run, run, h.step_eq]

/-- Systems that look alike pass through the same frames in the same states. -/
theorem trace_eq (h : S.Alike T) (c : Configuration α) (w : List α) : T.trace c w = S.trace c w := by
  induction w generalizing c with
  | nil => rfl
  | cons a w ih => rw [trace, trace, h.step_eq, ih]

theorem accepts_eq (h : S.Alike T) (w : List α) : T.accepts w = S.accepts w := by
  rw [accepts, accepts, h.reached_eq, h.isAccepting_eq]

theorem size_eq (h : S.Alike T) : T.size = S.size := by
  rw [size, size, AssocMap.values, AssocMap.values, List.foldl_map, List.foldl_map]
  have hentries := h.forall₂_entries
  generalize S.procedures.entries = es, T.procedures.entries = fs at hentries
  generalize 0 = n
  induction hentries generalizing n with
  | nil => rfl
  | @cons e f es fs hef _ ih =>
    have hsize : f.2.size = e.2.size := hef.2.size
    rw [List.foldl_cons, List.foldl_cons, hsize, ih]

end Alike

end System

/-! ## Edges for what a symbol is read as -/

namespace Acceptor

variable [DecidableEq α] [DecidableEq β]

/-- The acceptor whose edges for a symbol are those that `A` has for what the symbol is read as. Only the
symbols of a list get edges. -/
def readThrough (A : Acceptor β) (symbols : List α) (nodup : symbols.Nodup) (read : α → Option β) :
    Acceptor α where
  states := A.states.map fun s =>
    ⟨s.accepting, .ofKeys symbols nodup fun a => (read a).bind s.edges.get?⟩
  start := A.start
  target_lt s hs q hq := by
    obtain ⟨t, ht, rfl⟩ := Array.mem_map.1 hs
    obtain ⟨a, _, hq⟩ := AssocMap.mem_values_ofKeys nodup hq
    obtain ⟨b, _, hq⟩ := Option.bind_eq_some_iff.1 hq
    rw [Array.size_map]
    exact A.target_lt t ht q (AssocMap.mem_values_of_get? hq)
  start_lt q hq := by
    rw [Array.size_map]
    exact A.start_lt q hq

variable {A : Acceptor β} {symbols : List α} {nodup : symbols.Nodup} {read : α → Option β}

omit [DecidableEq α] in
theorem size_readThrough : (A.readThrough symbols nodup read).size = A.size := by
  simp [size, readThrough]

omit [DecidableEq α] in
theorem isAccepting_readThrough (q : Nat) :
    (A.readThrough symbols nodup read).isAccepting q = A.isAccepting q := by
  rw [isAccepting, isAccepting, readThrough, Array.getElem?_map, Option.any_map]

theorem successor_readThrough (hread : ∀ a, a ∉ symbols → read a = none) (q : Nat) (a : α) :
    (A.readThrough symbols nodup read).successor q a = (read a).bind (A.successor q) := by
  rw [successor, readThrough, Array.getElem?_map]
  cases hr : read a with
  | none => cases A.states[q]? <;> simp [AssocMap.get?_ofKeys, hr]
  | some b =>
    have ha : a ∈ symbols := by
      by_contra ha
      cases hr.symm.trans (hread a ha)
    cases hq : A.states[q]? <;> simp [successor, hq, AssocMap.get?_ofKeys, hr, ha]

/-- The two acceptors differ at most in edges for symbols that are not in the list. -/
structure AgreesOn (symbols : List β) (A B : Acceptor β) : Prop where
  size : B.size = A.size
  start : B.start = A.start
  isAccepting : ∀ q, B.isAccepting q = A.isAccepting q
  successor : ∀ q, ∀ b ∈ symbols, B.successor q b = A.successor q b

end Acceptor

/-! ## Systems over local symbols -/

namespace LocalSystem

variable [DecidableEq α]

/-- The system over the symbols themselves that looks like `M`. -/
def toPlain (M : LocalSystem α) (h : ∀ c ∈ M.procedures.keys, M.alphabet.isCall c = true) :
    PlainSystem α :=
  .ofCalls M.alphabet M.initialCall
    (M.procedures.mapValues fun A =>
      A.readThrough M.localAlphabet.entries.keys M.localAlphabet.entries.nodup_keys M.read)
    (by rwa [AssocMap.keys_mapValues])

theorem alike_toPlain (M : LocalSystem α)
    (h : ∀ c ∈ M.procedures.keys, M.alphabet.isCall c = true) :
    M.toSystem.Alike (M.toPlain h).toSystem where
  alphabet := rfl
  initialCall := rfl
  keys := AssocMap.keys_mapValues _ _
  procedures c P Q hP hQ := by
    obtain ⟨A, hA, rfl⟩ := Option.map_eq_some_iff.1 hP
    rw [System.procedure?, toPlain, PlainSystem.ofCalls, AssocMap.get?_mapValues, hA] at hQ
    cases hQ
    have hread : ∀ a, a ∉ M.localAlphabet.entries.keys → M.read a = none := by
      intro a ha
      rw [M.read_eq]
      exact AssocMap.get?_eq_none_iff.2 ha
    exact {
      size := Acceptor.size_readThrough
      start := rfl
      isAccepting := Acceptor.isAccepting_readThrough
      successor := Acceptor.successor_readThrough hread }

/-- The two systems have the same local alphabet and differ at most in edges for local symbols that are not
current. -/
structure AgreesOnCurrent (M N : LocalSystem α) : Prop where
  alphabet : N.alphabet = M.alphabet
  localAlphabet : N.localAlphabet = M.localAlphabet
  initialCall : N.initialCall = M.initialCall
  keys : N.procedures.keys = M.procedures.keys
  procedures : ∀ c A B, M.procedures.get? c = some A → N.procedures.get? c = some B →
    A.AgreesOn M.localAlphabet.symbols B

theorem AgreesOnCurrent.alike {M N : LocalSystem α} (h : M.AgreesOnCurrent N) :
    M.toSystem.Alike N.toSystem where
  alphabet := h.alphabet
  initialCall := h.initialCall
  keys := h.keys
  procedures c P Q hP hQ := by
    obtain ⟨A, hA, rfl⟩ := Option.map_eq_some_iff.1 hP
    obtain ⟨B, hB, rfl⟩ := Option.map_eq_some_iff.1 hQ
    have hAB := h.procedures c A B hA hB
    refine ⟨hAB.size, hAB.start, hAB.isAccepting, fun q a => ?_⟩
    simp only [Procedure.successor, M.read_eq, N.read_eq, h.localAlphabet]
    cases ha : M.localAlphabet.get? a with
    | none => rfl
    | some l => exact hAB.successor q l (AssocMap.mem_values_of_get? ha)

end LocalSystem

end BehavioralAutomata
