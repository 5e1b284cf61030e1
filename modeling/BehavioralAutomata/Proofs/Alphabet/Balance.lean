import BehavioralAutomata.Alphabet.Matching
import Mathlib.Data.List.Basic

/-!
# Matching over balanced pieces of a word

* `Alphabet.returnOffset?_append`, `Alphabet.callOffset?_reverse_append`: a piece of a word that leaves
  known numbers of calls pending is passed in one step.
* `Alphabet.Balanced`: a piece in which every call has its return and every return its call.
* `Alphabet.exists_of_returnOffset?`, `Alphabet.findCall?_of_balanced`: the matching symbol stands at the
  other end of a balanced piece.
* `Alphabet.Balanced.normalize_append`: a balanced piece has a normal form of its own.
-/

namespace BehavioralAutomata.Alphabet

variable {α : Type u} [DecidableEq α] {A : Alphabet α}

theorem returnOffset?_append {n m : Nat} {v : List α} (h : A.pendingFrom? n v = some m)
    (w : List α) : A.returnOffset? n (v ++ w) = (A.returnOffset? m w).map (· + v.length) := by
  induction v generalizing n with
  | nil =>
    cases h
    simp
  | cons s v ih =>
    rw [pendingFrom?] at h
    rw [List.cons_append, returnOffset?]
    split at h
    · rw [ih h, Option.map_map]
      rfl
    · split at h
      · cases h
      · next hn =>
        rw [if_neg hn, ih h, Option.map_map]
        rfl
    · rw [ih h, Option.map_map]
      rfl

theorem callOffset?_reverse_append {n m : Nat} {v : List α} (h : A.pendingFrom? n v = some m)
    (w : List α) :
    A.callOffset? m (v.reverse ++ w) = (A.callOffset? n w).map (· + v.length) := by
  induction v generalizing n w with
  | nil =>
    cases h
    simp
  | cons s v ih =>
    rw [pendingFrom?] at h
    rw [List.reverse_cons, List.append_assoc, List.singleton_append]
    split at h
    · next hs =>
      rw [ih h, callOffset?, hs]
      simp [Option.map_map, Function.comp_def, Nat.add_comm, Nat.add_left_comm]
    · next hs =>
      split at h
      · cases h
      · next hn =>
        rw [ih h, callOffset?, hs]
        simp only [Nat.sub_add_cancel (Nat.pos_of_ne_zero hn), Option.map_map]
        simp [Function.comp_def, Nat.add_comm, Nat.add_left_comm]
    · next hs =>
      rw [ih h, callOffset?]
      split
      · next hs' => simp_all
      · next hs' => simp_all
      · simp [Option.map_map, Function.comp_def, Nat.add_comm, Nat.add_left_comm]

/-! ## Balanced pieces -/

/-- Every call of the word has its return in it, and every return its call. -/
def Balanced (A : Alphabet α) (w : List α) : Prop := A.pendingFrom? 0 w = some 0

theorem Balanced.returnOffset? {v : List α} (h : A.Balanced v) (w : List α) :
    A.returnOffset? 0 (v ++ A.ret :: w) = some v.length := by
  rw [returnOffset?_append h, Alphabet.returnOffset?, kind?_eq_ret_iff.2 rfl]
  simp

/-- In front of the return that ends a procedure stands a balanced piece. -/
theorem exists_of_returnOffset?_from {n k : Nat} {w : List α}
    (h : A.returnOffset? n w = some k) :
    ∃ t y, w = t ++ A.ret :: y ∧ t.length = k ∧ A.pendingFrom? n t = some 0 := by
  induction w generalizing n k with
  | nil => cases h
  | cons s w ih =>
    rw [Alphabet.returnOffset?] at h
    split at h
    · next hs =>
      obtain ⟨j, hj, rfl⟩ := Option.map_eq_some_iff.1 h
      obtain ⟨t, y, rfl, rfl, ht⟩ := ih hj
      exact ⟨s :: t, y, rfl, rfl, by rw [pendingFrom?, hs]; exact ht⟩
    · next hs =>
      split at h
      · next hn =>
        cases h
        subst hn
        exact ⟨[], w, by rw [kind?_eq_ret_iff.1 hs]; rfl, rfl, rfl⟩
      · next hn =>
        obtain ⟨j, hj, rfl⟩ := Option.map_eq_some_iff.1 h
        obtain ⟨t, y, rfl, rfl, ht⟩ := ih hj
        refine ⟨s :: t, y, rfl, rfl, ?_⟩
        rw [pendingFrom?, hs]
        simp only [if_neg hn]
        exact ht
    · next hcall hret =>
      obtain ⟨j, hj, rfl⟩ := Option.map_eq_some_iff.1 h
      obtain ⟨t, y, rfl, rfl, ht⟩ := ih hj
      refine ⟨s :: t, y, rfl, rfl, ?_⟩
      rw [pendingFrom?]
      split
      · next hs => exact absurd hs hcall
      · next hs => exact absurd hs hret
      · exact ht

theorem exists_of_returnOffset? {k : Nat} {w : List α} (h : A.returnOffset? 0 w = some k) :
    ∃ t y, w = t ++ A.ret :: y ∧ t.length = k ∧ A.Balanced t :=
  exists_of_returnOffset?_from h

theorem normalize_cons_of_ne_call {s : α} (hs : A.kind? s ≠ some .call) (w : List α) :
    A.normalize (s :: w) = s :: A.normalize w := by
  rw [normalize_cons, invocationLength, isCall, decide_eq_false hs, if_neg Bool.false_ne_true]
  rfl

/-- An invocation that ends is shrunk to its call. -/
theorem Balanced.normalize_call {t : List α} (h : A.Balanced t) {c : α}
    (hc : A.kind? c = some .call) (w : List α) :
    A.normalize (c :: (t ++ A.ret :: w)) = c :: A.normalize w := by
  have hlen : A.invocationLength c (t ++ A.ret :: w) = t.length + 1 := by
    rw [invocationLength, isCall, hc, h.returnOffset?]
    rfl
  rw [normalize_cons, hlen, ← List.drop_drop, List.drop_left]
  rfl

/-- A word that leaves fewer calls pending than there were has the return that ends the nearest of them. -/
theorem exists_of_pendingFrom?_add {k n m : Nat} {u : List α}
    (h : A.pendingFrom? (k + (n + 1)) u = some m) (hm : m ≤ n) :
    ∃ t y, u = t ++ A.ret :: y ∧ A.pendingFrom? k t = some 0 ∧ A.pendingFrom? n y = some m := by
  induction u generalizing k with
  | nil =>
    have hlen := Option.some.inj h
    omega
  | cons s u ih =>
    rw [pendingFrom?] at h
    split at h
    · next hs =>
      obtain ⟨t, y, rfl, ht, hy⟩ := ih (k := k + 1) (by rwa [Nat.add_right_comm])
      exact ⟨s :: t, y, rfl, by rw [pendingFrom?, hs]; exact ht, hy⟩
    · next hs =>
      rw [if_neg (by omega)] at h
      cases k with
      | zero =>
        refine ⟨[], u, by rw [kind?_eq_ret_iff.1 hs]; rfl, rfl, ?_⟩
        rwa [Nat.zero_add, Nat.add_sub_cancel] at h
      | succ k =>
        obtain ⟨t, y, rfl, ht, hy⟩ := ih (k := k) (by rwa [Nat.add_right_comm] at h)
        exact ⟨s :: t, y, rfl, by rw [pendingFrom?, hs]; exact ht, hy⟩
    · next hcall hret =>
      obtain ⟨t, y, rfl, ht, hy⟩ := ih h
      refine ⟨s :: t, y, rfl, ?_, hy⟩
      rw [pendingFrom?]
      split
      · next hs => exact absurd hs hcall
      · next hs => exact absurd hs hret
      · exact ht

/-- A balanced piece is brought to normal form without what stands behind it. -/
theorem Balanced.normalize_append {u : List α} (h : A.Balanced u) (v : List α) :
    A.normalize (u ++ v) = A.normalize u ++ A.normalize v := by
  induction hn : u.length using Nat.strongRecOn generalizing u with
  | _ n ih =>
  cases u with
  | nil => rfl
  | cons s u =>
    rw [Balanced, pendingFrom?] at h
    split at h
    · next hs =>
      obtain ⟨t, y, rfl, ht, hy⟩ := exists_of_pendingFrom?_add (k := 0) (n := 0) h (Nat.le_refl 0)
      have hrest : A.normalize (y ++ v) = A.normalize y ++ A.normalize v :=
        ih y.length (by simp [← hn]; omega) hy rfl
      have happend : s :: (t ++ A.ret :: y) ++ v = s :: (t ++ A.ret :: (y ++ v)) := by simp
      rw [happend, Balanced.normalize_call ht hs, Balanced.normalize_call ht hs, hrest]
      rfl
    · cases h
    · next hcall _ =>
      have hrest : A.normalize (u ++ v) = A.normalize u ++ A.normalize v :=
        ih u.length (by simp [← hn]) h rfl
      rw [List.cons_append, normalize_cons_of_ne_call hcall, normalize_cons_of_ne_call hcall, hrest]
      rfl

/-- The call in front of a balanced piece is still pending behind it. -/
theorem findCall?_of_balanced {w x u : List α} {c : α} {i : Nat} (hw : w.take i = x ++ c :: u)
    (hc : A.kind? c = some .call) (hu : A.Balanced u) : A.findCall? w i = some x.length := by
  have hlen : min i w.length = x.length + 1 + u.length := by
    have := congrArg List.length hw
    simp at this
    omega
  have hrev : (w.take i).reverse = u.reverse ++ c :: x.reverse := by
    rw [hw]
    simp
  rw [findCall?, hrev, callOffset?_reverse_append hu, callOffset?, hc]
  simp
  omega

/-! ## Invocations -/

/-- The word has an invocation of `c` that ends. -/
def Invokes (A : Alphabet α) (w : List α) (c : α) : Prop :=
  ∃ x t y, w = x ++ c :: (t ++ A.ret :: y) ∧ A.Balanced t

theorem Invokes.append_left {w : List α} {c : α} (h : A.Invokes w c) (v : List α) :
    A.Invokes (v ++ w) c := by
  obtain ⟨x, t, y, rfl, ht⟩ := h
  exact ⟨v ++ x, t, y, by simp, ht⟩

theorem Invokes.append_right {w : List α} {c : α} (h : A.Invokes w c) (v : List α) :
    A.Invokes (w ++ v) c := by
  obtain ⟨x, t, y, rfl, ht⟩ := h
  exact ⟨x, t, y ++ v, by simp, ht⟩

end BehavioralAutomata.Alphabet
