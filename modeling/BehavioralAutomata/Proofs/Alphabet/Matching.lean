import BehavioralAutomata.Proofs.Alphabet.Balance
import Mathlib.Order.Bounds.Basic

/-!
# Calls and returns find each other

The search for the return of a call goes forwards and the search for the pending call goes backwards, each
with a count of its own. Words need not be balanced: they may have calls that no return ends, and returns
that end no call.

* `Alphabet.findReturn?_eq_some_iff`, `Alphabet.findCall?_eq_some_iff`: either search passes a balanced
  piece of the word.
* `Alphabet.PendingAt`: the return of a call does not stand in front of a position.
* `Alphabet.isGreatest_findCall?`, `Alphabet.exists_findCall?`: the backward search finds the last call that
  is pending.
* `Alphabet.calls_match_returns`: the two searches find the same pairs.
-/

namespace BehavioralAutomata.Alphabet

variable {α : Type u} [DecidableEq α] {A : Alphabet α}

/-- The symbol at `i` is a call. -/
def CallAt (A : Alphabet α) (w : List α) (i : Nat) : Prop :=
  ∃ c, w[i]? = some c ∧ A.kind? c = some .call

/-- The symbol at `j` is the return symbol. -/
def ReturnAt (A : Alphabet α) (w : List α) (j : Nat) : Prop := w[j]? = some A.ret

/-- The call at `i` stands in front of `n`, and the return that ends it does not. -/
structure PendingAt (A : Alphabet α) (w : List α) (n i : Nat) : Prop where
  before : i < min n w.length
  call : A.CallAt w i
  not_ended : ∀ j < n, A.findReturn? w (i + 1) ≠ some j

omit [DecidableEq α] in
theorem eq_append_of_getElem? {w : List α} {i : Nat} {a : α} (h : w[i]? = some a) :
    w = w.take i ++ a :: w.drop (i + 1) := by
  obtain ⟨hi, rfl⟩ := List.getElem?_eq_some_iff.1 h
  rw [← List.drop_eq_getElem_cons hi, List.take_append_drop]

omit [DecidableEq α] in
theorem drop_of_take_eq {w x u : List α} {n : Nat} {c : α} (h : w.take n = x ++ c :: u) :
    w.drop (x.length + 1) = u ++ w.drop n := by
  have hw : w = x ++ [c] ++ (u ++ w.drop n) := by
    conv_lhs => rw [← List.take_append_drop n w, h]
    simp
  conv_lhs => rw [hw]
  exact List.drop_left' (by simp)

/-! ## The forward search -/

theorem findReturn?_eq_some_iff {w : List α} {i j : Nat} :
    A.findReturn? w i = some j ↔
      ∃ t y, w.drop i = t ++ A.ret :: y ∧ A.Balanced t ∧ j = i + t.length := by
  rw [findReturn?, Option.map_eq_some_iff]
  constructor
  · rintro ⟨k, hk, rfl⟩
    obtain ⟨t, y, hdrop, rfl, ht⟩ := exists_of_returnOffset? hk
    exact ⟨t, y, hdrop, ht, rfl⟩
  · rintro ⟨t, y, hdrop, ht, rfl⟩
    exact ⟨t.length, by rw [hdrop, ht.returnOffset?], rfl⟩

/-- A word in which nothing ends the active procedure leaves some number of calls pending. -/
theorem exists_pendingFrom?_of_returnOffset? {n : Nat} {u : List α} (h : A.returnOffset? n u = none) :
    ∃ m, A.pendingFrom? n u = some m := by
  induction u generalizing n with
  | nil => exact ⟨n, rfl⟩
  | cons s u ih =>
    rw [returnOffset?] at h
    rw [pendingFrom?]
    split at h
    · exact ih (Option.map_eq_none_iff.1 h)
    · split at h
      · cases h
      · next hn =>
        obtain ⟨m, hm⟩ := ih (Option.map_eq_none_iff.1 h)
        exact ⟨m, by simp only [if_neg hn, hm]⟩
    · exact ih (Option.map_eq_none_iff.1 h)

/-! ## The backward search -/

/-- Behind the call that is found stands a piece that leaves the returns that were searched for. -/
theorem exists_of_callOffset?_from {n k : Nat} {w : List α} (h : A.callOffset? n w = some k) :
    ∃ t c y, w = t ++ c :: y ∧ t.length = k ∧ A.kind? c = some .call ∧
      A.pendingFrom? 0 t.reverse = some n := by
  induction w generalizing n k with
  | nil => cases h
  | cons s w ih =>
    rw [callOffset?] at h
    split at h
    · next hs =>
      obtain ⟨j, hj, rfl⟩ := Option.map_eq_some_iff.1 h
      obtain ⟨t, c, y, rfl, rfl, hc, ht⟩ := ih hj
      refine ⟨s :: t, c, y, rfl, rfl, hc, ?_⟩
      rw [List.reverse_cons, pendingFrom?_append, ht, Option.bind_some, pendingFrom?, hs]
      rfl
    · next hs =>
      split at h
      · next hn =>
        cases h
        exact ⟨[], s, w, rfl, rfl, hs, by rw [hn]; rfl⟩
      · next hn =>
        obtain ⟨j, hj, rfl⟩ := Option.map_eq_some_iff.1 h
        obtain ⟨t, c, y, rfl, rfl, hc, ht⟩ := ih hj
        refine ⟨s :: t, c, y, rfl, rfl, hc, ?_⟩
        rw [List.reverse_cons, pendingFrom?_append, ht, Option.bind_some, pendingFrom?, hs]
        exact congrArg some (Nat.sub_add_cancel (Nat.pos_of_ne_zero hn))
    · next hret hcall =>
      obtain ⟨j, hj, rfl⟩ := Option.map_eq_some_iff.1 h
      obtain ⟨t, c, y, rfl, rfl, hc, ht⟩ := ih hj
      refine ⟨s :: t, c, y, rfl, rfl, hc, ?_⟩
      rw [List.reverse_cons, pendingFrom?_append, ht, Option.bind_some, pendingFrom?]
      split
      · next hs => exact absurd hs hcall
      · next hs => exact absurd hs hret
      · rfl

theorem findCall?_eq_some_iff {w : List α} {n i : Nat} :
    A.findCall? w n = some i ↔
      ∃ x c u, w.take n = x ++ c :: u ∧ A.kind? c = some .call ∧ A.Balanced u ∧ x.length = i := by
  constructor
  · intro h
    obtain ⟨k, hk, rfl⟩ := Option.map_eq_some_iff.1 h
    obtain ⟨t, c, y, hrev, rfl, hc, ht⟩ := exists_of_callOffset?_from hk
    have hw : w.take n = y.reverse ++ c :: t.reverse := by
      rw [← List.reverse_reverse (w.take n), hrev]
      simp
    refine ⟨y.reverse, c, t.reverse, hw, hc, ht, ?_⟩
    have hlen := congrArg List.length hrev
    simp at hlen ⊢
    omega
  · rintro ⟨x, c, u, hw, hc, hu, rfl⟩
    exact findCall?_of_balanced hw hc hu

/-- The fewer returns have to find their calls before, the sooner a call is found. -/
theorem callOffset?_isSome_of_le {n m : Nat} {w : List α} (h : (A.callOffset? m w).isSome = true)
    (hnm : n ≤ m) : (A.callOffset? n w).isSome = true := by
  induction w generalizing n m with
  | nil => cases h
  | cons s w ih =>
    rw [callOffset?] at h ⊢
    split at h
    · rw [Option.isSome_map] at h ⊢
      exact ih h (Nat.succ_le_succ hnm)
    · by_cases hn : n = 0
      · simp [hn]
      · rw [if_neg (by omega), Option.isSome_map] at h
        simp only [if_neg hn, Option.isSome_map]
        exact ih h (by omega)
    · rw [Option.isSome_map] at h ⊢
      exact ih h hnm

/-- A call in a balanced piece has its return in it. -/
theorem Balanced.exists_return {u v : List α} {c : α} (h : A.Balanced (u ++ c :: v))
    (hc : A.kind? c = some .call) : ∃ t y, v = t ++ A.ret :: y ∧ A.Balanced t := by
  rw [Balanced, pendingFrom?_append] at h
  obtain ⟨m, _, h⟩ := Option.bind_eq_some_iff.1 h
  rw [pendingFrom?, hc] at h
  obtain ⟨t, y, rfl, ht, _⟩ :=
    exists_of_pendingFrom?_add (k := 0) (n := m) (by rwa [Nat.zero_add]) (Nat.zero_le m)
  exact ⟨t, y, rfl, ht⟩

/-! ## Pending calls -/

/-- A call is pending if nothing behind it ends it. -/
theorem pendingAt_iff {w : List α} {n k : Nat} :
    A.PendingAt w n k ↔ ∃ x c u, w.take n = x ++ c :: u ∧ A.kind? c = some .call ∧
      A.returnOffset? 0 u = none ∧ x.length = k := by
  constructor
  · rintro ⟨hk, ⟨c, hget, hc⟩, hends⟩
    have hget' : (w.take n)[k]? = some c := by
      rw [List.getElem?_take_of_lt (by omega), hget]
    have htake := eq_append_of_getElem? hget'
    have hlen : ((w.take n).take k).length = k := by
      simp
      omega
    refine ⟨_, c, _, htake, hc, ?_, hlen⟩
    by_contra hne
    obtain ⟨r, hr⟩ := Option.ne_none_iff_exists'.1 hne
    have hlt := returnOffset?_lt hr
    obtain ⟨t, y, hdrop, rfl, ht⟩ := exists_of_returnOffset? hr
    have hrest := drop_of_take_eq htake
    rw [hlen, hdrop, List.append_assoc, List.cons_append] at hrest
    refine hends _ ?_ (findReturn?_eq_some_iff.2 ⟨t, _, hrest, ht, rfl⟩)
    simp at hlt
    omega
  · rintro ⟨x, c, u, htake, hc, hu, rfl⟩
    have hlen := congrArg List.length htake
    simp only [List.length_take, List.length_append, List.length_cons] at hlen
    have hget : w[x.length]? = some c := by
      rw [← List.getElem?_take_of_lt (j := n) (by omega), htake]
      simp
    refine ⟨by omega, ⟨c, hget, hc⟩, fun j hj hret => ?_⟩
    -- a return that ends the call stands behind all of `u`
    obtain ⟨m, hm⟩ := exists_pendingFrom?_of_returnOffset? hu
    rw [findReturn?, drop_of_take_eq htake, returnOffset?_append hm, Option.map_map] at hret
    obtain ⟨r, hr, rfl⟩ := Option.map_eq_some_iff.1 hret
    have hlt := returnOffset?_lt hr
    rw [List.length_drop] at hlt
    simp only [Function.comp_apply] at hj
    omega

/-- The call that is found is pending, and no later one is. -/
theorem isGreatest_findCall? {w : List α} {n i : Nat} (h : A.findCall? w n = some i) :
    IsGreatest {k | A.PendingAt w n k} i := by
  obtain ⟨x, c, u, htake, hc, hu, rfl⟩ := findCall?_eq_some_iff.1 h
  refine ⟨pendingAt_iff.2 ⟨x, c, u, htake, hc, ?_, rfl⟩, fun k hk => ?_⟩
  · have hnone := returnOffset?_append hu []
    rwa [List.append_nil, returnOffset?, Option.map_none] at hnone
  · obtain ⟨x', d, u', htake', hd, hu', rfl⟩ := pendingAt_iff.1 hk
    by_contra hlt
    rcases List.append_eq_append_iff.1 (htake.symm.trans htake') with ⟨z, hx, hz⟩ | ⟨z, hx, _⟩
    · cases z with
      | nil =>
        rw [hx, List.append_nil] at hlt
        exact hlt (Nat.le_refl _)
      | cons e z =>
        -- a later call belongs to the balanced piece, and so does its return
        obtain ⟨_, rfl⟩ := List.cons.inj hz
        obtain ⟨t, y, rfl, ht⟩ := hu.exists_return hd
        cases (ht.returnOffset? y).symm.trans hu'
    · rw [hx, List.length_append] at hlt
      exact hlt (Nat.le_add_right ..)

/-- As long as a call is pending, one is found. -/
theorem exists_findCall? {w : List α} {n k : Nat} (h : A.PendingAt w n k) :
    ∃ i, A.findCall? w n = some i := by
  obtain ⟨x, c, u, htake, hc, hu, rfl⟩ := pendingAt_iff.1 h
  obtain ⟨m, hm⟩ := exists_pendingFrom?_of_returnOffset? hu
  have hfound : (A.callOffset? m (w.take n).reverse).isSome = true := by
    rw [htake, List.reverse_append, List.reverse_cons, List.append_assoc,
      callOffset?_reverse_append hm, List.singleton_append, callOffset?, hc]
    rfl
  rw [← Option.isSome_iff_exists, findCall?, Option.isSome_map]
  exact callOffset?_isSome_of_le hfound (Nat.zero_le m)

/-! ## The two searches -/

theorem findCall?_of_findReturn? {w : List α} {i j : Nat} (hi : A.CallAt w i)
    (h : A.findReturn? w (i + 1) = some j) : A.findCall? w j = some i := by
  obtain ⟨c, hget, hc⟩ := hi
  obtain ⟨t, y, hdrop, ht, rfl⟩ := findReturn?_eq_some_iff.1 h
  have hlen : (w.take i).length = i :=
    List.length_take_of_le (Nat.le_of_lt (List.getElem?_eq_some_iff.1 hget).1)
  have hw : w = w.take i ++ c :: t ++ A.ret :: y := by
    rw [List.append_assoc, List.cons_append, ← hdrop]
    exact eq_append_of_getElem? hget
  refine findCall?_eq_some_iff.2 ⟨w.take i, c, t, ?_, hc, ht, hlen⟩
  conv_lhs => rw [hw]
  exact List.take_left' (by simp [hlen]; omega)

theorem findReturn?_of_findCall? {w : List α} {i j : Nat} (hj : A.ReturnAt w j)
    (h : A.findCall? w j = some i) : A.findReturn? w (i + 1) = some j := by
  obtain ⟨x, c, u, htake, _, hu, rfl⟩ := findCall?_eq_some_iff.1 h
  obtain ⟨hlt, hret⟩ := List.getElem?_eq_some_iff.1 hj
  have hdrop := drop_of_take_eq htake
  rw [List.drop_eq_getElem_cons hlt, hret] at hdrop
  have hlen := congrArg List.length htake
  rw [List.length_take_of_le (Nat.le_of_lt hlt), List.length_append, List.length_cons] at hlen
  exact findReturn?_eq_some_iff.2 ⟨u, _, hdrop, hu, by omega⟩

/-- A call finds a return exactly if the return finds the call. At every position the last call is found
whose return does not stand before it. -/
theorem calls_match_returns (A : Alphabet α) (w : List α) :
    (∀ i j, A.CallAt w i → A.ReturnAt w j →
      (A.findReturn? w (i + 1) = some j ↔ A.findCall? w j = some i)) ∧
    ∀ n, (∀ i, A.findCall? w n = some i ↔ IsGreatest {k | A.PendingAt w n k} i) ∧
      (A.findCall? w n = none ↔ ∀ k, ¬ A.PendingAt w n k) := by
  refine ⟨fun i j hi hj => ⟨findCall?_of_findReturn? hi, findReturn?_of_findCall? hj⟩,
    fun n => ⟨fun i => ⟨isGreatest_findCall?, fun h => ?_⟩, fun h k hk => ?_, fun h => ?_⟩⟩
  · obtain ⟨j, hj⟩ := exists_findCall? h.1
    rw [hj, (isGreatest_findCall? hj).unique h]
  · obtain ⟨i, hi⟩ := exists_findCall? hk
    cases h.symm.trans hi
  · by_contra hne
    obtain ⟨i, hi⟩ := Option.ne_none_iff_exists'.1 hne
    exact h i (isGreatest_findCall? hi).1

/-- An alphabet with two calls. -/
def twoCalls : Alphabet Char := ⟨['i'], ['S', 'T'], 'R', by decide⟩

/-- The second return ends no call, and the last one ends `T`. -/
theorem calls_match_returns_strayReturn :
    twoCalls.findCall? ['S', 'R', 'R', 'T', 'i', 'R'] 5 = some 3 ∧
      ∀ k, ¬ twoCalls.PendingAt ['S', 'R', 'R', 'T', 'i', 'R'] 3 k := by
  obtain ⟨hpairs, hpending⟩ := calls_match_returns twoCalls ['S', 'R', 'R', 'T', 'i', 'R']
  have hfound : twoCalls.findReturn? ['S', 'R', 'R', 'T', 'i', 'R'] 4 = some 5 := by decide
  exact ⟨(hpairs 3 5 ⟨'T', rfl, by decide⟩ rfl).1 hfound, (hpending 3).2.1 (by decide)⟩

end BehavioralAutomata.Alphabet
