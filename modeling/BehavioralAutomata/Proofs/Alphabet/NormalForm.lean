import BehavioralAutomata.Proofs.Alphabet.Matching

/-!
# What is left of a word in its normal form

The normal form is found in one pass that leaves out an invocation when it has found its return. What it
leaves out can be told from the pairs of calls and returns alone, in words that need not be balanced.

* `Alphabet.Enclosed`: the symbol stands behind a call, and not behind the return that ends it.
* `Alphabet.exists_findReturn?_of_within`: an invocation within one that ends has its return there as well,
  so that the pass does not go on inside of one.
* `Alphabet.pass_induction`: induction in the steps of the pass.
* `Alphabet.normalize_eq_atPositions`: the normal form has the symbols that are not enclosed.
* `Alphabet.ret_not_mem_normalize`, `Alphabet.normalize_of_ret_not_mem`: if every return ends a call, the
  normal form has no return, and such words are normal.
-/

namespace BehavioralAutomata

/-- The symbols of a word at the positions that have a property. -/
def atPositions {α : Type u} (w : List α) (p : Nat → Prop) [DecidablePred p] : List α :=
  (w.zipIdx.filter fun e => p e.2).map Prod.fst

section

variable {α : Type u} {p : Nat → Prop} [DecidablePred p]

theorem atPositions_append (u v : List α) :
    atPositions (u ++ v) p = atPositions u p ++ atPositions v (p <| u.length + ·) := by
  have hshift : v.zipIdx u.length = v.zipIdx.map fun e => (e.1, u.length + e.2) :=
    List.zipIdx_eq_map_add
  simp only [atPositions, List.zipIdx_append, Nat.zero_add, hshift, List.filter_append,
    List.map_append, List.filter_map, List.map_map]
  rfl

/-- A first symbol that is left when all that follows is left out. -/
theorem atPositions_cons_of_forall {s : α} {w : List α} (hzero : p 0)
    (h : ∀ i, 0 < i → i ≤ w.length → ¬ p i) : atPositions (s :: w) p = [s] := by
  have hnil : (w.zipIdx 1).filter (fun e => p e.2) = [] := by
    refine List.filter_eq_nil_iff.2 fun e he => ?_
    have hmem := List.mem_zipIdx he
    have := h e.2 (by omega) (by omega)
    simpa using this
  rw [atPositions, List.zipIdx_cons, List.filter_cons_of_pos (by simpa using hzero), hnil]
  rfl

theorem atPositions_congr {q : Nat → Prop} [DecidablePred q] (h : ∀ i, p i ↔ q i) (w : List α) :
    atPositions w p = atPositions w q := by
  simp only [atPositions, h]

end

namespace Alphabet

variable {α : Type u} [DecidableEq α] {A : Alphabet α}

instance (w : List α) (i : Nat) : Decidable (A.CallAt w i) :=
  decidable_of_iff (w[i]?.any A.isCall = true) <| by
    simp [CallAt, isCall, Option.any_eq_true]

/-- The symbol at `p` stands behind a call, and not behind the return that ends the call. -/
def Enclosed (A : Alphabet α) (w : List α) (p : Nat) : Prop :=
  ∃ i < p, A.CallAt w i ∧ ∃ j ∈ A.findReturn? w (i + 1), p ≤ j

instance (A : Alphabet α) (w : List α) : DecidablePred (A.Enclosed w) := fun p =>
  inferInstanceAs (Decidable (∃ i < p, A.CallAt w i ∧ ∃ j ∈ A.findReturn? w (i + 1), p ≤ j))

theorem findReturn?_drop (w : List α) (n i : Nat) :
    A.findReturn? w (n + i) = (A.findReturn? (w.drop n) i).map (n + ·) := by
  rw [findReturn?, findReturn?, List.drop_drop, Option.map_map]
  exact congrArg (Option.map · _) (funext fun k => Nat.add_assoc n i k)

theorem callAt_drop {w : List α} {n i : Nat} : A.CallAt (w.drop n) i ↔ A.CallAt w (n + i) := by
  rw [CallAt, CallAt, List.getElem?_drop]

/-- A call within an invocation that ends has its return within it. -/
theorem exists_findReturn?_of_within {w : List α} {i j k : Nat} (h : A.findReturn? w i = some j)
    (hik : i ≤ k) (hkj : k ≤ j) (hk : A.CallAt w k) :
    ∃ m < j, A.findReturn? w (k + 1) = some m := by
  obtain ⟨t, y, hdrop, ht, rfl⟩ := findReturn?_eq_some_iff.1 h
  obtain ⟨d, rfl⟩ := Nat.exists_eq_add_of_le hik
  obtain ⟨c, hget, hc⟩ := callAt_drop.2 hk
  rw [hdrop] at hget
  rcases Nat.lt_or_eq_of_le (Nat.le_of_add_le_add_left hkj) with hlt | rfl
  · rw [List.getElem?_append_left hlt] at hget
    have hsplit := eq_append_of_getElem? hget
    rw [hsplit] at ht
    obtain ⟨u, z, hrest, hu⟩ := ht.exists_return hc
    have hlen := congrArg List.length hrest
    simp only [List.length_drop, List.length_append, List.length_cons] at hlen
    refine ⟨i + (d + 1 + u.length), by omega, ?_⟩
    have hlocal : A.findReturn? (t ++ A.ret :: y) (d + 1) = some (d + 1 + u.length) := by
      refine findReturn?_eq_some_iff.2 ⟨u, z ++ A.ret :: y, ?_, hu, rfl⟩
      rw [List.drop_append_of_le_length hlt, hrest, List.append_assoc]
      rfl
    rw [Nat.add_assoc, findReturn?_drop, hdrop, hlocal]
    rfl
  · -- the symbol behind the balanced piece is the return
    rw [List.getElem?_append_right (Nat.le_refl _), Nat.sub_self] at hget
    cases hget
    cases (kind?_eq_ret_iff.2 rfl).symm.trans hc

/-! ## What the pass leaves out -/

/-- Behind a piece whose calls have no return further behind, the piece does not matter. -/
theorem enclosed_append_iff {u v : List α}
    (h : ∀ i < u.length, A.CallAt (u ++ v) i → ∀ j ∈ A.findReturn? (u ++ v) (i + 1), j < u.length)
    (p : Nat) : A.Enclosed (u ++ v) (u.length + p) ↔ A.Enclosed v p := by
  have hcall (i : Nat) : A.CallAt v i ↔ A.CallAt (u ++ v) (u.length + i) := by
    rw [← callAt_drop, List.drop_left]
  have hreturn (i : Nat) : A.findReturn? (u ++ v) (u.length + i) =
      (A.findReturn? v i).map (u.length + ·) := by
    rw [findReturn?_drop, List.drop_left]
  constructor
  · rintro ⟨i, hi, hc, j, hj, hpj⟩
    have hle : u.length ≤ i := by
      by_contra hlt
      have := h i (Nat.not_le.1 hlt) hc j hj
      omega
    obtain ⟨i, rfl⟩ := Nat.exists_eq_add_of_le hle
    rw [Nat.add_assoc, hreturn] at hj
    obtain ⟨j', hj', rfl⟩ := Option.mem_map.1 hj
    exact ⟨i, Nat.lt_of_add_lt_add_left hi, (hcall i).2 hc, j', hj', Nat.le_of_add_le_add_left hpj⟩
  · rintro ⟨i, hi, hc, j, hj, hpj⟩
    refine ⟨u.length + i, Nat.add_lt_add_left hi _, (hcall i).1 hc, u.length + j, ?_,
      Nat.add_le_add_left hpj _⟩
    rw [Nat.add_assoc, hreturn]
    exact Option.mem_map_of_mem _ hj

theorem not_enclosed_zero (w : List α) : ¬ A.Enclosed w 0 := fun ⟨i, hi, _⟩ => Nat.not_lt_zero i hi

/-- A call that `w` does not end, or another symbol, is all that one step of the pass takes. -/
theorem normalize_cons_of_pending {s : α} {w : List α}
    (h : A.kind? s = some .call → A.returnOffset? 0 w = none) :
    A.normalize (s :: w) = s :: A.normalize w := by
  by_cases hs : A.kind? s = some .call
  · have hzero : A.invocationLength s w = 0 := by
      rw [invocationLength, h hs]
      exact ite_self 0
    rw [normalize_cons, hzero, List.drop_zero]
  · exact normalize_cons_of_ne_call hs w

/-- Induction in the steps of the pass, which takes an invocation that ends, or else one symbol. -/
@[elab_as_elim]
theorem pass_induction {motive : List α → Prop} (A : Alphabet α) (nil : motive [])
    (ended : ∀ c t w, A.kind? c = some .call → A.Balanced t → motive w →
      motive (c :: (t ++ A.ret :: w)))
    (pending : ∀ s w, (A.kind? s = some .call → A.returnOffset? 0 w = none) → motive w →
      motive (s :: w))
    (w : List α) : motive w := by
  induction hn : w.length using Nat.strongRecOn generalizing w with
  | _ n ih =>
  cases w with
  | nil => exact nil
  | cons s w =>
    have hrest : motive w := ih w.length (by simp [← hn]) w rfl
    by_cases hs : A.kind? s = some .call
    · cases hw : A.returnOffset? 0 w with
      | none => exact pending s w (fun _ => hw) hrest
      | some k =>
        obtain ⟨t, y, rfl, _, ht⟩ := exists_of_returnOffset? hw
        exact ended s t y hs ht (ih y.length (by simp [← hn]; omega) y rfl)
    · exact pending s w (fun h => absurd h hs) hrest

/-- Of an invocation that ends only the call is left. -/
theorem Balanced.atPositions_call {t : List α} (ht : A.Balanced t) {c : α}
    (hc : A.kind? c = some .call) (w : List α) :
    atPositions (c :: (t ++ A.ret :: w)) (¬ A.Enclosed (c :: (t ++ A.ret :: w)) ·) =
      c :: atPositions w (¬ A.Enclosed w ·) := by
  have hsplit : c :: (t ++ A.ret :: w) = (c :: (t ++ [A.ret])) ++ w := by simp
  have hlen : (c :: (t ++ [A.ret])).length = t.length + 2 := by simp
  have hcall : A.CallAt (c :: (t ++ A.ret :: w)) 0 := ⟨c, rfl, hc⟩
  have hreturn : A.findReturn? (c :: (t ++ A.ret :: w)) 1 = some (1 + t.length) :=
    findReturn?_eq_some_iff.2 ⟨t, w, rfl, ht, rfl⟩
  rw [hsplit] at hcall hreturn ⊢
  have hinside : ∀ i < (c :: (t ++ [A.ret])).length, A.CallAt (c :: (t ++ [A.ret]) ++ w) i →
      ∀ j ∈ A.findReturn? (c :: (t ++ [A.ret]) ++ w) (i + 1), j < (c :: (t ++ [A.ret])).length := by
    intro i hi hcall' j hj
    rw [hlen] at hi ⊢
    cases i with
    | zero =>
      cases hreturn.symm.trans hj
      omega
    | succ i =>
      obtain ⟨m, hm, hret⟩ := exists_findReturn?_of_within hreturn (by omega) (by omega) hcall'
      cases hret.symm.trans hj
      omega
  have hrest (p : Nat) := enclosed_append_iff hinside p
  rw [atPositions_append, atPositions_congr fun p => not_congr (hrest p),
    atPositions_cons_of_forall (not_enclosed_zero _), List.singleton_append]
  intro i hi hle
  rw [List.length_append, List.length_singleton] at hle
  exact not_not.2 ⟨0, hi, hcall, _, hreturn, by omega⟩

theorem atPositions_cons_of_pending {s : α} {w : List α}
    (h : A.kind? s = some .call → A.returnOffset? 0 w = none) :
    atPositions (s :: w) (¬ A.Enclosed (s :: w) ·) = s :: atPositions w (¬ A.Enclosed w ·) := by
  have hinside : ∀ i < [s].length, A.CallAt ([s] ++ w) i →
      ∀ j ∈ A.findReturn? ([s] ++ w) (i + 1), j < [s].length := by
    intro i hi hcall j hj
    obtain rfl := Nat.lt_one_iff.1 hi
    obtain ⟨c, hget, hc⟩ := hcall
    cases hget
    rw [findReturn?, List.singleton_append, List.drop_one, List.tail_cons, h hc] at hj
    cases hj
  have hrest (p : Nat) := enclosed_append_iff hinside p
  have hsplit : s :: w = [s] ++ w := rfl
  rw [hsplit, atPositions_append, atPositions_congr fun p => not_congr (hrest p),
    atPositions_cons_of_forall (not_enclosed_zero _), List.singleton_append]
  exact fun i hi hle => absurd hi (Nat.not_lt.2 hle)

/-- The normal form has the symbols that belong to no invocation which ends. -/
theorem normalize_eq_atPositions (A : Alphabet α) (w : List α) :
    A.normalize w = atPositions w (¬ A.Enclosed w ·) := by
  induction w using A.pass_induction with
  | nil => rfl
  | ended c t w hc ht ih => rw [ht.normalize_call hc, ht.atPositions_call hc, ih]
  | pending s w hs ih => rw [normalize_cons_of_pending hs, atPositions_cons_of_pending hs, ih]

/-! ## Normal words -/

/-- A word without returns is normal. -/
theorem normalize_of_ret_not_mem {w : List α} (h : A.ret ∉ w) : A.normalize w = w := by
  induction w with
  | nil => rfl
  | cons s w ih =>
    rw [List.mem_cons, not_or] at h
    have hnone : A.returnOffset? 0 w = none := by
      by_contra hne
      obtain ⟨k, hk⟩ := Option.ne_none_iff_exists'.1 hne
      obtain ⟨t, y, rfl, _, _⟩ := exists_of_returnOffset? hk
      exact h.2 (List.mem_append_right _ List.mem_cons_self)
    rw [normalize_cons_of_pending fun _ => hnone, ih h.2]

/-- Calls that are pending in front of a word stay pending if its returns have calls of their own. -/
theorem pendingFrom?_add {n m : Nat} {w : List α} (h : A.pendingFrom? n w = some m) (k : Nat) :
    A.pendingFrom? (n + k) w = some (m + k) := by
  induction w generalizing n with
  | nil =>
    cases h
    rfl
  | cons s w ih =>
    rw [pendingFrom?] at h ⊢
    split at h
    · rw [Nat.add_right_comm]
      exact ih h
    · split at h
      · cases h
      · next hn =>
        rw [if_neg (by omega), Nat.sub_add_comm (Nat.pos_of_ne_zero hn)]
        exact ih h
    · exact ih h

/-- If every return of a word ends a call, no return is left of it. -/
theorem ret_not_mem_normalize {w : List α} {n : Nat} (h : A.pending? w = some n) :
    A.ret ∉ A.normalize w := by
  induction w using A.pass_induction generalizing n with
  | nil => exact List.not_mem_nil
  | ended c t w hc ht ih =>
    have hne : A.ret ≠ c := by
      rintro rfl
      cases (kind?_eq_ret_iff.2 rfl).symm.trans hc
    have hw : A.pending? w = some n := by
      simp only [pending?, pendingFrom?, hc, pendingFrom?_append, pendingFrom?_add ht 1,
        Option.bind_some, kind?_eq_ret_iff.2 rfl] at h
      exact h
    rw [ht.normalize_call hc, List.mem_cons, not_or]
    exact ⟨hne, ih hw⟩
  | pending s w hs ih =>
    rw [pending?, pendingFrom?] at h
    -- nothing ends a procedure that is active in front of `w`, so that its returns have their calls
    obtain ⟨hne, m, hw⟩ : A.ret ≠ s ∧ ∃ m, A.pending? w = some m := by
      split at h
      · next hcall =>
        refine ⟨?_, exists_pendingFrom?_of_returnOffset? (hs hcall)⟩
        rintro rfl
        cases (kind?_eq_ret_iff.2 rfl).symm.trans hcall
      · cases h
      · next hret =>
        exact ⟨fun heq => hret (kind?_eq_ret_iff.2 heq.symm), n, h⟩
    rw [normalize_cons_of_pending hs, List.mem_cons, not_or]
    exact ⟨hne, ih hw⟩

/-- A normal form has exactly the symbols that no call with its return encloses. If every return of the
word ends a call, no return is left, and so nothing more can be left out. Behind a piece in which every
call has its return, the normal form begins anew. -/
theorem normalize_keeps (A : Alphabet α) (w : List α) :
    A.normalize w = atPositions w (¬ A.Enclosed w ·) ∧
    (∀ n, A.pending? w = some n →
      A.ret ∉ A.normalize w ∧ A.normalize (A.normalize w) = A.normalize w) ∧
    ∀ u v, w = u ++ v → A.pending? u = some 0 →
      A.normalize w = A.normalize u ++ A.normalize v := by
  refine ⟨A.normalize_eq_atPositions w, fun n hn => ?_, fun u v hw hu => ?_⟩
  · have hret := ret_not_mem_normalize hn
    exact ⟨hret, normalize_of_ret_not_mem hret⟩
  · rw [hw]
    exact Balanced.normalize_append hu v

/-- The invocation of `S` ends with that of `T` in it, and the second one of `T` does not. -/
theorem normalize_keeps_pendingCall :
    ['S', 'i', 'T', 'S'] = atPositions ['S', 'T', 'R', 'i', 'R', 'i', 'T', 'S', 'i', 'R']
      (¬ twoCalls.Enclosed ['S', 'T', 'R', 'i', 'R', 'i', 'T', 'S', 'i', 'R'] ·) ∧
    'R' ∉ twoCalls.normalize ['S', 'T', 'R', 'i', 'R', 'i', 'T', 'S', 'i', 'R'] ∧
    twoCalls.normalize ['S', 'i', 'T', 'S'] = ['S', 'i', 'T', 'S'] := by
  obtain ⟨hkept, hpending, happend⟩ :=
    normalize_keeps twoCalls ['S', 'T', 'R', 'i', 'R', 'i', 'T', 'S', 'i', 'R']
  obtain ⟨hret, hnormal⟩ := hpending 1 (by decide)
  have hsplit := happend ['S', 'T', 'R', 'i', 'R', 'i'] ['T', 'S', 'i', 'R'] rfl (by decide)
  have heq : twoCalls.normalize ['S', 'T', 'R', 'i', 'R', 'i', 'T', 'S', 'i', 'R'] =
      ['S', 'i', 'T', 'S'] := by
    rw [hsplit]
    decide
  rw [heq] at hkept hnormal
  exact ⟨hkept, hret, hnormal⟩

end Alphabet

end BehavioralAutomata
