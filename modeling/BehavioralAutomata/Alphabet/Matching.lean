import BehavioralAutomata.Alphabet.Basic

/-!
# Matching calls and returns

A return ends the nearest call before it that no earlier return ends. Words need not be balanced, and
symbols outside the alphabet count as internal ones.

* `Alphabet.findReturn?` and `Alphabet.findCall?` look from a position for the return that ends the
  procedure which is active there, and for the call that started it.
* `Alphabet.withReturns` finds the matching returns of all positions at once.
* `Alphabet.normalize` shrinks every ended invocation to its call.
* `Alphabet.pending?` counts the calls that no return ends.
-/

namespace BehavioralAutomata.Alphabet

variable {α : Type u} [DecidableEq α]

/-- The offset of the return that ends the procedure which is active in front of `w`, where `depth`
calls have to be ended before. -/
def returnOffset? (A : Alphabet α) (depth : Nat) : List α → Option Nat
  | [] => none
  | s :: w =>
    match A.kind? s with
    | some .call => (A.returnOffset? (depth + 1) w).map (· + 1)
    | some .ret => if depth = 0 then some 0 else (A.returnOffset? (depth - 1) w).map (· + 1)
    | _ => (A.returnOffset? depth w).map (· + 1)

/-- The offset of the call that started the procedure which is active behind a word that is given
from its end, where `depth` returns have to find their calls before. -/
def callOffset? (A : Alphabet α) (depth : Nat) : List α → Option Nat
  | [] => none
  | s :: w =>
    match A.kind? s with
    | some .ret => (A.callOffset? (depth + 1) w).map (· + 1)
    | some .call => if depth = 0 then some 0 else (A.callOffset? (depth - 1) w).map (· + 1)
    | _ => (A.callOffset? depth w).map (· + 1)

/-- The position of the return, at `i` or later, that ends the procedure which is active at `i`. -/
def findReturn? (A : Alphabet α) (w : List α) (i : Nat) : Option Nat :=
  (A.returnOffset? 0 (w.drop i)).map (i + ·)

/-- The position of the call, before `i`, that is still pending at `i`. -/
def findCall? (A : Alphabet α) (w : List α) (i : Nat) : Option Nat :=
  (A.callOffset? 0 (w.take i).reverse).map (min i w.length - 1 - ·)

theorem returnOffset?_lt {A : Alphabet α} {w : List α} (h : A.returnOffset? n w = some k) :
    k < w.length := by
  induction w generalizing n k with
  | nil => simp [returnOffset?] at h
  | cons s w ih =>
    rw [returnOffset?] at h
    split at h <;> grind [Option.map_eq_some_iff]

theorem callOffset?_lt {A : Alphabet α} {w : List α} (h : A.callOffset? n w = some k) :
    k < w.length := by
  induction w generalizing n k with
  | nil => simp [callOffset?] at h
  | cons s w ih =>
    rw [callOffset?] at h
    split at h <;> grind [Option.map_eq_some_iff]

theorem findCall?_lt {A : Alphabet α} {w : List α} (h : A.findCall? w i = some j) :
    j < i ∧ j < w.length := by
  obtain ⟨k, hk, rfl⟩ := Option.map_eq_some_iff.1 h
  have := callOffset?_lt hk
  simp at this
  omega

/-! ## All matching returns of a word -/

/-- What is known of the rest of a word. -/
structure Suffix (α : Type u) where
  /-- Its symbols, each with the offset of the return that ends the procedure which is active behind
  it. -/
  marked : List (α × Option Nat)
  /-- How long it is from each return on that ends no call of it, nearest first. -/
  returns : List Nat
  length : Nat

/-- The rest of a word that starts one symbol earlier. -/
def Suffix.extend (A : Alphabet α) (s : α) (v : Suffix α) : Suffix α where
  marked := (s, v.returns.head?.map (v.length - ·)) :: v.marked
  returns :=
    match A.kind? s with
    | some .call => v.returns.tail
    | some .ret => (v.length + 1) :: v.returns
    | _ => v.returns
  length := v.length + 1

/-- Every symbol of `w` with the offset, behind it, of the return that ends the procedure which is
active there. One pass from the end finds all of them. -/
def withReturns (A : Alphabet α) (w : List α) : List (α × Option Nat) :=
  (w.foldr (Suffix.extend A) ⟨[], [], 0⟩).marked

theorem le_length_of_mem_returns {A : Alphabet α} {w : List α}
    (h : r ∈ (w.foldr (Suffix.extend A) ⟨[], [], 0⟩).returns) :
    r ≤ (w.foldr (Suffix.extend A) ⟨[], [], 0⟩).length := by
  induction w with
  | nil => simp at h
  | cons s w ih =>
    rw [List.foldr_cons, Suffix.extend] at *
    revert h
    dsimp only
    split <;> intro h
    · exact Nat.le_succ_of_le (ih (List.mem_of_mem_tail h))
    · rcases List.mem_cons.1 h with rfl | h
      · exact Nat.le_refl _
      · exact Nat.le_succ_of_le (ih h)
    · exact Nat.le_succ_of_le (ih h)

theorem returnOffset?_eq (A : Alphabet α) (n : Nat) (w : List α) :
    A.returnOffset? n w = (w.foldr (Suffix.extend A) ⟨[], [], 0⟩).returns[n]?.map
      ((w.foldr (Suffix.extend A) ⟨[], [], 0⟩).length - ·) := by
  induction w generalizing n with
  | nil => simp [returnOffset?]
  | cons s w ih =>
    have hle := fun r => @le_length_of_mem_returns α _ r A w
    rw [returnOffset?, List.foldr_cons, Suffix.extend]
    generalize w.foldr (Suffix.extend A) ⟨[], [], 0⟩ = v at *
    have hmap (k : Nat) : (v.returns[k]?.map (v.length - ·)).map (· + 1) =
        v.returns[k]?.map (v.length + 1 - ·) := by
      cases h : v.returns[k]? with
      | none => rfl
      | some r =>
        have := hle r (List.mem_of_getElem? h)
        simp; omega
    split
    · simp [*]
    · cases n with
      | zero => simp [*]
      | succ n => simp [*]
    · simp [*]

@[simp] theorem withReturns_nil (A : Alphabet α) : A.withReturns [] = [] := rfl

theorem withReturns_cons (A : Alphabet α) (s : α) (w : List α) :
    A.withReturns (s :: w) = (s, A.returnOffset? 0 w) :: A.withReturns w := by
  rw [returnOffset?_eq, withReturns, List.foldr_cons, Suffix.extend, List.head?_eq_getElem?]
  rfl

theorem map_fst_withReturns (A : Alphabet α) (w : List α) :
    (A.withReturns w).map Prod.fst = w := by
  induction w with
  | nil => rfl
  | cons s w ih => rw [withReturns_cons, List.map_cons, ih]

theorem drop_withReturns (A : Alphabet α) (n : Nat) (w : List α) :
    (A.withReturns w).drop n = A.withReturns (w.drop n) := by
  induction w generalizing n with
  | nil => simp
  | cons s w ih => cases n with
    | zero => rfl
    | succ n => rw [withReturns_cons, List.drop_succ_cons, List.drop_succ_cons, ih]

/-! ## Normal words -/

/-- How many symbols behind `s` belong to the invocation that `s` starts and `w` ends. -/
def invocationLength (A : Alphabet α) (s : α) (w : List α) : Nat :=
  if A.isCall s then (A.returnOffset? 0 w).elim 0 (· + 1) else 0

/-- `normalize` behind the first `skip` symbols of a word with its matching returns. -/
def normalizeFrom (A : Alphabet α) : (skip : Nat) → List (α × Option Nat) → List α
  | _, [] => []
  | 0, (s, r) :: w => s :: A.normalizeFrom (if A.isCall s then r.elim 0 (· + 1) else 0) w
  | skip + 1, _ :: w => A.normalizeFrom skip w

/-- What the outermost procedure sees of `w`: every invocation that ends within `w` is shrunk to its
call, and calls that stay pending are kept with all that follows them. -/
def normalize (A : Alphabet α) (w : List α) : List α := A.normalizeFrom 0 (A.withReturns w)

theorem normalizeFrom_eq (A : Alphabet α) (n : Nat) (w : List (α × Option Nat)) :
    A.normalizeFrom n w = A.normalizeFrom 0 (w.drop n) := by
  induction w generalizing n with
  | nil => cases n <;> rfl
  | cons s w ih => cases n with
    | zero => rfl
    | succ n => exact ih n

@[simp] theorem normalize_nil (A : Alphabet α) : A.normalize [] = [] := rfl

theorem normalize_cons (A : Alphabet α) (s : α) (w : List α) :
    A.normalize (s :: w) = s :: A.normalize (w.drop (A.invocationLength s w)) := by
  rw [normalize, withReturns_cons, normalizeFrom, normalizeFrom_eq, drop_withReturns]
  rfl

/-! ## Pending calls -/

/-- `pending?` behind a word that leaves `n` calls pending. -/
def pendingFrom? (A : Alphabet α) (n : Nat) : List α → Option Nat
  | [] => some n
  | s :: w =>
    match A.kind? s with
    | some .call => A.pendingFrom? (n + 1) w
    | some .ret => if n = 0 then none else A.pendingFrom? (n - 1) w
    | _ => A.pendingFrom? n w

/-- The number of calls in `w` that no return ends, or `none` if some return ends no call of `w`. -/
def pending? (A : Alphabet α) (w : List α) : Option Nat := A.pendingFrom? 0 w

theorem pendingFrom?_append (A : Alphabet α) (n : Nat) (u v : List α) :
    A.pendingFrom? n (u ++ v) = (A.pendingFrom? n u).bind (A.pendingFrom? · v) := by
  induction u generalizing n with
  | nil => rfl
  | cons s u ih =>
    simp only [List.cons_append, pendingFrom?]
    split <;> grind

end BehavioralAutomata.Alphabet
