import BehavioralAutomata.Proofs.Alphabet.Matching

/-!
# What a word shows of its calls

* `Alphabet.accesses`: the calls of a word, each with what stands in front of it.
* `Alphabet.bodies`: the calls of a word that are ended, each with what is read before its return.

Both list the calls in the order of their positions. `accesses_cons` and `bodies_cons` are the recursions
on the word that the definitions by position do not show.
-/

namespace BehavioralAutomata.Alphabet

variable {α : Type u} [DecidableEq α]

/-- The call at position `i`, with what stands in front of it. -/
def accessAt? (A : Alphabet α) (w : List α) (i : Nat) : Option (α × List α) :=
  (w[i]?.filter A.isCall).map fun c => (c, w.take i)

/-- The call at position `i`, with what stands between it and the return that ends it. -/
def bodyAt? (A : Alphabet α) (w : List α) (i : Nat) : Option (α × List α) :=
  (w[i]?.filter A.isCall).bind fun c =>
    (A.findReturn? w (i + 1)).map fun j => (c, (w.take j).drop (i + 1))

/-- The calls of a word, each with what stands in front of it. -/
def accesses (A : Alphabet α) (w : List α) : List (α × List α) :=
  (List.range w.length).filterMap (A.accessAt? w)

/-- The calls of a word that some return ends, each with what stands between the call and its return. -/
def bodies (A : Alphabet α) (w : List α) : List (α × List α) :=
  (List.range w.length).filterMap (A.bodyAt? w)

theorem filterMap_range_succ {β : Type v} (f : Nat → Option β) (n : Nat) :
    (List.range (n + 1)).filterMap f =
      (f 0).toList ++ (List.range n).filterMap fun i => f (i + 1) := by
  rw [List.range_succ_eq_map, List.filterMap_cons, List.filterMap_map]
  cases f 0 <;> rfl

variable {A : Alphabet α}

theorem isCall_iff {s : α} : A.isCall s = true ↔ A.kind? s = some .call := decide_eq_true_iff

@[simp] theorem accesses_nil : A.accesses [] = [] := rfl

@[simp] theorem bodies_nil : A.bodies [] = [] := rfl

theorem accessAt?_zero (s : α) (w : List α) :
    A.accessAt? (s :: w) 0 = if A.isCall s then some (s, []) else none := by
  rw [accessAt?, List.getElem?_cons_zero, Option.filter_some]
  split <;> rfl

theorem accessAt?_succ (s : α) (w : List α) (i : Nat) :
    A.accessAt? (s :: w) (i + 1) = (A.accessAt? w i).map fun e => (e.1, s :: e.2) := by
  rw [accessAt?, accessAt?, Option.map_map, List.getElem?_cons_succ, List.take_succ_cons]
  rfl

theorem accesses_cons (s : α) (w : List α) : A.accesses (s :: w) =
    (if A.isCall s then [(s, [])] else []) ++ (A.accesses w).map fun e => (e.1, s :: e.2) := by
  rw [accesses, List.length_cons, filterMap_range_succ, accessAt?_zero, accesses, List.map_filterMap]
  simp only [accessAt?_succ]
  cases A.isCall s <;> rfl

theorem findReturn?_cons_succ (s : α) (w : List α) (i : Nat) :
    A.findReturn? (s :: w) (i + 1) = (A.findReturn? w i).map (· + 1) := by
  rw [findReturn?, findReturn?, List.drop_succ_cons, Option.map_map]
  exact congrArg (Option.map · _) (funext fun n => Nat.add_right_comm i 1 n)

theorem bodyAt?_zero (s : α) (w : List α) : A.bodyAt? (s :: w) 0 =
    if A.isCall s then (A.returnOffset? 0 w).map fun n => (s, w.take n) else none := by
  rw [bodyAt?, List.getElem?_cons_zero, Option.filter_some]
  split
  · rw [Option.bind_some, findReturn?_cons_succ, findReturn?, List.drop_zero, Option.map_map,
      Option.map_map]
    refine congrArg (Option.map · _) (funext fun n => ?_)
    simp
  · rfl

theorem bodyAt?_succ (s : α) (w : List α) (i : Nat) :
    A.bodyAt? (s :: w) (i + 1) = A.bodyAt? w i := by
  rw [bodyAt?, bodyAt?, List.getElem?_cons_succ, findReturn?_cons_succ]
  simp only [Option.map_map, Function.comp_def, List.take_succ_cons, List.drop_succ_cons]

theorem bodies_cons (s : α) (w : List α) : A.bodies (s :: w) =
    (if A.isCall s then ((A.returnOffset? 0 w).map fun n => (s, w.take n)).toList else []) ++
      A.bodies w := by
  rw [bodies, List.length_cons, filterMap_range_succ, bodyAt?_zero, bodies]
  simp only [bodyAt?_succ]
  cases A.isCall s <;> rfl

theorem mem_accesses_iff {w u : List α} {c : α} : (c, u) ∈ A.accesses w ↔
    ∃ i, w[i]? = some c ∧ A.isCall c = true ∧ w.take i = u := by
  simp only [accesses, accessAt?, List.mem_filterMap, Option.map_eq_some_iff,
    Option.filter_eq_some_iff, Prod.mk.injEq, List.mem_range]
  constructor
  · rintro ⟨i, _, _, ⟨hi, hc⟩, rfl, hu⟩
    exact ⟨i, hi, hc, hu⟩
  · rintro ⟨i, hi, hc, hu⟩
    exact ⟨i, (List.getElem?_eq_some_iff.1 hi).1, c, ⟨hi, hc⟩, rfl, hu⟩

theorem mem_bodies_iff {w t : List α} {c : α} : (c, t) ∈ A.bodies w ↔
    ∃ i j, w[i]? = some c ∧ A.isCall c = true ∧ A.findReturn? w (i + 1) = some j ∧
      (w.take j).drop (i + 1) = t := by
  simp only [bodies, bodyAt?, List.mem_filterMap, Option.bind_eq_some_iff, Option.map_eq_some_iff,
    Option.filter_eq_some_iff, Prod.mk.injEq, List.mem_range]
  constructor
  · rintro ⟨i, _, _, ⟨hi, hc⟩, j, hj, rfl, ht⟩
    exact ⟨i, j, hi, hc, hj, ht⟩
  · rintro ⟨i, j, hi, hc, hj, ht⟩
    exact ⟨i, (List.getElem?_eq_some_iff.1 hi).1, c, ⟨hi, hc⟩, j, hj, rfl, ht⟩

theorem mem_accesses_iff_append {w u : List α} {c : α} :
    (c, u) ∈ A.accesses w ↔ A.isCall c = true ∧ ∃ v, w = u ++ c :: v := by
  rw [mem_accesses_iff]
  constructor
  · rintro ⟨i, hi, hc, rfl⟩
    exact ⟨hc, _, eq_append_of_getElem? hi⟩
  · rintro ⟨hc, v, rfl⟩
    exact ⟨u.length, by simp, hc, by simp⟩

theorem mem_bodies_iff_append {w t : List α} {c : α} : (c, t) ∈ A.bodies w ↔
    A.isCall c = true ∧ ∃ u v, w = u ++ c :: (t ++ A.ret :: v) ∧ A.Balanced t := by
  rw [mem_bodies_iff]
  constructor
  · rintro ⟨i, j, hi, hc, hj, rfl⟩
    obtain ⟨t, v, hdrop, ht, rfl⟩ := findReturn?_eq_some_iff.1 hj
    rw [List.drop_take, hdrop, Nat.add_sub_cancel_left, List.take_left]
    exact ⟨hc, w.take i, v, hdrop ▸ eq_append_of_getElem? hi, ht⟩
  · rintro ⟨hc, u, v, rfl, ht⟩
    have hdrop : (u ++ c :: (t ++ A.ret :: v)).drop (u.length + 1) = t ++ A.ret :: v := by
      rw [List.append_cons]
      exact List.drop_left' (by simp)
    refine ⟨u.length, u.length + 1 + t.length, by simp, hc,
      findReturn?_eq_some_iff.2 ⟨t, v, hdrop, ht, rfl⟩, ?_⟩
    rw [List.drop_take, hdrop, Nat.add_sub_cancel_left, List.take_left]

theorem invokes_iff {w : List α} {c : α} (hc : A.isCall c = true) :
    A.Invokes w c ↔ ∃ t, (c, t) ∈ A.bodies w := by
  constructor
  · rintro ⟨u, t, v, hw, ht⟩
    exact ⟨t, mem_bodies_iff_append.2 ⟨hc, u, v, hw, ht⟩⟩
  · rintro ⟨t, h⟩
    obtain ⟨_, u, v, hw, ht⟩ := mem_bodies_iff_append.1 h
    exact ⟨u, t, v, hw, ht⟩

end BehavioralAutomata.Alphabet
