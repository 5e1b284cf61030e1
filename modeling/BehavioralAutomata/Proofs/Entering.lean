import BehavioralAutomata.Learning.ObservationTable.Basic
import Mathlib.Logic.Basic

/-!
# Entering what is new

* `AssocMap.enter`: pairs are entered one after the other, unless their keys are known.
* `AssocMap.newKeys`: the keys that entering pairs brings in, in the order in which it does.
-/

namespace BehavioralAutomata

theorem eraseDups_filter {κ : Type u} [DecidableEq κ] (p : κ → Bool) (l : List κ) :
    (l.filter p).eraseDups = l.eraseDups.filter p := by
  induction hn : l.length using Nat.strongRecOn generalizing l with
  | _ n ih =>
  cases l with
  | nil => rfl
  | cons a l =>
    have hlt : (l.filter fun b => !b == a).length < n := by
      rw [← hn]
      exact Nat.lt_succ_of_le (List.length_filter_le _ _)
    rw [List.eraseDups_cons, List.filter_cons, List.filter_cons, ← ih _ hlt _ rfl]
    split
    · rw [List.eraseDups_cons, List.filter_filter, List.filter_filter]
      simp only [Bool.and_comm]
    · next ha =>
      rw [List.filter_filter]
      congr 1
      refine List.filter_congr fun b _ => ?_
      by_cases hb : b = a
      · simp [hb, ha]
      · simp [hb]

namespace AssocMap

variable {κ : Type} {ν : Type v} [DecidableEq κ]

/-- Enters the pairs of a list. A key that is known keeps its value, and a new one takes its first. -/
def enter (m : AssocMap κ ν) (es : List (κ × ν)) : AssocMap κ ν :=
  es.foldl (fun m e => m.insertNew e.1 e.2) m

/-- The keys in a list of pairs that are new, each once, in the order in which they come first. -/
def newKeys (m : AssocMap κ ν) (es : List (κ × ν)) : List κ :=
  (es.map Prod.fst).eraseDups.filter (!m.contains ·)

variable {m n : AssocMap κ ν} {k : κ}

@[simp] theorem enter_nil (m : AssocMap κ ν) : m.enter [] = m := rfl

@[simp] theorem newKeys_nil (m : AssocMap κ ν) : m.newKeys [] = [] := rfl

theorem enter_append (m : AssocMap κ ν) (es fs : List (κ × ν)) :
    m.enter (es ++ fs) = (m.enter es).enter fs := List.foldl_append

theorem get?_enter (m : AssocMap κ ν) (es : List (κ × ν)) (k : κ) :
    (m.enter es).get? k = (m.get? k).or (es.lookup k) := by
  induction es generalizing m with
  | nil => simp
  | cons e es ih =>
    obtain ⟨k', v⟩ := e
    rw [enter, List.foldl_cons]
    refine (ih _).trans ?_
    rw [get?_insertNew, List.lookup_cons]
    by_cases hk : k = k'
    · subst hk
      cases m.get? k <;> simp
    · simp [hk, beq_eq_false_iff_ne.2 hk]

theorem isSome_lookup (es : List (κ × ν)) (k : κ) :
    (es.lookup k).isSome = (es.map Prod.fst).elem k := by
  induction es with
  | nil => rfl
  | cons e es ih =>
    rw [List.lookup_cons, List.map_cons, List.elem_cons, ← ih]
    cases k == e.1 <;> rfl

theorem lookup_ne_none_iff {es : List (κ × ν)} : es.lookup k ≠ none ↔ ∃ v, (k, v) ∈ es := by
  rw [Option.ne_none_iff_isSome, isSome_lookup, List.elem_iff]
  simp

theorem contains_enter (m : AssocMap κ ν) (es : List (κ × ν)) (k : κ) :
    (m.enter es).contains k = (m.contains k || (es.lookup k).isSome) := by
  rw [contains, contains, get?_enter, Option.isSome_or]

theorem mem_keys_enter {es : List (κ × ν)} :
    k ∈ (m.enter es).keys ↔ k ∈ m.keys ∨ ∃ v, (k, v) ∈ es := by
  rw [← contains_iff, contains_enter, Bool.or_eq_true, contains_iff, ← lookup_ne_none_iff,
    Option.isSome_iff_ne_none]

/-- The new keys are the ones that entering the pairs brings in. -/
theorem mem_newKeys_iff {es : List (κ × ν)} :
    k ∈ m.newKeys es ↔ m.get? k = none ∧ (m.enter es).get? k ≠ none := by
  rw [newKeys, List.mem_filter, List.mem_eraseDups, ← List.elem_iff, ← isSome_lookup, get?_enter,
    contains]
  cases m.get? k <;> simp [Option.isSome_iff_ne_none]

theorem mem_keys_enter_iff_newKeys {es : List (κ × ν)} :
    k ∈ (m.enter es).keys ↔ k ∈ m.keys ∨ k ∈ m.newKeys es := by
  rw [mem_newKeys_iff, get?_eq_none_iff, Ne, get?_eq_none_iff, not_not, mem_keys_enter]
  by_cases hk : k ∈ m.keys
  · exact iff_of_true (.inl hk) (.inl hk)
  · rw [and_iff_right hk]
    exact or_congr_right (or_iff_right hk).symm

theorem nodup_newKeys (m : AssocMap κ ν) (es : List (κ × ν)) : (m.newKeys es).Nodup :=
  (ObservationTable.nodup_eraseDups _).sublist List.filter_sublist

theorem newKeys_congr (h : ∀ k, m.contains k = n.contains k) (es : List (κ × ν)) :
    m.newKeys es = n.newKeys es := by
  simp only [newKeys, h]

theorem newKeys_append (m : AssocMap κ ν) (es fs : List (κ × ν)) :
    m.newKeys (es ++ fs) = m.newKeys es ++ (m.enter es).newKeys fs := by
  rw [newKeys, List.map_append, List.eraseDups_append, List.filter_append]
  congr 1
  rw [List.removeAll, eraseDups_filter, List.filter_filter, newKeys]
  refine List.filter_congr fun k _ => ?_
  rw [contains_enter, isSome_lookup, Bool.not_or]

theorem enter_singleton (m : AssocMap κ ν) (k : κ) (v : ν) :
    m.enter [(k, v)] = if m.contains k then m else m.insert k v := by
  rw [enter, List.foldl_cons, List.foldl_nil, insertNew, contains]
  cases m.get? k <;> rfl

theorem newKeys_singleton (m : AssocMap κ ν) (k : κ) (v : ν) :
    m.newKeys [(k, v)] = if m.contains k then [] else [k] := by
  rw [newKeys, List.map_cons, List.map_nil, List.eraseDups_cons]
  cases h : m.contains k <;> simp [h]

/-- Nothing is entered if there is nothing new. -/
theorem enter_of_newKeys {es : List (κ × ν)} (h : m.newKeys es = []) : m.enter es = m := by
  induction es with
  | nil => rfl
  | cons e es ih =>
    obtain ⟨k, v⟩ := e
    have hsplit := newKeys_append m [(k, v)] es
    rw [List.singleton_append, h, newKeys_singleton] at hsplit
    obtain ⟨hk, hrest⟩ := List.append_eq_nil_iff.1 hsplit.symm
    have hentered : m.enter [(k, v)] = m := by
      rw [enter_singleton]
      split at hk
      · next hcontains => rw [if_pos hcontains]
      · cases hk
    rw [← List.singleton_append, enter_append, hentered]
    exact ih (hentered ▸ hrest)

end AssocMap

end BehavioralAutomata
