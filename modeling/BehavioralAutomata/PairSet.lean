/-!
# Sets of pairs of numbers

A `PairSet` is a table of truth values that grows as far as it has to, so asking for a pair takes the same
time however many there are. `contains_insert` says what insertion does.
-/

namespace BehavioralAutomata

/-- A finite set of pairs. The pair of `i` and `j` is in it if row `i` has the entry `j` and it is true. -/
structure PairSet where
  rows : Array (Array Bool)

namespace PairSet

instance : EmptyCollection PairSet := ⟨⟨#[]⟩⟩

def contains (s : PairSet) (p : Nat × Nat) : Bool := (s.rows[p.1]?.getD #[])[p.2]?.getD false

/-- Changes the entry `i`, for which there is `a` if the array is too short. -/
def alterAt (xs : Array α) (a : α) (i : Nat) (f : α → α) : Array α :=
  (xs.rightpad (i + 1) a).modify i f

def insert (s : PairSet) (p : Nat × Nat) : PairSet where
  rows := alterAt s.rows #[] p.1 (alterAt · false p.2 fun _ => true)

theorem getD_alterAt (xs : Array α) (a : α) (i k : Nat) (f : α → α) :
    (alterAt xs a i f)[k]?.getD a = if k = i then f (xs[i]?.getD a) else xs[k]?.getD a := by
  have hpad (k : Nat) : (xs.rightpad (i + 1) a)[k]?.getD a = xs[k]?.getD a := by
    rw [Array.rightpad, Array.getElem?_append]
    split
    · rfl
    · next h =>
      rw [Array.getElem?_replicate, Array.getElem?_eq_none (Nat.le_of_not_lt h)]
      split <;> rfl
  rw [alterAt, Array.getElem?_modify]
  by_cases h : k = i
  · subst h
    have hk : k < (xs.rightpad (k + 1) a).size := by simp [Array.rightpad]; omega
    rw [if_pos rfl, if_pos rfl, ← hpad, Array.getElem?_eq_getElem hk]
    rfl
  · rw [if_neg (Ne.symm h), if_neg h, hpad]

@[simp] theorem contains_empty (p : Nat × Nat) : (∅ : PairSet).contains p = false := by
  simp [contains, EmptyCollection.emptyCollection]

@[simp] theorem contains_insert (s : PairSet) (p q : Nat × Nat) :
    (s.insert p).contains q = (q == p || s.contains q) := by
  obtain ⟨i, j⟩ := p
  obtain ⟨k, l⟩ := q
  rw [contains, insert, getD_alterAt]
  by_cases hi : k = i
  · rw [if_pos hi, getD_alterAt]
    by_cases hj : l = j <;> simp [contains, hi, hj]
  · simp [contains, hi]

end PairSet

end BehavioralAutomata
