import BehavioralAutomata.Proofs.Loops
import BehavioralAutomata.Random.Generator
import Mathlib.Data.List.Perm.Basic

/-!
# The laws of the generator

* `Generator.below_lt`, `Generator.perm_shuffle`: the generator is bounded, and it permutes.
* `Generator.below_eq_of_stops`: the retries of `Generator.below` are no limit. A loop that draws until a
  number is used ends with the same number, if it ends at all, because the states of the generator repeat.
-/

namespace BehavioralAutomata.Generator

variable {α : Type} {n u : Nat} {g : Generator}

/-! ## Numbers below a bound -/

theorem part_lt (h : 0 < n) (r : UInt64) : part n r < n := by
  have hr := r.toNat_lt_size
  exact Nat.div_lt_of_lt_mul (Nat.mul_lt_mul_of_pos_right hr h)

theorem drawPart_lt (h : 0 < n) (u k : Nat) (g : Generator) : (drawPart n u k g).1 < n := by
  induction k generalizing g with
  | zero => exact part_lt h _
  | succ k ih =>
    rw [drawPart]
    split
    · exact ih _
    · exact part_lt h _

theorem below_lt (g : Generator) (h : 0 < n) : (g.below n).1 < n := drawPart_lt h ..

instance : RandomSource.Bounded Generator := ⟨fun g _ h => g.below_lt h⟩

/-! ## Retries -/

/-- One round of the loop that draws until a number is used. -/
def drawStep (n u : Nat) (g : Generator) : Generator ⊕ (Nat × Generator) :=
  if g.Skips n u then .inl g.next.2 else .inr (part n g.next.1, g.next.2)

/-- The generator behind the next `k` numbers. -/
def ahead (g : Generator) (k : Nat) : Generator := ⟨g.state + UInt64.ofNat k * stride⟩

theorem ahead_zero (g : Generator) : g.ahead 0 = g := by
  change (⟨g.state + 0 * stride⟩ : Generator) = g
  rw [UInt64.zero_mul, UInt64.add_zero]

theorem ahead_next (g : Generator) (k : Nat) : g.next.2.ahead k = g.ahead (k + 1) := by
  rw [ahead, ahead, next, UInt64.ofNat_add, UInt64.add_mul, UInt64.add_assoc, UInt64.add_comm stride]
  rfl

/-- There are as many states as numbers of 64 bits. -/
theorem ahead_mod (g : Generator) (k : Nat) : g.ahead (k % UInt64.size) = g.ahead k := by
  rw [ahead, ahead, UInt64.ofNat_mod_size]

theorem stops_drawPart_or_skips (k : Nat) (g : Generator) :
    Stops (drawStep n u) g (drawPart n u k g) ∨ ∀ j ≤ k, (g.ahead j).Skips n u := by
  induction k generalizing g with
  | zero =>
    by_cases h : g.Skips n u
    · refine .inr fun j hj => ?_
      rwa [Nat.le_zero.1 hj, ahead_zero]
    · exact .inl (.done (if_neg h))
  | succ k ih =>
    by_cases h : g.Skips n u
    · rw [drawPart, if_pos h]
      refine (ih g.next.2).imp (.next (if_pos h)) fun hskips j hj => ?_
      cases j with
      | zero => rwa [ahead_zero]
      | succ j =>
        rw [← ahead_next]
        exact hskips j (Nat.le_of_succ_le_succ hj)
    · rw [drawPart, if_neg h]
      exact .inl (.done (if_neg h))

theorem not_stops_of_skips {r : Nat × Generator} (hskips : ∀ j, (g.ahead j).Skips n u) :
    ¬ Stops (drawStep n u) g r := by
  intro h
  induction h with
  | @done g r hstep =>
    have hfirst := hskips 0
    rw [ahead_zero] at hfirst
    rw [drawStep, if_pos hfirst] at hstep
    cases hstep
  | @next g t r hstep _ ih =>
    have hfirst := hskips 0
    rw [ahead_zero] at hfirst
    rw [drawStep, if_pos hfirst] at hstep
    obtain rfl : g.next.2 = t := Sum.inl.inj hstep
    exact ih fun j => by
      rw [ahead_next]
      exact hskips (j + 1)

/-- The loop without a bound on its rounds draws the same number. -/
theorem below_eq_of_stops {r : Nat × Generator} (h : Stops (drawStep n (uneven n)) g r) :
    g.below n = r := by
  rcases stops_drawPart_or_skips UInt64.size g with hstops | hskips
  · exact hstops.unique h
  · refine absurd h (not_stops_of_skips fun j => ?_)
    rw [← ahead_mod]
    exact hskips _ (Nat.le_of_lt (Nat.mod_lt j (by decide)))

/-! ## Shuffling -/

open scoped List

theorem perm_displace (xs : List α) (x : α) (j : Nat) : (displace xs x j).Perm (x :: xs) := by
  rw [displace]
  split
  · next y hy =>
    obtain ⟨hj, rfl⟩ := List.getElem?_eq_some_iff.1 hy
    calc xs.set j x ++ [xs[j]]
      _ ~ xs[j] :: xs.set j x := List.perm_append_singleton ..
      _ ~ xs[j] :: x :: xs.eraseIdx j := (List.set_perm_cons_eraseIdx hj x).cons _
      _ ~ x :: xs[j] :: xs.eraseIdx j := .swap ..
      _ ~ x :: xs := (List.getElem_cons_eraseIdx_perm hj).cons x
  · exact List.perm_append_singleton x xs

theorem perm_place (drawn : List α × Generator) (x : α) : (place drawn x).1.Perm (x :: drawn.1) := by
  rw [place]
  exact perm_displace ..

theorem perm_foldl_place (rest : List α) (drawn : List α × Generator) :
    (rest.foldl place drawn).1.Perm (drawn.1 ++ rest) := by
  induction rest generalizing drawn with
  | nil => rw [List.foldl_nil, List.append_nil]
  | cons x rest ih =>
    calc ((x :: rest).foldl place drawn).1
      _ ~ (place drawn x).1 ++ rest := ih (place drawn x)
      _ ~ x :: drawn.1 ++ rest := (perm_place drawn x).append_right rest
      _ ~ drawn.1 ++ x :: rest := List.perm_middle.symm

theorem perm_shuffle (g : Generator) (xs : List α) : (g.shuffle xs).1.Perm xs := by
  cases xs with
  | nil => exact .nil
  | cons x rest => exact perm_foldl_place rest ([x], g)

instance : RandomSource.Permuting Generator := ⟨perm_shuffle⟩

end BehavioralAutomata.Generator
