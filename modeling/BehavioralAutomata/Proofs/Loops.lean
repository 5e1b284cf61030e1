import BehavioralAutomata.Proofs.Outcomes

/-!
# Loops that stop

A loop is a step from states to states or results. `Stops` says that the loop, which has no bound on its
steps, ends with a result because its own test says so. `Stops.of_budget` compares it with the loop that
has a budget. `outcome_of_budget` is the rule for loops with a budget that need not suffice.
-/

namespace BehavioralAutomata

variable {σ : Type u} {ρ : Type v}

/-- The loop with this step ends with the result `r` if it is started in a state. -/
inductive Stops (step : σ → σ ⊕ ρ) : σ → ρ → Prop where
  | done {s : σ} {r : ρ} : step s = .inr r → Stops step s r
  | next {s t : σ} {r : ρ} : step s = .inl t → Stops step t r → Stops step s r

namespace Stops

variable {step : σ → σ ⊕ ρ} {s : σ} {r : ρ}

/-- What every step keeps holds in the state in which the loop ends. -/
theorem exists_last {P : σ → Prop} (keep : ∀ s t, P s → step s = .inl t → P t)
    (h : Stops step s r) (hs : P s) : ∃ t, P t ∧ step t = .inr r := by
  induction h with
  | done hr => exact ⟨_, hs, hr⟩
  | next ht _ ih => exact ih (keep _ _ hs ht)

/-- The state that a loop ends with is the state in which it ends. -/
theorem keeps {ε : Type w} {step : σ → σ ⊕ Except ε σ} {P : σ → Prop} {t : σ}
    (keep : ∀ s t, P s → step s = .inl t → P t) (last : ∀ s t, step s = .inr (.ok t) → t = s)
    (h : Stops step s (.ok t)) (hs : P s) : P t := by
  obtain ⟨u, hu, hlast⟩ := h.exists_last keep hs
  rw [last u t hlast]
  exact hu

/-- A loop has at most one result. -/
theorem unique {r' : ρ} (h : Stops step s r) (h' : Stops step s r') : r = r' := by
  induction h with
  | done hr =>
    cases h' with
    | done hr' => exact Sum.inr.inj (hr.symm.trans hr')
    | next ht _ => cases hr.symm.trans ht
  | next ht _ ih =>
    cases h' with
    | done hr => cases ht.symm.trans hr
    | next ht' h' =>
      cases ht.symm.trans ht'
      exact ih h'

/-- A loop with a budget does what the loop without one does, if its budget is not used up in front of its
last step. `enough n s` is to say that a budget of `n` steps suffices from `s` on. -/
theorem of_budget (run : Nat → σ → ρ) (enough : Nat → σ → Prop)
    (zero : ∀ s, enough 0 s → step s = .inr (run 0 s))
    (succ : ∀ n s, run (n + 1) s = (step s).elim (run n) id)
    (keep : ∀ n s t, enough (n + 1) s → step s = .inl t → enough n t) {n : Nat} {s : σ}
    (h : enough n s) : Stops step s (run n s) := by
  induction n generalizing s with
  | zero => exact .done (zero s h)
  | succ n ih =>
    rw [succ n s]
    cases hstep : step s with
    | inr r => exact .done hstep
    | inl t => exact .next hstep (ih (keep n s t h hstep))

end Stops

/-- What a loop with a budget that may fail ends with, if `P` is kept by its steps. -/
theorem outcome_of_budget {ε : Type w} {step : σ → σ ⊕ Except ε ρ} {good : ρ → Prop}
    {bad : ε → Prop} (run : Nat → σ → Except ε ρ) (P : σ → Prop)
    (succ : ∀ n s, run (n + 1) s = (step s).elim (run n) id)
    (zero : ∀ s, P s → Outcome good bad (run 0 s))
    (keep : ∀ s t, P s → step s = .inl t → P t)
    (last : ∀ s r, P s → step s = .inr r → Outcome good bad r) {s : σ} (hs : P s) (n : Nat) :
    Outcome good bad (run n s) := by
  induction n generalizing s with
  | zero => exact zero s hs
  | succ n ih =>
    rw [succ n s]
    cases hstep : step s with
    | inr r => exact last s r hs hstep
    | inl t => exact ih (keep s t hs hstep)

end BehavioralAutomata
