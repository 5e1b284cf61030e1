import BehavioralAutomata.Proofs.Random.Keylocks
import BehavioralAutomata.Proofs.Random.Shapes

/-!
# When no system can be drawn

* `Random.eq_error_iff_of_guards`: the two checks that every kind of system begins with are all that can
  fail if nothing fails behind them.
* `Random.systemOf_eq_error_iff`: the procedures are too small, or there is nothing to call.
* `Random.keylockSystem_eq_error_iff`: the procedures are too small, or they have nothing to read.
  `Random.returns_of_calls_eq_nil`: that there is nothing to call goes unnoticed.
* `Random.drawing_fails_iff`: these are all failures, whatever is drawn.
-/

namespace BehavioralAutomata.Random

variable {G α : Type} {size : Nat} {e : GenerationError α}

theorem eq_error_iff_of_guards {δ : Type} {x : Draw G α δ} {P : δ → Prop} {symbols : List α}
    {missing : GenerationError α} (hsmall : size ≤ 2 → ∀ g, x.run g = .error .tooFewStates)
    (hmissing : 2 < size → symbols = [] → ∀ g, x.run g = .error missing)
    (hreturns : 2 < size → symbols ≠ [] → Returns x P) (g : G) :
    x.run g = .error e ↔
      size ≤ 2 ∧ e = .tooFewStates ∨ 2 < size ∧ symbols = [] ∧ e = missing := by
  constructor
  · intro herror
    rcases Nat.lt_or_ge 2 size with h | h
    · by_cases hsymbols : symbols = []
      · rw [hmissing h hsymbols] at herror
        exact .inr ⟨h, hsymbols, (Except.error.inj herror).symm⟩
      · exact absurd herror ((hreturns h hsymbols).ne_error g e)
    · rw [hsmall h] at herror
      exact .inl ⟨h, (Except.error.inj herror).symm⟩
  · rintro (⟨h, rfl⟩ | ⟨h, hsymbols, rfl⟩)
    · exact hsmall h g
    · exact hmissing h hsymbols g

variable [DecidableEq α] [RandomSource G] {A : Alphabet α} {procedure : Draw G α (Acceptor α)}

/-! ## Systems whose procedures are drawn one after the other -/

theorem systemOf_of_le (h : size ≤ 2) (g : G) :
    (systemOf A size procedure).run g = .error .tooFewStates := by
  rw [systemOf, if_pos h]
  rfl

/-- Without calls there are no procedures to draw, and the initial one can not be chosen. -/
theorem systemOf_of_calls_eq_nil (h : 2 < size) (hcalls : A.calls = []) (g : G) :
    (systemOf A size procedure).run g = .error .noCalls := by
  rw [systemOf, if_neg (Nat.not_le_of_gt h), initialCall, hcalls]
  rfl

theorem systemOf_eq_error_iff [RandomSource.Bounded G] (hprocedure : 2 < size → Returns procedure (Shape A size))
    (g : G) : (systemOf A size procedure).run g = .error e ↔
      size ≤ 2 ∧ e = .tooFewStates ∨ 2 < size ∧ A.calls = [] ∧ e = .noCalls :=
  eq_error_iff_of_guards systemOf_of_le systemOf_of_calls_eq_nil
    (fun h hcalls => returns_systemOf hcalls h (hprocedure h)) g

/-! ## Keylocks -/

theorem keylockSystem_of_le (h : size ≤ 2) (g : G) :
    (keylockSystem A size).run g = .error .tooFewStates := by
  rw [keylockSystem, if_pos h]
  rfl

theorem keylockSystem_of_internals_eq_nil (h : 2 < size) (hinternals : A.internals = [])
    (g : G) : (keylockSystem A size).run g = .error .noInternals := by
  rw [keylockSystem, if_neg (Nat.not_le_of_gt h), hinternals]
  rfl

section

variable [RandomSource.Bounded G] [RandomSource.Permuting G]

theorem returns_keylockSystem (hinternals : A.internals ≠ []) (h : 2 < size) :
    Returns (keylockSystem A size : Draw G α (PlainSystem α)) fun S =>
      ∃ calls, calls.Perm A.calls ∧ Chained A size calls S := by
  rw [keylockSystem_of_lt hinternals h]
  exact (returns_shuffle A.calls).bind fun calls hcalls =>
    (returns_chained hinternals h hcalls).mono fun S hS => ⟨calls, hcalls, hS⟩

theorem keylockSystem_eq_error_iff (g : G) : (keylockSystem A size).run g = .error e ↔
    size ≤ 2 ∧ e = .tooFewStates ∨ 2 < size ∧ A.internals = [] ∧ e = .noInternals :=
  eq_error_iff_of_guards keylockSystem_of_le keylockSystem_of_internals_eq_nil
    (fun h hinternals => returns_keylockSystem hinternals h) g

/-- Without calls there is a keylock all the same, but no word enters it. -/
theorem returns_of_calls_eq_nil (hinternals : A.internals ≠ []) (h : 2 < size)
    (hcalls : A.calls = []) : Returns (keylockSystem A size : Draw G α (PlainSystem α)) fun S =>
      S.procedures.keys = [] ∧ ∀ w, S.accepts w = true ↔ w = [] := by
  refine (returns_keylockSystem hinternals h).mono fun S hS => ?_
  obtain ⟨calls, hperm, hchained⟩ := hS
  obtain rfl := (hcalls ▸ hperm).eq_nil
  refine ⟨hchained.keys, fun w => ⟨fun haccepts => ?_, fun hw => by rw [hw]; rfl⟩⟩
  cases w with
  | nil => rfl
  | cons a w =>
    have halive : S.reached (a :: w) ≠ .dead := fun hdead => by
      rw [System.accepts, hdead] at haccepts
      cases haccepts
    obtain ⟨_, _, hinitial, _⟩ := System.reached_cons halive
    cases hinitial.symm.trans hchained.initialCall

end

/-- Whatever is drawn, only the checks in front can fail: no number is drawn from an empty range, and no
edge leads to a state that does not exist. A keylock is shuffled first, which must not bring in symbols that
are no calls. -/
theorem drawing_fails_iff [RandomSource.Bounded G] (A : Alphabet α) (size : Nat) (g : G)
    (e : GenerationError α) :
    ((totalSystem A size).run g = .error e ↔
      size ≤ 2 ∧ e = .tooFewStates ∨ 2 < size ∧ A.calls = [] ∧ e = .noCalls) ∧
    ((partialSystem A size).run g = .error e ↔
      size ≤ 2 ∧ e = .tooFewStates ∨ 2 < size ∧ A.calls = [] ∧ e = .noCalls) ∧
    (RandomSource.Permuting G → ((keylockSystem A size).run g = .error e ↔
      size ≤ 2 ∧ e = .tooFewStates ∨ 2 < size ∧ A.internals = [] ∧ e = .noInternals)) :=
  ⟨systemOf_eq_error_iff returns_totalProcedure g,
    systemOf_eq_error_iff returns_partialProcedure g, fun _ => keylockSystem_eq_error_iff g⟩

/-- An alphabet without calls. -/
def callless : Alphabet Char := ⟨['a'], [], 'R', by decide⟩

/-- Without calls the first two kinds of systems fail, and without them alone the third one does not. -/
theorem drawing_fails_iff_callless :
    (totalSystem callless 3).run (⟨0⟩ : Generator) = .error .noCalls ∧
      (partialSystem callless 3).run (⟨0⟩ : Generator) = .error .noCalls ∧
      ∀ e, (keylockSystem callless 3).run (⟨0⟩ : Generator) ≠ .error e := by
  obtain ⟨htotal, hpartial, _⟩ := drawing_fails_iff callless 3 (⟨0⟩ : Generator) .noCalls
  have hfails : 2 < 3 ∧ callless.calls = [] := by decide
  refine ⟨htotal.2 (.inr ⟨hfails.1, hfails.2, rfl⟩), hpartial.2 (.inr ⟨hfails.1, hfails.2, rfl⟩),
    fun e herror => ?_⟩
  obtain ⟨_, _, hkeylock⟩ := drawing_fails_iff callless 3 (⟨0⟩ : Generator) e
  rcases (hkeylock inferInstance).1 herror with ⟨hsmall, _⟩ | ⟨_, hinternals, _⟩
  · exact absurd hsmall (by decide)
  · exact absurd hinternals (by decide)

/-- The other systems refuse this alphabet, but there is a keylock, without procedures. -/
theorem keylockSystem_callless :
    callless.calls = [] ∧ (totalSystem callless 3).run (⟨0⟩ : Generator) = .error .noCalls ∧
      (partialSystem callless 3).run (⟨0⟩ : Generator) = .error .noCalls ∧
      ∃ S g, (keylockSystem callless 3).run (⟨0⟩ : Generator) = .ok (S, g) ∧
        S.procedures.keys = [] := by
  have hcalls : callless.calls = [] := rfl
  have hsize : 2 < 3 := by decide
  obtain ⟨S, g, hS, hkeys, _⟩ := returns_of_calls_eq_nil (by decide) hsize hcalls (⟨0⟩ : Generator)
  exact ⟨hcalls, systemOf_of_calls_eq_nil hsize hcalls _, systemOf_of_calls_eq_nil hsize hcalls _,
    S, g, hS, hkeys⟩

end BehavioralAutomata.Random
