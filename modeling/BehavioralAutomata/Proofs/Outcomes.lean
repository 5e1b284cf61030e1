/-!
# Outcomes of computations that may fail

`Outcome good bad x` says that `x` ends with a value for which `good` holds or fails with an error for
which `bad` holds. `Outcome.foldlM` is the rule for loops over a list: what is said of the state may
mention the elements that the loop has passed. `exists_of_bind_eq_ok` takes a computation apart that
has ended with a value, and `of_bind_eq_error` one that has failed. `exists_foldlM_eq_pure` is the rule
for loops that never fail, in any monad.
-/

namespace BehavioralAutomata

variable {ε : Type u} {δ ω : Type v} {ι : Type w}

/-- The value or the error that a computation ends with. -/
def Outcome (good : δ → Prop) (bad : ε → Prop) : Except ε δ → Prop
  | .ok d => good d
  | .error e => bad e

namespace Outcome

variable {good : δ → Prop} {bad : ε → Prop} {x : Except ε δ}

theorem intro (hok : ∀ d, x = .ok d → good d) (herror : ∀ e, x = .error e → bad e) :
    Outcome good bad x := by
  cases x with
  | ok d => exact hok d rfl
  | error e => exact herror e rfl

theorem of_eq_ok (h : Outcome good bad x) {d : δ} (hx : x = .ok d) : good d := by
  subst hx
  exact h

theorem of_eq_error (h : Outcome good bad x) {e : ε} (hx : x = .error e) : bad e := by
  subst hx
  exact h

theorem mono {good' : δ → Prop} {bad' : ε → Prop} (h : Outcome good bad x)
    (hg : ∀ d, good d → good' d) (hb : ∀ e, bad e → bad' e) : Outcome good' bad' x := by
  cases x with
  | ok d => exact hg d h
  | error e => exact hb e h

theorem bind {good' : ω → Prop} {f : δ → Except ε ω} (h : Outcome good bad x)
    (hf : ∀ d, good d → Outcome good' bad (f d)) : Outcome good' bad (x >>= f) := by
  cases x with
  | ok d => exact hf d h
  | error e => exact h

theorem foldlM_from {σ : Type v} {P : List ι → σ → Prop} {f : σ → ι → Except ε σ}
    {done xs : List ι} {s : σ}
    (step : ∀ done a s, a ∈ xs → P done s → Outcome (P (done ++ [a])) bad (f s a))
    (h : P done s) : Outcome (P (done ++ xs)) bad (xs.foldlM f s) := by
  induction xs generalizing done s with
  | nil =>
    rw [List.append_nil]
    exact h
  | cons a xs ih =>
    rw [List.foldlM_cons]
    apply Outcome.bind (step done a s List.mem_cons_self h)
    intro t ht
    have := ih (fun done b s hb => step done b s (List.mem_cons_of_mem a hb)) ht
    rwa [List.append_assoc] at this

/-- What holds of the elements that a loop has passed and of its state holds when it has passed all of
them. -/
theorem foldlM {σ : Type v} {P : List ι → σ → Prop} {f : σ → ι → Except ε σ} {xs : List ι} {s : σ}
    (step : ∀ done a s, a ∈ xs → P done s → Outcome (P (done ++ [a])) bad (f s a))
    (h : P [] s) : Outcome (P xs) bad (xs.foldlM f s) :=
  foldlM_from step h

end Outcome

/-- A sequence of two computations ends with a value only if both do. -/
theorem exists_of_bind_eq_ok {x : Except ε δ} {f : δ → Except ε ω} {r : ω} (h : x >>= f = .ok r) :
    ∃ d, x = .ok d ∧ f d = .ok r := by
  cases x with
  | ok d => exact ⟨d, rfl, h⟩
  | error e => cases h

/-- A sequence of two computations fails where the first of them does or behind it. -/
theorem of_bind_eq_error {x : Except ε δ} {f : δ → Except ε ω} {e : ε} (h : x >>= f = .error e) :
    x = .error e ∨ ∃ d, x = .ok d ∧ f d = .error e := by
  cases x with
  | ok d => exact .inr ⟨d, rfl, h⟩
  | error e' =>
    cases h
    exact .inl rfl

theorem exists_of_bind_eq_pure {σ ρ : Type v} {ε : Type v} {x : ExceptT ε Id σ}
    {f : σ → ExceptT ε Id ρ} {r : ρ} (h : x >>= f = pure r) : ∃ s, x = pure s ∧ f s = pure r := by
  cases x using Except.casesOn with
  | ok s => exact ⟨s, rfl, h⟩
  | error e => cases h

theorem exists_of_map_eq_ok {x : Except ε δ} {f : δ → ω} {r : ω} (h : x.map f = .ok r) :
    ∃ d, x = .ok d ∧ f d = r := by
  cases x with
  | ok d => exact ⟨d, rfl, Except.ok.inj h⟩
  | error e => cases h

/-! ## What a computation may answer -/

/-- A monad of which it is known what its computations may answer. If a sequence of two computations answers
`e`, the second answers `e` behind an answer of the first. -/
class Yielding (m : Type v → Type w) [Monad m] where
  Yields {δ : Type v} : m δ → δ → Prop
  eq_of_pure {δ : Type v} {d e : δ} : Yields (pure d) e → d = e
  exists_of_bind {δ ω : Type v} {x : m δ} {f : δ → m ω} {e : ω} :
    Yields (x >>= f) e → ∃ d, Yields x d ∧ Yields (f d) e

instance : Yielding Id.{v} where
  Yields x d := x.run = d
  eq_of_pure h := h
  exists_of_bind h := ⟨_, rfl, h⟩

instance : Yielding (Except.{u, v} ε) where
  Yields x d := x = .ok d
  eq_of_pure h := Except.ok.inj h
  exists_of_bind h := exists_of_bind_eq_ok h

instance {σ : Type v} : Yielding (StateM.{v} σ) where
  Yields x d := ∃ s s', x.run s = (d, s')
  eq_of_pure h := by
    obtain ⟨_, _, h⟩ := h
    exact (Prod.mk.inj h).1
  exists_of_bind {_ _ x f e} h := by
    obtain ⟨s, s', h⟩ := h
    exact ⟨(x.run s).1, ⟨s, _, rfl⟩, (x.run s).2, s', h⟩

/-- A sequence of two computations that may fail ends with a value only if both do. -/
theorem exists_of_exceptT_bind {m : Type v → Type w} [Monad m] [LawfulMonad m] [Yielding m] {ε : Type v}
    {x : ExceptT ε m δ} {f : δ → ExceptT ε m ω} {e : ω}
    (h : Yielding.Yields (x >>= f).run (.ok e)) :
    ∃ d, Yielding.Yields x.run (.ok d) ∧ Yielding.Yields (f d).run (.ok e) := by
  rw [ExceptT.run_bind] at h
  obtain ⟨r, hr, h⟩ := Yielding.exists_of_bind h
  cases r with
  | ok d => exact ⟨d, hr, h⟩
  | error _ => cases Yielding.eq_of_pure h

/-- Renaming the errors passes over a computation that has none. -/
theorem adapt_lift_bind {m : Type v → Type w} [Monad m] [LawfulMonad m] {ε ε' : Type v} (g : ε → ε')
    (x : m δ) (k : δ → ExceptT ε m ω) :
    ExceptT.adapt g (ExceptT.lift x >>= k) = ExceptT.lift x >>= fun d => ExceptT.adapt g (k d) := by
  apply ExceptT.ext
  rw [ExceptT.run_bind_lift]
  change Except.mapError g <$> (ExceptT.lift x >>= k).run = _
  rw [ExceptT.run_bind_lift, map_bind]
  rfl

/-- The second of two computations with a state goes on where the first one has ended. -/
theorem run_bind_of_run_eq {σ : Type v} {x : StateM σ δ} {f : δ → StateM σ ω} {s s' : σ} {d : δ}
    (h : x.run s = (d, s')) : (x >>= f).run s = (f d).run s' := by
  rw [StateT.run_bind, h]
  rfl

theorem exists_of_run_bind_eq_ok {σ : Type v} {ε : Type v} {x : ExceptT ε (StateM σ) δ}
    {f : δ → ExceptT ε (StateM σ) ω} {s s' : σ} {e : ω}
    (h : (x >>= f).run.run s = (.ok e, s')) :
    ∃ d s₁, x.run.run s = (.ok d, s₁) ∧ (f d).run.run s₁ = (.ok e, s') := by
  rcases hx : x.run.run s with ⟨r, s₁⟩
  rw [ExceptT.run_bind, run_bind_of_run_eq hx] at h
  cases r with
  | ok d => exact ⟨d, s₁, rfl, h⟩
  | error _ => cases h

/-! ## Loops that do not fail -/

section

variable {m : Type v → Type w} [Monad m] [LawfulMonad m]

theorem exists_foldlM_from_eq_pure {σ : Type v} {P : List ι → σ → Prop} {f : σ → ι → m σ}
    {xs : List ι}
    (step : ∀ done a rest s, xs = done ++ a :: rest → P done s →
      ∃ t, f s a = pure t ∧ P (done ++ [a]) t)
    {done rest : List ι} {s : σ} (hxs : xs = done ++ rest) (h : P done s) :
    ∃ t, rest.foldlM f s = pure t ∧ P xs t := by
  induction rest generalizing done s with
  | nil =>
    rw [List.append_nil] at hxs
    exact ⟨s, rfl, hxs ▸ h⟩
  | cons a rest ih =>
    obtain ⟨t, ht, hP⟩ := step done a rest s hxs h
    obtain ⟨r, hr, hP'⟩ := ih (by rw [hxs, List.append_assoc]; rfl) hP
    refine ⟨r, ?_, hP'⟩
    rw [List.foldlM_cons, ht, pure_bind, hr]

/-- A loop of which no step fails does not fail. What is said of the state may mention the elements that
the loop has passed. -/
theorem exists_foldlM_eq_pure {σ : Type v} {P : List ι → σ → Prop} {f : σ → ι → m σ} {xs : List ι}
    {s : σ}
    (step : ∀ done a rest s, xs = done ++ a :: rest → P done s →
      ∃ t, f s a = pure t ∧ P (done ++ [a]) t)
    (h : P [] s) : ∃ t, xs.foldlM f s = pure t ∧ P xs t :=
  exists_foldlM_from_eq_pure step rfl h

end

end BehavioralAutomata
