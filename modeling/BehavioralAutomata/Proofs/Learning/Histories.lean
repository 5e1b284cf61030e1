import BehavioralAutomata.Proofs.Learning.TableRefinement
import BehavioralAutomata.Proofs.Outcomes
import Mathlib.Logic.Relation

/-!
# Histories of a table

A table is started, refined with arbitrary labelled words and given further symbols, in any order. The
oracle answers for a language `f`, also on words that are not over the alphabet.

* `ObservationTable.Operation`: what can be done to a table. Every operation prepares the table and then
  either closes it or leaves it at that (`Operation.run_of_closes`, `Operation.run_of_not_closes`).
* `ObservationTable.Kept`: what holds of a table at all times, `Kept.history` along a history.
* `ObservationTable.accepts_recorded`: from the first closing on, the hypothesis is right about the word
  of every row followed by any experiment, and so about every counterexample that the table was ever
  refined with.
-/

namespace BehavioralAutomata.ObservationTable

open Relation (ReflTransGen)

variable {β : Type} [DecidableEq β] {f : List β → Bool} {T U V : ObservationTable β}

/-- What can be done to a table. -/
inductive Operation (β : Type) where
  | start
  | refine (q : LabelledWord β)
  | grow (a : β)

namespace Operation

/-- Carries the operation out. -/
def run {m : Type → Type} [Monad m] (ask : List β → m Bool) (T : ObservationTable β) :
    Operation β → ExceptT LimitExceeded m (ObservationTable β)
  | start => T.close ask
  | refine q => Prod.snd <$> T.refine ask q
  | grow a => T.grow ask a

/-- The operation makes the table close. -/
def Closes (T : ObservationTable β) : Operation β → Prop
  | start => True
  | refine q => T.hypothesis.accepts q.word ≠ q.accepted
  | grow a => a ∉ T.alphabet ∧ T.isFilled = true

/-- What the operation has made of the table when the table is about to be closed. -/
def prepare (T : ObservationTable β) : Operation β → ObservationTable β
  | start => T
  | refine q => if T.hypothesis.accepts q.word = q.accepted then T else T.addExperiments q.word
  | grow a => if ha : a ∈ T.alphabet then T else T.addSymbol a ha

variable {o : Operation β}

section

variable {m : Type → Type} [Monad m] [LawfulMonad m] {ask : List β → m Bool}

theorem run_of_closes (h : o.Closes T) : o.run ask T = (o.prepare T).close ask := by
  cases o with
  | start => rfl
  | refine q =>
    rw [run, prepare, if_neg h, ObservationTable.refine, if_neg h]
    simp
  | grow a => rw [run, prepare, dif_neg h.1, grow_of_not_mem h.1, if_pos h.2]

theorem run_of_not_closes (h : ¬ o.Closes T) : o.run ask T = pure (o.prepare T) := by
  cases o with
  | start => exact absurd trivial h
  | refine q =>
    have heq : T.hypothesis.accepts q.word = q.accepted := by_contra h
    rw [run, prepare, if_pos heq, refine_of_accepts_eq heq]
    simp
  | grow a =>
    by_cases ha : a ∈ T.alphabet
    · rw [run, prepare, dif_pos ha, grow_of_mem ha]
    · rw [run, prepare, dif_neg ha, grow_of_not_mem ha, if_neg fun hfilled => h ⟨ha, hfilled⟩]

end

theorem grows_prepare (T : ObservationTable β) (o : Operation β) : T.Grows (o.prepare T) := by
  cases o with
  | start => exact .refl T
  | refine q =>
    rw [prepare]
    split
    · exact .refl T
    · exact grows_addExperiments T q.word
  | grow a =>
    rw [prepare]
    split
    · exact .refl T
    · next ha => exact grows_addSymbol ha

theorem isFilled_prepare (T : ObservationTable β) (o : Operation β) :
    (o.prepare T).isFilled = T.isFilled := by
  cases o with
  | start => rfl
  | refine q => rw [prepare]; split <;> rfl
  | grow a => rw [prepare]; split <;> rfl

/-- A filled table changes only if it is closed again. -/
theorem prepare_eq (h : ¬ o.Closes T) (hT : T.isFilled = true) : o.prepare T = T := by
  cases o with
  | start => rfl
  | refine q => exact if_pos (by_contra h)
  | grow a =>
    have ha : a ∈ T.alphabet := by
      by_contra ha
      exact h ⟨ha, hT⟩
    exact dif_pos ha

end Operation

theorem Shaped.prepare (hT : T.Shaped f) (o : Operation β) : (o.prepare T).Shaped f := by
  cases o with
  | start => exact hT
  | refine q =>
    rw [Operation.prepare]
    split
    · exact hT
    · exact hT.addExperiments q.word
  | grow a =>
    rw [Operation.prepare]
    split
    · exact hT
    · next ha => exact hT.addSymbol ha

/-! ## What holds at all times -/

/-- What holds of a table that learns `f`, whatever has been done to it. -/
structure Kept (T : ObservationTable β) (f : List β → Bool) : Prop where
  shaped : T.Shaped f
  closed : T.isFilled = true → T.Closed f

/-- One operation, with the verdicts of `f`. -/
def Step (f : List β → Bool) (T U : ObservationTable β) : Prop :=
  ∃ o : Operation β, o.run (m := Id) (pure ∘ f) T = pure U

theorem kept_ofAlphabet (f : List β → Bool) (symbols : List β) (limit : Nat) :
    (ofAlphabet symbols limit).Kept f :=
  ⟨shaped_ofAlphabet f symbols limit, fun h => by simp [isFilled, ofAlphabet, WordMap.contains] at h⟩

namespace Kept

variable {o : Operation β}

/-- A table that is not closed again is as it was, or it has not been filled yet. -/
theorem prepare (hT : T.Kept f) (hc : ¬ o.Closes T) : (o.prepare T).Kept f := by
  refine ⟨hT.shaped.prepare o, fun hfilled => ?_⟩
  rw [Operation.isFilled_prepare] at hfilled
  rw [Operation.prepare_eq hc hfilled]
  exact hT.closed hfilled

theorem run (hT : T.Kept f) (h : o.run (m := Id) (pure ∘ f) T = pure U) :
    U.Kept f ∧ (o.prepare T).Grows U ∧ (o.Closes T ∨ T.isFilled = true → U.Closed f) := by
  by_cases hc : o.Closes T
  · rw [Operation.run_of_closes hc] at h
    have htold : Told (m := Id) (pure ∘ f) f (o.prepare T).alphabet (o.prepare T).experiments :=
      fun _ _ _ _ => rfl
    rcases close_cases (hT.shaped.prepare o) htold with ⟨W, hW, hclosed, hext⟩ | ⟨hthrow, _⟩
    · obtain rfl : W = U := Except.ok.inj (hW.symm.trans h)
      exact ⟨⟨hclosed.toShaped, fun _ => hclosed⟩, hext.grows, fun _ => hclosed⟩
    · cases hthrow.symm.trans h
  · rw [Operation.run_of_not_closes hc] at h
    obtain rfl := Except.ok.inj h
    have hkept := hT.prepare hc
    refine ⟨hkept, .refl _, fun h => hkept.closed ?_⟩
    rw [Operation.isFilled_prepare]
    exact h.resolve_left hc

theorem history (hT : T.Kept f) (h : ReflTransGen (Step f) T U) :
    U.Kept f ∧ T.Grows U ∧ (T.Closed f → U.Closed f) := by
  induction h with
  | refl => exact ⟨hT, .refl T, id⟩
  | tail _ hstep ih =>
    obtain ⟨hU, hgrows, hclosed⟩ := ih
    obtain ⟨o, ho⟩ := hstep
    obtain ⟨hV, hgrows', hclosed'⟩ := hU.run ho
    exact ⟨hV, hgrows.trans ((Operation.grows_prepare _ o).trans hgrows'),
      fun h => hclosed' (.inr (hclosed h).isFilled)⟩

end Kept

theorem mem_experiments_of_refine {q : LabelledWord β} {e : List β} (hT : T.Shaped f)
    (h : (Operation.refine q).Closes T) (he : e <:+ q.word) :
    e ∈ ((Operation.refine q).prepare T).experiments := by
  rw [Operation.prepare, if_neg h, mem_experiments_addExperiments]
  by_cases hnil : e = []
  · exact .inl (hnil ▸ hT.nil_mem_experiments)
  · exact .inr (mem_suffixes he hnil)

/-- Nothing that the table has recorded is contradicted by the hypothesis, from the first operation on
that closes the table. -/
theorem accepts_recorded {symbols : List β} {limit : Nat} {o : Operation β}
    (hT : ReflTransGen (Step f) (ofAlphabet symbols limit) T) (hcloses : o.Closes T)
    (hU : o.run (m := Id) (pure ∘ f) T = pure U) (hV : ReflTransGen (Step f) U V) :
    (∀ w e, V.IsRow w → e ∈ V.experiments → w ++ e ⊆ V.alphabet →
      V.hypothesis.accepts (w ++ e) = f (w ++ e)) ∧
    ∀ q, o = .refine q → ∀ e, e <:+ q.word → e ⊆ V.alphabet → V.hypothesis.accepts e = f e := by
  obtain ⟨hkept, _, _⟩ := (kept_ofAlphabet f symbols limit).history hT
  obtain ⟨hkeptU, hgrows, hclosed⟩ := hkept.run hU
  obtain ⟨_, hgrowsV, hclosedV⟩ := hkeptU.history hV
  have hVclosed := hclosedV (hclosed (.inl hcloses))
  refine ⟨fun w e hw he hsub => ?_, fun q hq e he hsub => ?_⟩
  · exact hVclosed.accepts_append hw he (List.append_subset.1 hsub).2
  · subst hq
    have hmem := mem_experiments_of_refine hkept.shaped hcloses he
    exact hVclosed.accepts_experiment ((hgrows.trans hgrowsV).experiments.subset hmem) hsub

/-- A counterexample with a symbol that the table is given only afterwards. -/
theorem accepts_ab : ∃ T U V,
    ReflTransGen (Step fun w => w == ['a', 'b']) (ofAlphabet ['a'] 4) T ∧
    (Operation.refine ⟨['a', 'b'], true⟩).run (m := Id) (pure ∘ (· == ['a', 'b'])) T = pure U ∧
    (Operation.grow 'b').run (m := Id) (pure ∘ (· == ['a', 'b'])) U = pure V ∧
    V.hypothesis.accepts ['a', 'b'] = true := by
  have hrun : (Operation.start.run (m := Id) (pure ∘ (· == ['a', 'b'])) (ofAlphabet ['a'] 4) >>=
      fun T => (Operation.refine ⟨['a', 'b'], true⟩).run (pure ∘ (· == ['a', 'b'])) T >>=
      fun U => (Operation.grow 'b').run (pure ∘ (· == ['a', 'b'])) U >>=
      fun V => pure (T.hypothesis.accepts ['a', 'b'], V.alphabet)).run.run = .ok (false, ['a', 'b']) := by
    decide +kernel
  obtain ⟨T, hT, hrun⟩ := exists_of_bind_eq_pure hrun
  obtain ⟨U, hU, hrun⟩ := exists_of_bind_eq_pure hrun
  obtain ⟨V, hV, hrun⟩ := exists_of_bind_eq_pure hrun
  obtain ⟨hrejects, halphabet⟩ := Prod.mk.inj (Except.ok.inj hrun)
  have hcloses : (Operation.refine ⟨['a', 'b'], true⟩).Closes T := by
    rw [Operation.Closes, hrejects]
    exact Bool.false_ne_true
  have hhistory : ReflTransGen (Step fun w => w == ['a', 'b']) (ofAlphabet ['a'] 4) T :=
    .single ⟨.start, hT⟩
  obtain ⟨_, hcounterexamples⟩ := accepts_recorded hhistory hcloses hU (.single ⟨.grow 'b', hV⟩)
  refine ⟨T, U, V, hhistory, hU, hV, hcounterexamples _ rfl _ List.suffix_rfl ?_⟩
  rw [halphabet]
  exact List.Subset.refl _

end BehavioralAutomata.ObservationTable
