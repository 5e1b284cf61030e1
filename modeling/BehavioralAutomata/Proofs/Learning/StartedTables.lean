import BehavioralAutomata.Proofs.Acceptor.Exploration
import BehavioralAutomata.Proofs.Learning.Histories
import BehavioralAutomata.Proofs.Learning.Replay

/-!
# What one operation does to a table that has been started

* `ObservationTable.OpenStep`: one operation behind any oracle. The oracle may have a state of its own and
  need not answer a word as it did before.
* `ObservationTable.Consistent`: what holds at all times even then, `Consistent.run_outcome` for one
  operation and `Consistent.history` for many.
* `ObservationTable.StartedBy`: a table that has been closed before, as every table has behind the first
  operation that closes it (`ObservationTable.startedBy_of_closes`).
* `ObservationTable.StartedBy.refine_genuine`: a word with the label that the oracle gives it changes the
  table exactly if it is a counterexample.
* `ObservationTable.StartedBy.grow_conserves`: a further symbol changes nothing of what is known of words
  without it.
-/

namespace BehavioralAutomata.ObservationTable

open Relation (ReflTransGen)
open Yielding

variable {β : Type} [DecidableEq β] {f : List β → Bool} {T U V : ObservationTable β}
  {symbols : List β} {limit : Nat}

/-- One operation behind an oracle that may have a state. -/
def OpenStep (T U : ObservationTable β) : Prop :=
  ∃ (σ : Type) (ask : List β → StateM σ Bool) (s s' : σ) (o : Operation β),
    (o.run ask T).run.run s = (.ok U, s')

/-- What holds of a table for every language to which its answers belong. -/
def Consistent (T : ObservationTable β) : Prop := ∀ f, TrueAnswers f T.answers → T.Kept f

/-- What operations make of a consistent table. -/
structure Continues (T U : ObservationTable β) : Prop extends Grows T U where
  consistent : U.Consistent
  isFilled : T.isFilled = true → U.isFilled = true

theorem Operation.answers_prepare (T : ObservationTable β) (o : Operation β) :
    (o.prepare T).answers = T.answers := by
  cases o with
  | start => rfl
  | refine q => rw [prepare]; split <;> rfl
  | grow a => rw [prepare]; split <;> rfl

namespace Consistent

theorem ofAlphabet (symbols : List β) (limit : Nat) :
    (ObservationTable.ofAlphabet symbols limit).Consistent :=
  fun f _ => kept_ofAlphabet f symbols limit

theorem faithful (hT : T.Consistent) (h : T.isFilled = true) : T.Faithful :=
  fun f hf => (hT f hf).closed h

theorem of_faithful (hT : T.Faithful) : T.Consistent := fun f hf =>
  ⟨(hT f hf).toShaped, fun _ => hT f hf⟩

variable {m : Type → Type} [Monad m] [LawfulMonad m] [Yielding m] {ask : List β → m Bool}
  {o : Operation β}

/-- An operation keeps what holds at all times, or the limit is below the number of different rows that
the table can have. -/
theorem run_outcome {r : Except LimitExceeded (ObservationTable β)} (hT : T.Consistent)
    (h : Yields (o.run ask T).run r) :
    (∃ U, r = .ok U ∧ U.Consistent ∧ (o.prepare T).Underlies U ∧ (o.prepare T).Extends U ∧
      (o.Closes T ∨ T.isFilled = true → U.Faithful)) ∨
    r = .error ⟨T.limit⟩ ∧ o.Closes T ∧ T.limit < 2 ^ (o.prepare T).experiments.length := by
  have hprepare : ∀ f, TrueAnswers f (o.prepare T).answers → T.Kept f := fun f hf =>
    hT f (Operation.answers_prepare T o ▸ hf)
  by_cases hc : o.Closes T
  · rw [Operation.run_of_closes hc] at h
    have hshaped := fun f hf => (hprepare f hf).shaped.prepare o
    rcases close_outcome hshaped h with ⟨U, rfl, hfaithful, hunder, hext⟩ | ⟨rfl, hlt⟩
    · exact .inl ⟨U, rfl, of_faithful hfaithful, hunder, hext, fun _ => hfaithful⟩
    · rw [(Operation.grows_prepare T o).limit] at hlt ⊢
      exact .inr ⟨rfl, hc, hlt⟩
  · rw [Operation.run_of_not_closes hc] at h
    obtain rfl := eq_of_pure h
    have hconsistent : (o.prepare T).Consistent := fun f hf => (hprepare f hf).prepare hc
    refine .inl ⟨_, rfl, hconsistent, .refl _, .refl _, fun h => hconsistent.faithful ?_⟩
    rw [Operation.isFilled_prepare]
    exact h.resolve_left hc

theorem run (hT : T.Consistent) (h : Yields (o.run ask T).run (.ok U)) :
    T.Continues U ∧ (o.Closes T → U.isFilled = true) := by
  rcases hT.run_outcome h with ⟨V, hV, hconsistent, hunder, _, hfaithful⟩ | ⟨hV, _⟩
  · cases hV
    have hgrows := (Operation.grows_prepare T o).trans hunder.toGrows
    have hfilled : o.Closes T ∨ T.isFilled = true → U.isFilled = true := fun h => by
      obtain ⟨f, hf⟩ := TrueAnswers.exists U.answers
      exact (hfaithful h f hf).isFilled
    exact ⟨⟨hgrows, hconsistent, fun h => hfilled (.inr h)⟩, fun h => hfilled (.inl h)⟩
  · cases hV

theorem openStep (hT : T.Consistent) (h : OpenStep T U) : T.Continues U := by
  obtain ⟨σ, ask, s, s', o, h⟩ := h
  have hyields : Yields (o.run ask T).run (.ok U) := ⟨s, s', h⟩
  exact (hT.run hyields).1

theorem step (hT : T.Consistent) (h : Step f T U) : T.Continues U := by
  obtain ⟨o, h⟩ := h
  have hyields : Yields (o.run (m := Id) (pure ∘ f) T).run (.ok U) := h
  exact (hT.run hyields).1

theorem history {R : ObservationTable β → ObservationTable β → Prop}
    (hR : ∀ {T U}, T.Consistent → R T U → T.Continues U) (hT : T.Consistent)
    (h : ReflTransGen R T U) : T.Continues U := by
  induction h with
  | refl => exact ⟨.refl T, hT, id⟩
  | tail _ hstep ih =>
    have hlater := hR ih.consistent hstep
    exact ⟨ih.trans hlater.toGrows, hlater.consistent, fun h => hlater.isFilled (ih.isFilled h)⟩

end Consistent

/-! ## Started tables -/

/-- A table that the steps `R` make of a first one, and that some operation among them has closed. -/
structure StartedBy (R : ObservationTable β → ObservationTable β → Prop) (symbols : List β)
    (limit : Nat) (T : ObservationTable β) : Prop where
  history : ReflTransGen R (ofAlphabet symbols limit) T
  isFilled : T.isFilled = true

theorem StartedBy.consistent {R : ObservationTable β → ObservationTable β → Prop}
    (hR : ∀ {T U}, T.Consistent → R T U → T.Continues U)
    (hT : StartedBy R symbols limit T) : T.Consistent ∧ T.limit = limit := by
  have hlater := (Consistent.ofAlphabet symbols limit).history hR hT.history
  exact ⟨hlater.consistent, hlater.limit⟩

/-- From the first operation on that closes it, a table is started. -/
theorem startedBy_of_closes {o : Operation β} {σ : Type} {ask : List β → StateM σ Bool} {s s' : σ}
    (hT : ReflTransGen OpenStep (ofAlphabet symbols limit) T) (hcloses : o.Closes T)
    (hU : (o.run ask T).run.run s = (.ok U, s')) (hV : ReflTransGen OpenStep U V) :
    StartedBy OpenStep symbols limit V := by
  have hfirst := (Consistent.ofAlphabet symbols limit).history Consistent.openStep hT
  have hyields : Yields (o.run ask T).run (.ok U) := ⟨s, s', hU⟩
  obtain ⟨hlater, hfilled⟩ := hfirst.consistent.run hyields
  refine ⟨(hT.tail ⟨σ, ask, s, s', o, hU⟩).trans hV, ?_⟩
  exact (hlater.consistent.history Consistent.openStep hV).isFilled (hfilled hcloses)

/-! ## Counterexamples -/

omit [DecidableEq β] in
theorem length_suffixes (w : List β) : (suffixes w).length = w.length := by
  induction w with
  | nil => rfl
  | cons a w ih => rw [suffixes, List.length_cons, ih, List.length_cons]

theorem length_experiments_addExperiments (T : ObservationTable β) (w : List β) :
    (T.addExperiments w).experiments.length ≤ T.experiments.length + w.length := by
  rw [addExperiments, List.length_append]
  refine Nat.add_le_add_left ?_ _
  exact Nat.le_trans (List.length_filter_le ..) (Nat.le_of_eq (length_suffixes w))

/-- Behind a refinement a counterexample is one no more, and there are more states. -/
theorem Closed.refine_counterexample (hT : T.Closed f) {w : List β} (hw : w ⊆ T.alphabet)
    (hne : T.hypothesis.accepts w ≠ f w) :
    (∃ U, T.refine (m := Id) (pure ∘ f) ⟨w, f w⟩ = pure (true, U) ∧
      T.hypothesis.size < U.hypothesis.size ∧ U.hypothesis.accepts w = f w) ∨
    T.refine (m := Id) (pure ∘ f) ⟨w, f w⟩ = throw ⟨T.limit⟩ := by
  have htold : Told (m := Id) (pure ∘ f) f T.alphabet (T.addExperiments w).experiments :=
    fun _ _ _ _ => rfl
  rcases refine_cases (q := ⟨w, f w⟩) hT htold hne with
    ⟨U, _, hrefine, hU, hgrows, hA, hE⟩ | ⟨hthrow, _⟩
  · have hmem : w ∈ U.experiments := (hE w).2 (.inr List.suffix_rfl)
    have hlt := hT.length_base_lt hU hgrows hA hmem hw hne
    rw [decide_eq_true hlt] at hrefine
    refine .inl ⟨U, hrefine, ?_, hU.accepts_experiment hmem (hA ▸ hw)⟩
    rwa [hT.size_hypothesis, hU.size_hypothesis]
  · exact .inr hthrow

/-- A refinement that exceeds the limit has a limit below the number of different rows. -/
theorem Consistent.limit_lt_of_refine {m : Type → Type} [Monad m] [LawfulMonad m] [Yielding m]
    {ask : List β → m Bool} {q : LabelledWord β} (hT : T.Consistent)
    (h : Yields ((Operation.refine q).run ask T).run (.error ⟨T.limit⟩)) :
    T.limit < 2 ^ (T.experiments.length + q.word.length) := by
  rcases hT.run_outcome h with ⟨U, hU, _⟩ | ⟨_, hcloses, hlt⟩
  · cases hU
  · rw [Operation.prepare, if_neg hcloses] at hlt
    refine Nat.lt_of_lt_of_le hlt ?_
    exact Nat.pow_le_pow_right (by decide) (length_experiments_addExperiments T q.word)

/-- A word with its true label is a counterexample, and then it is one no more behind one refinement, or
nothing happens and nothing is asked. The limit is exceeded only if it is below the number of different
rows. -/
theorem StartedBy.refine_genuine (hT : StartedBy (Step f) symbols limit T) {w : List β}
    (hw : w ⊆ T.alphabet) :
    (∃ changed U, T.refine (m := Id) (pure ∘ f) ⟨w, f w⟩ = pure (changed, U) ∧
      (changed = true ↔ T.hypothesis.accepts w ≠ f w) ∧
      (changed = true → T.hypothesis.size < U.hypothesis.size ∧ U.hypothesis.accepts w = f w) ∧
      (changed = false → U = T ∧ ∀ (σ : Type) (ask : List β → StateM σ Bool) (s : σ),
        (T.refine ask ⟨w, f w⟩).run.run s = (.ok (false, T), s))) ∨
    T.refine (m := Id) (pure ∘ f) ⟨w, f w⟩ = throw ⟨limit⟩ ∧
      limit < 2 ^ (T.experiments.length + w.length) := by
  obtain ⟨hconsistent, rfl⟩ := hT.consistent Consistent.step
  obtain ⟨hkept, _, _⟩ := (kept_ofAlphabet f symbols T.limit).history hT.history
  by_cases heq : T.hypothesis.accepts w = f w
  · refine .inl ⟨false, T, refine_of_accepts_eq heq, by simp [heq], by simp, fun _ => ⟨rfl, ?_⟩⟩
    intro σ ask s
    rw [refine_of_accepts_eq heq]
    rfl
  · rcases (hkept.closed hT.isFilled).refine_counterexample hw heq with ⟨U, hU, hbetter⟩ | hthrow
    · exact .inl ⟨true, U, hU, by simp [heq], fun _ => hbetter, by simp⟩
    · have hyields : Yields ((Operation.refine ⟨w, f w⟩).run (m := Id) (pure ∘ f) T).run
          (.error ⟨T.limit⟩) := by
        rw [Operation.run, hthrow]
        rfl
      exact .inr ⟨hthrow, hconsistent.limit_lt_of_refine hyields⟩

/-- Accepts the words whose length is a multiple of three. -/
def inThrees (w : List Char) : Bool := w.length % 3 == 0

/-- The first hypothesis accepts the empty word only. -/
theorem refine_genuine_inThrees : ∃ T U : ObservationTable Char,
    StartedBy (Step inThrees) ['a'] 8 T ∧
      T.refine (m := Id) (pure ∘ inThrees) ⟨['a', 'a', 'a'], true⟩ = pure (true, U) ∧
      T.hypothesis.size < U.hypothesis.size ∧ U.hypothesis.accepts ['a', 'a', 'a'] = true := by
  have hrun : (Operation.start.run (m := Id) (pure ∘ inThrees) (ofAlphabet ['a'] 8) >>= fun T =>
      T.refine (pure ∘ inThrees) ⟨['a', 'a', 'a'], true⟩ >>= fun r =>
      pure (T.isFilled, T.alphabet, r.1)).run.run = .ok (true, ['a'], true) := by
    decide +kernel
  obtain ⟨T, hT, hrun⟩ := exists_of_bind_eq_pure hrun
  obtain ⟨⟨changed, U⟩, hU, hrun⟩ := exists_of_bind_eq_pure hrun
  obtain ⟨hfilled, hrun⟩ := Prod.mk.inj (Except.ok.inj hrun)
  obtain ⟨halphabet, rfl⟩ := Prod.mk.inj hrun
  have hstarted : StartedBy (Step inThrees) ['a'] 8 T := ⟨.single ⟨.start, hT⟩, hfilled⟩
  have hw : ['a', 'a', 'a'] ⊆ T.alphabet := by
    rw [halphabet]
    decide
  have hgenuine := hstarted.refine_genuine hw
  change _ ∨ T.refine (m := Id) (pure ∘ inThrees) ⟨['a', 'a', 'a'], true⟩ = _ ∧ _ at hgenuine
  rcases hgenuine with ⟨changed, V, hV, _, hchanged, _⟩ | ⟨hthrow, _⟩
  · cases hU.symm.trans hV
    obtain ⟨hsize, haccepts⟩ := hchanged rfl
    exact ⟨T, U, hstarted, hU, hsize, haccepts⟩
  · cases hU.symm.trans hthrow

/-! ## Further symbols -/

/-- What `T` knows of words over its alphabet, `U` knows as well. -/
structure ConservedBy (T U : ObservationTable β) : Prop where
  base : T.base <+: U.base
  rows : ∀ w r, T.rows.get? w = some r → U.rows.get? w = some r
  reached : ∀ w, w ⊆ T.alphabet → ∃ i, T.hypothesis.reached w = some i ∧
    U.hypothesis.reached w = some i ∧ U.hypothesis.isAccepting i = T.hypothesis.isAccepting i

namespace Closed

/-- As long as there are no new experiments, a word leads where it has led before. -/
theorem reached_of_grows (hT : T.Closed f) (hU : U.Closed f) (h : T.Grows U)
    (hE : U.experiments = T.experiments) {w : List β} (hw : w ⊆ T.alphabet) :
    ∃ i b, T.base[i]? = some b ∧ T.hypothesis.reached w = some i ∧
      U.hypothesis.reached w = some i := by
  induction w using List.reverseRecOn with
  | nil =>
    exact ⟨0, [], hT.getElem?_base_zero, hT.reached_base hT.getElem?_base_zero,
      hU.reached_base hU.getElem?_base_zero⟩
  | append_singleton w a ih =>
    obtain ⟨hw, ha⟩ := List.append_subset.1 hw
    obtain ⟨i, b, hb, hi, hi'⟩ := ih hw
    have ha := ha List.mem_cons_self
    obtain ⟨j, c, hj, hc, hcells⟩ := hT.successor hb ha
    obtain ⟨k, d, hk, hd, hcells'⟩ := hU.successor (h.getElem?_base hb) (h.alphabet.subset ha)
    rw [cells, cells, ← hE] at hcells
    obtain rfl := hU.index_eq (h.getElem?_base hc) hd (hcells.trans hcells'.symm)
    refine ⟨j, c, hc, ?_, ?_⟩
    · rw [Acceptor.reached_append_singleton hi, hj]
    · rw [Acceptor.reached_append_singleton hi', hk]

theorem conserved (hT : T.Closed f) (hU : U.Closed f) (h : T.Grows U)
    (hE : U.experiments = T.experiments) : T.ConservedBy U where
  base := h.base
  rows w r hr := by
    have hrow := hT.isRow_of_contains w (by rw [WordMap.contains, hr, Option.isSome_some])
    rw [hT.get?_rows hrow] at hr
    rw [hU.get?_rows (h.isRow hrow), cells, hE]
    exact hr
  reached w hw := by
    obtain ⟨i, b, hb, hi, hi'⟩ := hT.reached_of_grows hU h hE hw
    refine ⟨i, hi, hi', ?_⟩
    rw [hT.isAccepting hb, hU.isAccepting (h.getElem?_base hb)]

end Closed

/-- A further symbol adds to a table and changes nothing of what it knows. A symbol that is there already
adds nothing, and nothing is asked. The limit is exceeded only if it is below the number of different
rows. -/
theorem StartedBy.grow_conserves (hT : StartedBy OpenStep symbols limit T) (a : β) {σ : Type}
    (ask : List β → StateM σ Bool) (s : σ) :
    (∃ U s', (T.grow ask a).run.run s = (.ok U, s') ∧ T.ConservedBy U ∧
      U.hypothesis.isTotal (T.alphabet ++ [a]) = true ∧ (a ∈ T.alphabet → U = T ∧ s' = s)) ∨
    ∃ s', (T.grow ask a).run.run s = (.error ⟨limit⟩, s') ∧ a ∉ T.alphabet ∧
      limit < 2 ^ T.experiments.length := by
  obtain ⟨hconsistent, rfl⟩ := hT.consistent Consistent.openStep
  have hfaithful := hconsistent.faithful hT.isFilled
  by_cases ha : a ∈ T.alphabet
  · obtain ⟨f, hf⟩ := TrueAnswers.exists T.answers
    have hclosed := hfaithful f hf
    refine .inl ⟨T, s, by rw [grow_of_mem ha]; rfl, hclosed.conserved hclosed (.refl T) rfl,
      hclosed.isTotal ?_, fun _ => ⟨rfl, rfl⟩⟩
    exact List.append_subset.2 ⟨List.Subset.refl _, List.cons_subset.2 ⟨ha, List.nil_subset _⟩⟩
  · generalize hrun : (T.grow ask a).run.run s = x
    obtain ⟨r, s'⟩ := x
    have hyields : Yields ((Operation.grow a).run ask T).run r := ⟨s, s', hrun⟩
    rcases hconsistent.run_outcome hyields with ⟨U, rfl, _, hunder, hext, hU⟩ | ⟨rfl, _, hlt⟩
    · rw [Operation.prepare, dif_neg ha] at hunder hext
      obtain ⟨f, hf⟩ := TrueAnswers.exists U.answers
      have hclosed := hfaithful f (hunder.answers f hf)
      have hclosed' := hU (.inr hT.isFilled) f hf
      refine .inl ⟨U, s', rfl, ?_, hclosed'.isTotal ?_, fun h => absurd h ha⟩
      · exact hclosed.conserved hclosed' ((grows_addSymbol ha).trans hext.grows) hext.experiments
      · rw [hext.alphabet]
        exact List.Subset.refl _
    · rw [Operation.prepare, dif_neg ha] at hlt
      exact .inr ⟨s', rfl, ha, hlt⟩

/-- Says yes and no in turn, to whatever word. -/
def alternating (_ : List Char) : StateM Nat Bool :=
  modifyGet fun n => (n % 2 == 0, n + 1)

theorem exists_startedBy_alternating : ∃ T : ObservationTable Char,
    StartedBy OpenStep ['a'] 4 T ∧ T.alphabet = ['a'] ∧ T.experiments = [[]] ∧
      T.base = [[], ['a']] ∧ T.hypothesis.reached ['a', 'a'] = some 0 := by
  have hrun : ((Operation.start.run alternating (ofAlphabet ['a'] 4)).run.run 0).1.map
      (fun T => decide (T.alphabet = ['a'] ∧ T.experiments = [[]] ∧
        T.base = [[], ['a']] ∧ T.hypothesis.reached ['a', 'a'] = some 0)) = .ok true := by
    decide +kernel
  generalize hs : (Operation.start.run alternating (ofAlphabet ['a'] 4)).run.run 0 = x at hrun
  obtain ⟨r, s⟩ := x
  obtain ⟨T, rfl, hT⟩ := exists_of_map_eq_ok hrun
  exact ⟨T, startedBy_of_closes .refl (o := .start) trivial hs .refl, of_decide_eq_true hT⟩

/-- The same oracle answers again when there is a further symbol, and what the table knew stays. -/
theorem grow_conserves_alternating : ∃ (T U : ObservationTable Char) (s : Nat),
    StartedBy OpenStep ['a'] 4 T ∧ (T.grow alternating 'b').run.run 0 = (.ok U, s) ∧
      T.ConservedBy U ∧ U.hypothesis.isTotal ['a', 'b'] = true := by
  obtain ⟨T, hT, halphabet, hexperiments, _⟩ := exists_startedBy_alternating
  rcases hT.grow_conserves 'b' alternating 0 with ⟨U, s, hU, hconserved, htotal, _⟩ | ⟨_, _, _, hlt⟩
  · rw [halphabet] at htotal
    exact ⟨T, U, s, hT, hU, hconserved, htotal⟩
  · rw [hexperiments] at hlt
    exact absurd hlt (by decide)

end BehavioralAutomata.ObservationTable
