import BehavioralAutomata.Proofs.Learning.TableRefinement
import BehavioralAutomata.Proofs.Outcomes
import Mathlib.Data.Fintype.BigOperators

/-!
# Tables behind an oracle that changes its answers

The answers to a word need not be the same at all times, so that a table need not learn any language that
is known beforehand. But it asks about no word twice, and so its rows are those of every language to
which the recorded answers belong. The oracle may fail, or have a state: nothing is asked of it but that
it is known what it may answer (`Yielding`).

* `ObservationTable.replay_fillRows`: what a table is filled with by some oracle, it is filled with by every
  such language.
* `ObservationTable.close_outcome`: a table that is closed behind some oracle is closed for every such
  language, and its limit is exceeded only if it is below the number of different rows.
* `ObservationTable.Faithful`: the table is closed for all of these languages.
* `ObservationTable.Underlies`: nothing of a table is lost, nor any of its answers.
* `ObservationTable.Faithful.keeps_states`: the states of a hypothesis stay those of their base words, and
  accept or reject as before.
-/

namespace BehavioralAutomata.ObservationTable

open Yielding

variable {β : Type} [DecidableEq β] {f : List β → Bool} {T U V : ObservationTable β}

/-- There is a language to which recorded answers belong. -/
theorem TrueAnswers.exists (K : Answers β) : ∃ f, TrueAnswers f K :=
  ⟨fun w => (K.get? w).getD false, fun w b h => by simp [h]⟩

/-- There are no more base words than there can be different rows. -/
theorem Shaped.length_base_le_two_pow (hT : T.Shaped f) :
    T.base.length ≤ 2 ^ T.experiments.length := by
  let row (w : List β) : List.Vector Bool T.experiments.length := ⟨T.cells f w, List.length_map _⟩
  have hnodup : (T.base.map row).Nodup :=
    List.pairwise_map.2 (hT.distinct.imp fun hne heq => hne (congrArg Subtype.val heq))
  have hle := hnodup.length_le_card
  rwa [List.length_map, card_vector, Fintype.card_bool] at hle

/-! ## Replaying -/

section

variable {m : Type → Type} [Monad m] [Yielding m] {ask : List β → m Bool} {K K' : Answers β}
  {w : List β}

theorem replay_answer {b : Bool} (h : Yields (answer ask K w) (b, K')) (hf : TrueAnswers f K') :
    TrueAnswers f K ∧ answer (m := Id) (pure ∘ f) K w = pure (b, K') := by
  rw [answer] at h ⊢
  cases hw : K.get? w with
  | some b' =>
    simp only [hw] at h
    obtain ⟨rfl, rfl⟩ := Prod.mk.inj (eq_of_pure h)
    exact ⟨hf, rfl⟩
  | none =>
    simp only [hw] at h
    obtain ⟨b', _, h⟩ := exists_of_bind h
    obtain ⟨rfl, rfl⟩ := Prod.mk.inj (eq_of_pure h)
    have hb : b' = f w := hf w b' (by rw [Answers.get?_insert, if_pos rfl])
    refine ⟨fun u v hu => hf u v ?_, by rw [hb]; rfl⟩
    have hne : u ≠ w := by
      rintro rfl
      cases hw.symm.trans hu
    rw [Answers.get?_insert, if_neg hne, hu]

theorem replay_fillCells {es : List (List β)} {cs r : List Bool}
    (h : Yields (fillCells ask w es cs K) (r, K')) (hf : TrueAnswers f K') :
    TrueAnswers f K ∧ fillCells (m := Id) (pure ∘ f) w es cs K = pure (r, K') := by
  induction es generalizing cs K with
  | nil =>
    obtain ⟨rfl, rfl⟩ := Prod.mk.inj (eq_of_pure h)
    exact ⟨hf, rfl⟩
  | cons e es ih =>
    rw [fillCells] at h ⊢
    obtain ⟨⟨b, K₁⟩, h₁, h⟩ := exists_of_bind h
    obtain ⟨hf₁, hcells⟩ := ih h
    obtain ⟨hf₀, hanswer⟩ := replay_answer h₁ hf₁
    rw [hanswer, pure_bind]
    exact ⟨hf₀, hcells⟩

theorem replay_fillRow (h : Yields (fillRow ask T w) U) (hf : TrueAnswers f U.answers) :
    TrueAnswers f T.answers ∧ fillRow (m := Id) (pure ∘ f) T w = pure U := by
  rw [fillRow] at h ⊢
  split at h
  · obtain rfl := eq_of_pure h
    exact ⟨hf, rfl⟩
  · obtain ⟨⟨r, K⟩, hcells, h⟩ := exists_of_bind h
    obtain rfl := eq_of_pure h
    obtain ⟨hf₀, hcells⟩ := replay_fillCells hcells hf
    rw [hcells]
    exact ⟨hf₀, rfl⟩

theorem replay_fillRows {ws : List (List β)} (h : Yields (fillRows ask T ws) U)
    (hf : TrueAnswers f U.answers) :
    TrueAnswers f T.answers ∧ fillRows (m := Id) (pure ∘ f) T ws = pure U := by
  induction ws generalizing T with
  | nil =>
    obtain rfl := eq_of_pure h
    exact ⟨hf, rfl⟩
  | cons w ws ih =>
    rw [fillRows, List.foldlM_cons] at h ⊢
    obtain ⟨T₁, h₁, h⟩ := exists_of_bind h
    obtain ⟨hf₁, hrows⟩ := ih h
    obtain ⟨hf₀, hrow⟩ := replay_fillRow h₁ hf₁
    rw [hrow, pure_bind]
    exact ⟨hf₀, hrows⟩

/-- When the rows of a round are filled, the table can be tested for new rows, for every language to which its
answers belong. -/
theorem filled_of_fillRows {known : WordMap Bool Unit} {fresh ws : List (List β)}
    (hT : ∀ f, TrueAnswers f T.answers → Closing f known fresh ws T)
    (h : Yields (fillRows ask T ws) U) :
    (∃ R K, U = T.withRecords R K) ∧ ∀ f, TrueAnswers f U.answers →
      TrueAnswers f T.answers ∧ Filled f (U.addRows known fresh) ws U := by
  have filled : ∀ f, TrueAnswers f U.answers → TrueAnswers f T.answers ∧
      Filled f (U.addRows known fresh) ws U ∧ ∃ R K, U = T.withRecords R K := by
    intro f hf
    obtain ⟨hf₀, hrows⟩ := replay_fillRows h hf
    have hclosing := hT f hf₀
    have htold : Told (m := Id) (pure ∘ f) f T.alphabet T.experiments := fun _ _ _ _ => rfl
    obtain ⟨R, K, heq, hR, hrow, hkeys⟩ := fillRows_eq hclosing.shaped.recorded htold
      fun w hw => hclosing.shaped.isRow_subset (hclosing.isRow w hw)
    obtain rfl : T.withRecords R K = U := heq.symm.trans hrows
    exact ⟨hf₀, hclosing.filled hR hrow hkeys, R, K, rfl⟩
  obtain ⟨f, hf⟩ := TrueAnswers.exists U.answers
  exact ⟨(filled f hf).2.2, fun f hf => ⟨(filled f hf).1, (filled f hf).2.1⟩⟩

variable [LawfulMonad m]

/-- The rounds end with a table that is closed for every language to which its answers belong, or there
are fewer of them than there can be different rows. -/
theorem closeWithin_outcome {n : Nat} {known : WordMap Bool Unit} {fresh ws : List (List β)}
    {r : Except LimitExceeded (ObservationTable β)}
    (hT : ∀ f, TrueAnswers f T.answers → Closing f known fresh ws T)
    (h : Yields (closeWithin ask n known fresh ws T).run r) :
    (∃ U, r = .ok U ∧
      ∀ f, TrueAnswers f U.answers → TrueAnswers f T.answers ∧ U.Closed f ∧ T.Extends U) ∨
    r = .error ⟨T.limit⟩ ∧ n + T.base.length ≤ 2 ^ T.experiments.length := by
  induction n generalizing known fresh ws T with
  | zero =>
    obtain rfl := eq_of_pure h
    obtain ⟨f, hf⟩ := TrueAnswers.exists T.answers
    exact .inr ⟨rfl, by rw [Nat.zero_add]; exact (hT f hf).shaped.length_base_le_two_pow⟩
  | succ n ih =>
    rw [closeWithin] at h
    change Yields (ExceptT.lift (fillRows ask T ws) >>= _).run r at h
    rw [ExceptT.run_bind_lift] at h
    obtain ⟨T₁, hfill, h⟩ := exists_of_bind h
    obtain ⟨⟨R, K, rfl⟩, filled⟩ := filled_of_fillRows hT hfill
    dsimp only at h
    split at h
    · next hnew =>
      obtain rfl := eq_of_pure h
      refine .inl ⟨_, rfl, fun f hf => ?_⟩
      obtain ⟨hf₀, hfilled⟩ := filled f hf
      exact ⟨hf₀, hfilled.closed hnew, rfl, List.prefix_rfl, rfl, rfl⟩
    · next hne =>
      have hpromote := fun f hf => (filled f hf).2.promote rfl
      rcases ih hpromote h with ⟨U, rfl, hU⟩ | ⟨rfl, hlong⟩
      · refine .inl ⟨U, rfl, fun f hf => ?_⟩
        obtain ⟨hf₁, hclosed, hext⟩ := hU f hf
        exact ⟨(filled f hf₁).1, hclosed, hext.alphabet,
          (List.prefix_append ..).trans hext.base, hext.experiments, hext.limit⟩
      · have hpos : 0 < (newRows (T.withRecords R K)
            ((T.withRecords R K).addRows known fresh) ws).length := List.length_pos_iff.2 hne
        simp only [withRecords, List.length_append] at hpos hlong
        exact .inr ⟨rfl, by omega⟩

end

/-! ## What is never taken back -/

/-- The table is closed for every language to which its answers belong. -/
def Faithful (T : ObservationTable β) : Prop := ∀ f, TrueAnswers f T.answers → T.Closed f

/-- Nothing of a table is lost, nor any of its answers. -/
structure Underlies (T U : ObservationTable β) : Prop extends T.Grows U where
  answers : ∀ f, TrueAnswers f U.answers → TrueAnswers f T.answers

theorem Underlies.refl (T : ObservationTable β) : T.Underlies T := ⟨.refl T, fun _ h => h⟩

theorem Underlies.trans (h : T.Underlies U) (h' : U.Underlies V) : T.Underlies V :=
  ⟨h.toGrows.trans h'.toGrows, fun f hf => h.answers f (h'.answers f hf)⟩

/-- The first states of the larger hypothesis are those of the smaller one. -/
theorem Faithful.keeps_states (hT : T.Faithful) (hU : U.Faithful) (h : T.Underlies U) :
    T.hypothesis.size ≤ U.hypothesis.size ∧ ∀ i b, T.base[i]? = some b →
      U.base[i]? = some b ∧ U.representative b = b ∧
      T.hypothesis.reached b = some i ∧ U.hypothesis.reached b = some i ∧
      U.hypothesis.isAccepting i = T.hypothesis.isAccepting i := by
  obtain ⟨f, hf⟩ := TrueAnswers.exists U.answers
  have hclosedT := hT f (h.answers f hf)
  have hclosedU := hU f hf
  refine ⟨?_, fun i b hb => ?_⟩
  · rw [hclosedT.size_hypothesis, hclosedU.size_hypothesis]
    exact h.base.length_le
  · have hb' := h.toGrows.getElem?_base hb
    have hreached := hclosedU.reached_base hb'
    refine ⟨hb', Closed.representative_eq hreached hb', hclosedT.reached_base hb, hreached, ?_⟩
    rw [hclosedU.isAccepting hb', hclosedT.isAccepting hb]

section

variable {m : Type → Type} [Monad m] [LawfulMonad m] [Yielding m] {ask : List β → m Bool}

/-- A table is closed for every language to which its answers belong, or its limit is below the number of
different rows that it can have. -/
theorem close_outcome {r : Except LimitExceeded (ObservationTable β)}
    (hT : ∀ f, TrueAnswers f T.answers → T.Shaped f) (h : Yields (T.close ask).run r) :
    (∃ U, r = .ok U ∧ U.Faithful ∧ T.Underlies U ∧ T.Extends U) ∨
    r = .error ⟨T.limit⟩ ∧ T.limit < 2 ^ T.experiments.length := by
  rcases closeWithin_outcome (fun f hf => .start (hT f hf)) h with ⟨U, rfl, hU⟩ | ⟨rfl, hlong⟩
  · obtain ⟨f, hf⟩ := TrueAnswers.exists U.answers
    have hext := (hU f hf).2.2
    exact .inl ⟨U, rfl, fun f hf => (hU f hf).2.1, ⟨hext.grows, fun f hf => (hU f hf).1⟩, hext⟩
  · obtain ⟨f, hf⟩ := TrueAnswers.exists T.answers
    have hpos := List.length_pos_of_mem (List.mem_of_head? (hT f hf).base_head)
    exact .inr ⟨rfl, by omega⟩

theorem faithful_of_close (hT : ∀ f, TrueAnswers f T.answers → T.Shaped f)
    (h : Yields (T.close ask).run (.ok U)) : U.Faithful ∧ T.Underlies U := by
  rcases close_outcome hT h with ⟨V, hV, hfaithful, hunder, _⟩ | ⟨hV, _⟩
  · cases hV
    exact ⟨hfaithful, hunder⟩
  · cases hV

theorem faithful_of_start {symbols : List β} {limit : Nat}
    (h : Yields ((ofAlphabet symbols limit).close ask).run (.ok U)) : U.Faithful :=
  (faithful_of_close (fun f _ => shaped_ofAlphabet f symbols limit) h).1

theorem Faithful.size_hypothesis (hT : T.Faithful) : T.hypothesis.size = T.base.length := by
  obtain ⟨f, hf⟩ := TrueAnswers.exists T.answers
  exact (hT f hf).size_hypothesis

theorem Faithful.refine (hT : T.Faithful) {q : LabelledWord β} {used : Bool}
    (h : Yields (T.refine ask q).run (.ok (used, U))) :
    U.Faithful ∧ T.Underlies U ∧ (used = true → T.base.length < U.base.length) := by
  rw [ObservationTable.refine] at h
  split at h
  · cases eq_of_pure h
    exact ⟨hT, .refl _, by rintro ⟨⟩⟩
  · obtain ⟨V, hclose, h⟩ := exists_of_exceptT_bind h
    cases eq_of_pure h
    have hshaped : ∀ f, TrueAnswers f (T.addExperiments q.word).answers →
        (T.addExperiments q.word).Shaped f := fun f hf => (hT f hf).toShaped.addExperiments q.word
    obtain ⟨hU, hunder⟩ := faithful_of_close hshaped hclose
    refine ⟨hU, ⟨(grows_addExperiments T q.word).trans hunder.toGrows, hunder.answers⟩, fun hused => ?_⟩
    rw [← hT.size_hypothesis, ← hU.size_hypothesis]
    exact of_decide_eq_true hused

theorem Faithful.grow (hT : T.Faithful) {a : β} (h : Yields (T.grow ask a).run (.ok U)) :
    U.Faithful ∧ T.Underlies U := by
  by_cases ha : a ∈ T.alphabet
  · rw [grow_of_mem ha] at h
    cases eq_of_pure h
    exact ⟨hT, .refl _⟩
  · obtain ⟨f, hf⟩ := TrueAnswers.exists T.answers
    rw [grow_of_not_mem ha, if_pos (hT f hf).isFilled] at h
    have hshaped : ∀ f, TrueAnswers f (T.addSymbol a ha).answers → (T.addSymbol a ha).Shaped f :=
      fun f hf => (hT f hf).toShaped.addSymbol ha
    obtain ⟨hU, hunder⟩ := faithful_of_close hshaped h
    exact ⟨hU, (grows_addSymbol ha).trans hunder.toGrows, hunder.answers⟩

end

end BehavioralAutomata.ObservationTable
