import BehavioralAutomata.Learning.ObservationTable.Basic
import Mathlib.Data.List.Basic

/-!
# Filling the rows of a table

The oracle of a table answers for a language `f`. `ObservationTable.cells` is what a row is filled with,
and `ObservationTable.Recorded` says that the rows and the answers that a table has are true, though a
row may be too short. `ObservationTable.fillRows_eq` says what filling does. Of the oracle it needs the
verdicts on the words that the cells stand for, `ObservationTable.Told`.
-/

namespace BehavioralAutomata.ObservationTable

variable {β : Type} [DecidableEq β]

/-- The oracle has the verdicts of `f` on the words over an alphabet. -/
def Tells {m : Type → Type} [Monad m] (ask : List β → m Bool) (f : List β → Bool)
    (symbols : List β) : Prop :=
  ∀ w, w ⊆ symbols → ask w = pure (f w)

/-- The oracle has the verdicts of `f` on the words over an alphabet with an experiment behind them. -/
def Told {m : Type → Type} [Monad m] (ask : List β → m Bool) (f : List β → Bool)
    (symbols : List β) (experiments : List (List β)) : Prop :=
  ∀ w, w ⊆ symbols → ∀ e ∈ experiments, ask (w ++ e) = pure (f (w ++ e))

omit [DecidableEq β] in
theorem Tells.told {m : Type → Type} [Monad m] {ask : List β → m Bool} {f : List β → Bool}
    {symbols : List β} {experiments : List (List β)} (h : Tells ask f symbols)
    (hE : ∀ e ∈ experiments, e ⊆ symbols) : Told ask f symbols experiments :=
  fun _ hw e he => h _ (List.append_subset.2 ⟨hw, hE e he⟩)

/-- The cells that the row of a word should have. -/
def cells (T : ObservationTable β) (f : List β → Bool) (w : List β) : List Bool :=
  T.experiments.map fun e => f (w ++ e)

/-- The known answers are true. -/
def TrueAnswers (f : List β → Bool) (K : Answers β) : Prop := ∀ w b, K.get? w = some b → b = f w

/-- What the table has recorded is true. -/
structure Recorded (T : ObservationTable β) (f : List β → Bool) : Prop where
  rows : ∀ w, T.row w <+: T.cells f w
  answers : TrueAnswers f T.answers

/-- The table with other rows and answers. -/
def withRecords (T : ObservationTable β) (R : WordMap β (List Bool)) (K : Answers β) :
    ObservationTable β :=
  { T with rows := R, answers := K }

section

variable {f : List β → Bool} {K : Answers β} {w : List β}

theorem TrueAnswers.empty (f : List β → Bool) : TrueAnswers f ∅ := fun w b h => by simp at h

theorem TrueAnswers.insert (hK : TrueAnswers f K) (w : List β) :
    TrueAnswers f (K.insert w (f w)) := by
  intro u b h
  rw [Answers.get?_insert] at h
  split at h
  · next hu =>
    cases h
    rw [hu]
  · exact hK u b h

variable {m : Type → Type} [Monad m] [LawfulMonad m] {ask : List β → m Bool}

theorem answer_eq (hK : TrueAnswers f K) (hw : ask w = pure (f w)) :
    ∃ K', answer ask K w = pure (f w, K') ∧ TrueAnswers f K' := by
  rw [answer]
  split
  · next b hb => exact ⟨K, by rw [hK w b hb], hK⟩
  · exact ⟨K.insert w (f w), by rw [hw, pure_bind], hK.insert w⟩

theorem fillCells_eq {es : List (List β)} (cs : List Bool) (hK : TrueAnswers f K)
    (hes : ∀ e ∈ es, ask (w ++ e) = pure (f (w ++ e))) :
    ∃ K', fillCells ask w es cs K = pure (cs.reverse ++ es.map (fun e => f (w ++ e)), K') ∧
      TrueAnswers f K' := by
  induction es generalizing cs K with
  | nil => exact ⟨K, by simp [fillCells], hK⟩
  | cons e es ih =>
    obtain ⟨K₁, h₁, hK₁⟩ := answer_eq hK (hes e List.mem_cons_self)
    obtain ⟨K₂, h₂, hK₂⟩ := ih (f (w ++ e) :: cs) hK₁
      fun d hd => hes d (List.mem_cons_of_mem _ hd)
    refine ⟨K₂, ?_, hK₂⟩
    rw [fillCells, h₁, pure_bind]
    simpa using h₂

variable {T : ObservationTable β}

theorem Recorded.row_eq (hT : T.Recorded f) (h : T.experiments.drop (T.row w).length = []) :
    T.row w = T.cells f w := by
  apply (hT.rows w).eq_of_length_le
  rw [cells, List.length_map]
  exact List.drop_eq_nil_iff.1 h

theorem fillRow_eq (hT : T.Recorded f) (hask : Told ask f T.alphabet T.experiments)
    (hw : w ⊆ T.alphabet) :
    ∃ R K, fillRow ask T w = pure (T.withRecords R K) ∧ (T.withRecords R K).Recorded f ∧
      (∀ u, (T.withRecords R K).row u = if u = w then T.cells f w else T.row u) ∧
      ∀ u, R.contains u = true → u = w ∨ T.rows.contains u = true := by
  rw [fillRow]
  split
  · next hdrop =>
    refine ⟨T.rows, T.answers, rfl, hT, fun u => ?_, fun _ => .inr⟩
    split
    · next hu =>
      subst hu
      exact hT.row_eq hdrop
    · rfl
  · next hdrop =>
    have hes : ∀ e ∈ T.experiments.drop (T.row w).length, ask (w ++ e) = pure (f (w ++ e)) :=
      fun e he => hask w hw e (List.mem_of_mem_drop he)
    obtain ⟨K, hfill, hK⟩ := fillCells_eq (T.row w).reverse hT.answers hes
    have hcells : (T.row w).reverse.reverse ++
        (T.experiments.drop (T.row w).length).map (fun e => f (w ++ e)) = T.cells f w := by
      obtain ⟨r, hr⟩ := hT.rows w
      rw [List.reverse_reverse, List.map_drop]
      change T.row w ++ (T.cells f w).drop _ = _
      rw [← hr, List.drop_left]
    rw [hcells] at hfill
    have hrow : ∀ u, (T.withRecords (T.rows.insert (T.cells f w) w) K).row u =
        if u = w then T.cells f w else T.row u := by
      intro u
      rw [row, withRecords, WordMap.get?_insert]
      split
      · rfl
      · rfl
    refine ⟨T.rows.insert (T.cells f w) w, K, ?_, ⟨fun u => ?_, hK⟩, hrow, fun u hu => ?_⟩
    · rw [hfill, pure_bind]
      rfl
    · rw [hrow]
      split
      · next hu => exact hu ▸ List.prefix_rfl
      · exact hT.rows u
    · rwa [WordMap.contains_insert, Bool.or_eq_true, beq_iff_eq] at hu

/-- Afterwards the rows of the given words are full, and all other ones are as they were. Only the given
words get rows. -/
theorem fillRows_eq {ws : List (List β)} (hT : T.Recorded f)
    (hask : Told ask f T.alphabet T.experiments) (hws : ∀ w ∈ ws, w ⊆ T.alphabet) :
    ∃ R K, fillRows ask T ws = pure (T.withRecords R K) ∧ (T.withRecords R K).Recorded f ∧
      (∀ u, (T.withRecords R K).row u = if u ∈ ws then T.cells f u else T.row u) ∧
      ∀ u, R.contains u = true → u ∈ ws ∨ T.rows.contains u = true := by
  induction ws generalizing T with
  | nil => exact ⟨T.rows, T.answers, rfl, hT, fun u => rfl, fun _ => .inr⟩
  | cons w ws ih =>
    obtain ⟨R₁, K₁, h₁, hT₁, hrow₁, hkeys₁⟩ := fillRow_eq hT hask (hws w List.mem_cons_self)
    obtain ⟨R, K, h, hT', hrow, hkeys⟩ :=
      ih hT₁ hask fun u hu => hws u (List.mem_cons_of_mem _ hu)
    refine ⟨R, K, ?_, hT', fun u => ?_, fun u hu => ?_⟩
    · rw [fillRows, List.foldlM_cons, h₁, pure_bind]
      exact h
    · have hu := hrow u
      rw [hrow₁] at hu
      apply hu.trans
      by_cases hmem : u ∈ ws
      · rw [if_pos hmem, if_pos (List.mem_cons_of_mem _ hmem)]
        rfl
      · rw [if_neg hmem]
        split
        · next huw => rw [if_pos (huw ▸ List.mem_cons_self), huw]
        · next huw => rw [if_neg (by simp [huw, hmem])]
    · rcases hkeys u hu with hmem | hmem
      · exact .inl (List.mem_cons_of_mem _ hmem)
      · rcases hkeys₁ u hmem with rfl | hmem
        · exact .inl List.mem_cons_self
        · exact .inr hmem

end

end BehavioralAutomata.ObservationTable
