import BehavioralAutomata.Proofs.Learning.Limits
import BehavioralAutomata.Proofs.Outcomes

/-!
# Tables behind an oracle that only answers

Nothing is assumed here of the answers of the oracle, not even that they belong to one language. A word
that is over the alphabet of a table is answered, and a table asks for no other words.

* `ObservationTable.Spelled`: the base words and the experiments of a table are over its alphabet.
* `ObservationTable.Spelled.close_cases`: closing ends with such a table, or at the limit.
* `start_outcome`, `Spelled.grow_outcome`, `Spelled.refine_outcome`: so does all that a learner does. Only
  the limit can make it fail.
-/

namespace BehavioralAutomata

namespace ObservationTable

variable {β : Type} [DecidableEq β] {T U : ObservationTable β}

/-- The oracle has an answer to every word over an alphabet. -/
def Responds {m : Type → Type} [Monad m] (ask : List β → m Bool) (symbols : List β) : Prop :=
  ∀ w, w ⊆ symbols → ∃ b, ask w = pure b

/-- The base words and the experiments are over the alphabet. -/
structure Spelled (T : ObservationTable β) : Prop where
  base : ∀ w ∈ T.base, w ⊆ T.alphabet
  experiments : ∀ e ∈ T.experiments, e ⊆ T.alphabet

namespace Spelled

theorem ofAlphabet (symbols : List β) (limit : Nat) :
    (ObservationTable.ofAlphabet symbols limit).Spelled where
  base _ hw := List.mem_singleton.1 hw ▸ List.nil_subset _
  experiments _ he := List.mem_singleton.1 he ▸ List.nil_subset _

theorem addSymbol (hT : T.Spelled) {a : β} (ha : a ∉ T.alphabet) : (T.addSymbol a ha).Spelled where
  base w hw := List.Subset.trans (hT.base w hw) (List.subset_append_left ..)
  experiments e he := List.Subset.trans (hT.experiments e he) (List.subset_append_left ..)

theorem addExperiments (hT : T.Spelled) {w : List β} (hw : w ⊆ T.alphabet) :
    (T.addExperiments w).Spelled where
  base := hT.base
  experiments e he := by
    rcases mem_experiments_addExperiments.1 he with he | he
    · exact hT.experiments e he
    · exact List.Subset.trans (suffix_of_mem_suffixes he).subset hw

theorem withRecords (hT : T.Spelled) (R : WordMap β (List Bool)) (K : Answers β) :
    (T.withRecords R K).Spelled :=
  ⟨hT.base, hT.experiments⟩

theorem append_base (hT : T.Spelled) {new : List (List β)} (hnew : ∀ w ∈ new, w ⊆ T.alphabet) :
    { T with base := T.base ++ new }.Spelled where
  base w hw := (List.mem_append.1 hw).elim (hT.base w) (hnew w)
  experiments := hT.experiments

theorem words (hT : T.Spelled) : ∀ w ∈ T.words, w ⊆ T.alphabet := by
  intro w hw
  rcases mem_words.1 hw with hw | ⟨b, hb, a, ha, rfl⟩
  · exact hT.base w hw
  · exact List.append_subset.2 ⟨hT.base b hb, List.cons_subset.2 ⟨ha, List.nil_subset _⟩⟩

end Spelled

theorem subset_of_mem_extensions {ws : List (List β)} (hws : ∀ w ∈ ws, w ⊆ T.alphabet) :
    ∀ w ∈ T.extensions ws, w ⊆ T.alphabet := by
  intro w hw
  obtain ⟨b, hb, a, ha, rfl⟩ := mem_extensions.1 hw
  exact List.append_subset.2 ⟨hws b hb, List.cons_subset.2 ⟨ha, List.nil_subset _⟩⟩

section

variable {m : Type → Type} [Monad m] [LawfulMonad m] {ask : List β → m Bool} {w : List β}

theorem exists_answer (K : Answers β) (hw : ∃ b, ask w = pure b) :
    ∃ b K', answer ask K w = pure (b, K') := by
  obtain ⟨b, hb⟩ := hw
  rw [answer]
  cases K.get? w with
  | some b' => exact ⟨b', K, rfl⟩
  | none => exact ⟨b, K.insert w b, by rw [hb, pure_bind]⟩

theorem exists_fillCells {es : List (List β)} (cs : List Bool) (K : Answers β)
    (hes : ∀ e ∈ es, ∃ b, ask (w ++ e) = pure b) :
    ∃ cs' K', fillCells ask w es cs K = pure (cs', K') := by
  induction es generalizing cs K with
  | nil => exact ⟨cs.reverse, K, rfl⟩
  | cons e es ih =>
    obtain ⟨b, K₁, h₁⟩ := exists_answer K (hes e List.mem_cons_self)
    rw [fillCells, h₁, pure_bind]
    exact ih (b :: cs) K₁ fun d hd => hes d (List.mem_cons_of_mem _ hd)

theorem Spelled.exists_fillRow (hT : T.Spelled) (hask : Responds ask T.alphabet)
    (hw : w ⊆ T.alphabet) : ∃ R K, fillRow ask T w = pure (T.withRecords R K) := by
  rw [fillRow]
  split
  · exact ⟨T.rows, T.answers, rfl⟩
  · have hes : ∀ e ∈ T.experiments.drop (T.row w).length, ∃ b, ask (w ++ e) = pure b := fun e he =>
      hask _ (List.append_subset.2 ⟨hw, hT.experiments e (List.mem_of_mem_drop he)⟩)
    obtain ⟨cs, K, hfill⟩ := exists_fillCells (T.row w).reverse T.answers hes
    exact ⟨T.rows.insert cs w, K, by rw [hfill, pure_bind]; rfl⟩

/-- Filling asks for words over the alphabet only, and it changes nothing but the records. -/
theorem Spelled.exists_fillRows (hT : T.Spelled) (hask : Responds ask T.alphabet)
    {ws : List (List β)} (hws : ∀ w ∈ ws, w ⊆ T.alphabet) :
    ∃ R K, fillRows ask T ws = pure (T.withRecords R K) := by
  induction ws generalizing T with
  | nil => exact ⟨T.rows, T.answers, rfl⟩
  | cons w ws ih =>
    obtain ⟨R, K, h⟩ := hT.exists_fillRow hask (hws w List.mem_cons_self)
    rw [fillRows, List.foldlM_cons, h, pure_bind]
    exact ih (hT.withRecords R K) hask fun u hu => hws u (List.mem_cons_of_mem _ hu)

theorem Spelled.closeWithin_cases {n : Nat} {known : WordMap Bool Unit} {fresh ws : List (List β)}
    (hT : T.Spelled) (hask : Responds ask T.alphabet) (hws : ∀ w ∈ ws, w ⊆ T.alphabet) :
    (∃ U, closeWithin ask n known fresh ws T = pure U ∧ U.Spelled ∧ T.Extends U) ∨
      closeWithin ask n known fresh ws T = throw ⟨T.limit⟩ := by
  induction n generalizing known fresh ws T with
  | zero => exact .inr rfl
  | succ n ih =>
    obtain ⟨R, K, hfill⟩ := hT.exists_fillRows hask hws
    have hT' := hT.withRecords R K
    rw [closeWithin, hfill]
    simp only [liftM_pure, pure_bind]
    split
    · exact .inl ⟨_, rfl, ⟨hT.base, hT.experiments⟩, rfl, List.prefix_rfl, rfl, rfl⟩
    · have hnew : ∀ w ∈ newRows (T.withRecords R K) ((T.withRecords R K).addRows known fresh) ws,
          w ⊆ T.alphabet := fun w hw => hws w (newRows_subset hw)
      rcases ih (hT'.append_base hnew) hask (subset_of_mem_extensions hnew) with
        ⟨U, hU, hspelled, hext⟩ | hthrow
      · exact .inl ⟨U, hU, hspelled, hext.alphabet, (List.prefix_append ..).trans hext.base,
          hext.experiments, hext.limit⟩
      · exact .inr hthrow

/-- A table is closed, or it exceeds its limit. -/
theorem Spelled.close_cases (hT : T.Spelled) (hask : Responds ask T.alphabet) :
    (∃ U, T.close ask = pure U ∧ U.Spelled ∧ T.Extends U) ∨ T.close ask = throw ⟨T.limit⟩ :=
  hT.closeWithin_cases hask hT.words

end

end ObservationTable

/-! ## Learners -/

variable {α : Type} [DecidableEq α] {limit : Nat}
  {ask : List (LocalSymbol α) → Except (LearningError α) Bool}
  {l : ObservationTable (LocalSymbol α)}

open ObservationTable

theorem start_outcome (c : α) {symbols : List (LocalSymbol α)} (hask : Responds ask symbols) :
    Outcome (fun l => l.Spelled ∧ l.alphabet = symbols.eraseDups) (· = .limitExceeded limit)
      (LocalLearning.start ask (firstTable limit c symbols)) := by
  change Outcome _ _ (withinLimit α ((ofAlphabet symbols limit).close ask))
  have hask' : Responds ask (ofAlphabet symbols limit).alphabet := fun w hw =>
    hask w fun a ha => List.mem_eraseDups.1 (hw ha)
  rcases (Spelled.ofAlphabet symbols limit).close_cases hask' with ⟨U, hU, hspelled, hext⟩ | hthrow
  · rw [hU, withinLimit_pure]
    exact ⟨hspelled, hext.alphabet⟩
  · rw [hthrow, withinLimit_throw]
    rfl

theorem ObservationTable.Spelled.grow_outcome (hl : l.Spelled) {x : LocalSymbol α}
    (hask : Responds ask (l.alphabet ++ [x])) :
    Outcome (fun l' => l'.Spelled ∧ l.Grows l' ∧
        l'.alphabet = if x ∈ l.alphabet then l.alphabet else l.alphabet ++ [x])
      (· = .limitExceeded l.limit) (LocalLearning.grow ask x l) := by
  change Outcome _ _ (withinLimit α (l.grow ask x))
  by_cases hx : x ∈ l.alphabet
  · rw [ObservationTable.grow_of_mem hx, withinLimit_pure]
    exact ⟨hl, .refl l, (if_pos hx).symm⟩
  · rw [grow_of_not_mem hx, if_neg hx]
    cases l.isFilled with
    | true =>
      rw [if_pos rfl]
      rcases (hl.addSymbol hx).close_cases hask with ⟨U, hU, hspelled, hext⟩ | hthrow
      · rw [hU, withinLimit_pure]
        exact ⟨hspelled, (grows_addSymbol hx).trans hext.grows, hext.alphabet⟩
      · rw [hthrow, withinLimit_throw]
        rfl
    | false =>
      rw [if_neg Bool.false_ne_true, withinLimit_pure]
      exact ⟨hl.addSymbol hx, grows_addSymbol hx, rfl⟩

theorem ObservationTable.Spelled.refine_outcome (hl : l.Spelled) {q : LabelledWord (LocalSymbol α)}
    (hq : q.word ⊆ l.alphabet) (hask : Responds ask l.alphabet) :
    Outcome (fun r => r.2.Spelled ∧ l.Grows r.2 ∧ r.2.alphabet = l.alphabet)
      (· = .limitExceeded l.limit) (LocalLearning.refine ask q l) := by
  change Outcome _ _ (withinLimit α (l.refine ask q))
  rw [ObservationTable.refine]
  split
  · rw [withinLimit_pure]
    exact ⟨hl, .refl l, rfl⟩
  · rcases (hl.addExperiments hq).close_cases hask with ⟨U, hU, hspelled, hext⟩ | hthrow
    · rw [hU, pure_bind, withinLimit_pure]
      exact ⟨hspelled, (grows_addExperiments l q.word).trans hext.grows, hext.alphabet⟩
    · rw [hthrow, ExceptT.bind_throw, withinLimit_throw]
      rfl

end BehavioralAutomata
