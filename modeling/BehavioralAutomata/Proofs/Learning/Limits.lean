import BehavioralAutomata.Proofs.Learning.Searching

/-!
# Tables within and beyond their limit

* `start_cases`, `Learns.grow_cases`, `Learns.refine_cases`: a learner ends up with a closed table, or it
  fails because the procedure tells more words apart than the limit of the tables.
* `exists_start`, `Learns.exists_grow`, `Learns.exists_refine`: it does not fail if the limit suffices.
-/

namespace BehavioralAutomata

variable {α : Type} {β : Type} [DecidableEq α] [DecidableEq β] {T : System α β} {limit : Nat}
  {m : Type → Type} [Monad m] [LawfulMonad m] [MonadExceptOf (LearningError α) m]
  {ask : List α → m Bool}

omit [DecidableEq α] in
theorem withinLimit_pure {δ : Type} (x : δ) :
    withinLimit α (pure x : ExceptT LimitExceeded m δ) = pure x := by
  rw [withinLimit, ExceptT.run_pure, pure_bind]

omit [DecidableEq α] in
theorem withinLimit_throw {δ : Type} (n : Nat) :
    withinLimit α (throw ⟨n⟩ : ExceptT LimitExceeded m δ) =
      throw (LearningError.limitExceeded n : LearningError α) := by
  rw [withinLimit, ExceptT.run_throw, pure_bind]

/-- The first table of a procedure. -/
def firstTable (limit : Nat) (_ : α) (symbols : List (LocalSymbol α)) :
    ObservationTable (LocalSymbol α) :=
  .ofAlphabet symbols limit

variable {S : SequenceStore α} {c : α} {l : ObservationTable (LocalSymbol α)}

theorem Learns.addExperiments_subset (hl : Learns T S limit c l) {w : List (LocalSymbol α)}
    (hw : w ⊆ l.alphabet) : ∀ e ∈ (l.addExperiments w).experiments, e ⊆ l.alphabet := by
  intro e he
  rcases ObservationTable.mem_experiments_addExperiments.1 he with he | he
  · exact hl.experiments_subset e he
  · exact List.Subset.trans (ObservationTable.suffix_of_mem_suffixes he).subset hw

/-! ## What can happen -/

section

variable (hask : ∀ v, ask v = pure (T.accepts v)) (hS : S.Genuine T)

include hask hS

/-- A procedure gets a table, or the table exceeds its limit. -/
theorem start_cases (hc : c ∈ S.access.keys) {symbols : List (LocalSymbol α)}
    (h : S.Askable symbols) :
    (∃ l, LocalLearning.start (S.askLocal ask c) (firstTable limit c symbols) = (pure l : m _) ∧
      Learns T S limit c l ∧ ∀ x ∈ symbols, x ∈ l.alphabet) ∨
    LocalLearning.start (S.askLocal ask c) (firstTable limit c symbols) =
      (throw (.limitExceeded limit : LearningError α) : m (ObservationTable (LocalSymbol α))) ∧
      ¬ ObservationTable.Bounded (T.localLanguage c) limit := by
  change (∃ l, withinLimit α ((ObservationTable.ofAlphabet symbols limit).close (S.askLocal ask c)) = _
    ∧ _) ∨ withinLimit α ((ObservationTable.ofAlphabet symbols limit).close (S.askLocal ask c)) = _ ∧ _
  rcases ObservationTable.start_cases limit (tells_askLocal hask hS hc h) with
    ⟨l, hl, hclosed, hA, hE, hlim⟩ | ⟨hthrow, hbounded⟩
  · refine .inl ⟨l, by rw [hl, withinLimit_pure], ⟨hclosed, fun e he => ?_, ?_, hlim, hc⟩,
      fun x hx => ?_⟩
    · rw [hE, List.mem_singleton] at he
      exact he ▸ List.nil_subset _
    · rw [hA]
      exact h.mono fun x hx => List.mem_eraseDups.1 hx
    · rw [hA]
      exact List.mem_eraseDups.2 hx
  · exact .inr ⟨by rw [hthrow, withinLimit_throw], hbounded⟩

/-- A table is given a further symbol, or it exceeds its limit. -/
theorem Learns.grow_cases (hl : Learns T S limit c l) {x : LocalSymbol α} (hx : S.Askable [x]) :
    (∃ l', LocalLearning.grow (S.askLocal ask c) x l = (pure l' : m _) ∧ Learns T S limit c l' ∧
      l.Grows l' ∧ x ∈ l'.alphabet) ∨
    LocalLearning.grow (S.askLocal ask c) x l =
      (throw (.limitExceeded limit : LearningError α) : m (ObservationTable (LocalSymbol α))) ∧
      ¬ ObservationTable.Bounded (T.localLanguage c) limit := by
  change (∃ l', withinLimit α (l.grow (S.askLocal ask c) x) = _ ∧ _) ∨
    withinLimit α (l.grow (S.askLocal ask c) x) = _ ∧ _
  have hsub : ∀ e ∈ l.experiments, e ⊆ l.alphabet ++ [x] := fun e he =>
    List.Subset.trans (hl.experiments_subset e he) (List.subset_append_left ..)
  rcases ObservationTable.grow_cases hl.closed
      ((tells_askLocal hask hS hl.access (hl.askable.append hx)).told hsub) with
    ⟨l', hl', hclosed, hgrows, hE, hA⟩ | ⟨hthrow, hbounded⟩
  · have hmem : x ∈ l'.alphabet ∧ l'.alphabet ⊆ l.alphabet ++ [x] := by
      rw [hA]
      split
      · next h => exact ⟨h, List.subset_append_left ..⟩
      · exact ⟨by simp, List.Subset.refl _⟩
    have hlearns : Learns T S limit c l' :=
      ⟨hclosed, fun e he => List.Subset.trans (hl.experiments_subset e (hE ▸ he))
        hgrows.alphabet.subset, (hl.askable.append hx).mono hmem.2, hgrows.limit.trans hl.limit,
        hl.access⟩
    exact .inl ⟨l', by rw [hl', withinLimit_pure], hlearns, hgrows, hmem.1⟩
  · rw [hl.limit] at hthrow hbounded
    exact .inr ⟨by rw [hthrow, withinLimit_throw], hbounded⟩

/-- A table that disagrees with the label of a word is refined with it, or it exceeds its limit. -/
theorem Learns.refine_cases (hl : Learns T S limit c l) {q : LabelledWord (LocalSymbol α)}
    (hq : q.word ⊆ l.alphabet) (hne : l.hypothesis.accepts q.word ≠ q.accepted) :
    (∃ l', (l.addExperiments q.word).close (S.askLocal ask c) = pure l' ∧
      LocalLearning.refine (S.askLocal ask c) q l =
        (pure (decide (l.base.length < l'.base.length), l') : m _) ∧
      Learns T S limit c l' ∧ l.Grows l' ∧ l'.alphabet = l.alphabet ∧
      ∀ e, e ∈ l'.experiments ↔ e ∈ l.experiments ∨ e <:+ q.word) ∨
    LocalLearning.refine (S.askLocal ask c) q l =
      (throw (.limitExceeded limit : LearningError α) :
        m (Bool × ObservationTable (LocalSymbol α))) ∧
      ¬ ObservationTable.Bounded (T.localLanguage c) limit := by
  change (∃ l', _ ∧ withinLimit α (l.refine (S.askLocal ask c) q) = _ ∧ _) ∨
    withinLimit α (l.refine (S.askLocal ask c) q) = _ ∧ _
  rcases ObservationTable.refine_cases hl.closed
      ((tells_askLocal hask hS hl.access hl.askable).told (hl.addExperiments_subset hq)) hne
    with ⟨l', hclose, hrefine, hclosed, hgrows, hA, hE⟩ | ⟨hthrow, hbounded⟩
  · have hlearns : Learns T S limit c l' :=
      ⟨hclosed, fun e he => hA ▸ ((hE e).1 he).elim (hl.experiments_subset e)
        fun h => List.Subset.trans h.subset hq, hA ▸ hl.askable, hgrows.limit.trans hl.limit,
        hl.access⟩
    exact .inl ⟨l', hclose, by rw [hrefine, withinLimit_pure], hlearns, hgrows, hA, hE⟩
  · rw [hl.limit] at hthrow hbounded
    exact .inr ⟨by rw [hthrow, withinLimit_throw], hbounded⟩

end

/-! ## With a limit that suffices -/

section

variable (hask : ∀ v, ask v = pure (T.accepts v)) (hT : T.EntriesAccept)
  (hlimit : LimitSuffices T limit) (hS : S.Genuine T)

include hask hT hlimit hS

theorem exists_start (hc : c ∈ S.access.keys) {symbols : List (LocalSymbol α)}
    (h : S.Askable symbols) :
    ∃ l, LocalLearning.start (S.askLocal ask c) (firstTable limit c symbols) = (pure l : m _) ∧
      Learns T S limit c l ∧ ∀ x ∈ symbols, x ∈ l.alphabet :=
  (start_cases hask hS hc h).resolve_right fun h => h.2 (hlimit.bounded hT hS hc)

theorem Learns.exists_grow (hl : Learns T S limit c l) {x : LocalSymbol α} (hx : S.Askable [x]) :
    ∃ l', LocalLearning.grow (S.askLocal ask c) x l = (pure l' : m _) ∧ Learns T S limit c l' ∧
      l.Grows l' ∧ x ∈ l'.alphabet :=
  (hl.grow_cases hask hS hx).resolve_right fun h => h.2 (hlimit.bounded hT hS hl.access)

/-- A table that disagrees with the label of a word can be refined with it. -/
theorem Learns.exists_refine (hl : Learns T S limit c l) {q : LabelledWord (LocalSymbol α)}
    (hq : q.word ⊆ l.alphabet) (hne : l.hypothesis.accepts q.word ≠ q.accepted) :
    ∃ l', (l.addExperiments q.word).close (S.askLocal ask c) = pure l' ∧
      LocalLearning.refine (S.askLocal ask c) q l =
        (pure (decide (l.base.length < l'.base.length), l') : m _) ∧
      Learns T S limit c l' ∧ l.Grows l' ∧ l'.alphabet = l.alphabet ∧
      ∀ e, e ∈ l'.experiments ↔ e ∈ l.experiments ∨ e <:+ q.word :=
  (hl.refine_cases hask hS hq hne).resolve_right fun h => h.2 (hlimit.bounded hT hS hl.access)

end

end BehavioralAutomata
