import BehavioralAutomata.Proofs.Learning.TableHypothesis

/-!
# What a counterexample does to a table

* `ObservationTable.start_cases`, `refine_cases`, `grow_cases`: a table that is closed for the first
  time, refined or given a further symbol is closed then, or its limit is too small for its language.
* `ObservationTable.Grows`: nothing of the base, the experiments and the alphabet is lost.
* `ObservationTable.Closed.length_base_lt`: a word about which the hypothesis was wrong adds to the
  base.
-/

namespace BehavioralAutomata.ObservationTable

variable {β : Type} [DecidableEq β] {f : List β → Bool} {T U V : ObservationTable β}

/-- Nothing of a table is lost. -/
structure Grows (T U : ObservationTable β) : Prop where
  alphabet : T.alphabet <+: U.alphabet
  base : T.base <+: U.base
  experiments : T.experiments <+: U.experiments
  limit : U.limit = T.limit

namespace Grows

theorem refl (T : ObservationTable β) : T.Grows T :=
  ⟨List.prefix_rfl, List.prefix_rfl, List.prefix_rfl, rfl⟩

theorem trans (h : T.Grows U) (h' : U.Grows V) : T.Grows V :=
  ⟨h.alphabet.trans h'.alphabet, h.base.trans h'.base, h.experiments.trans h'.experiments,
    h'.limit.trans h.limit⟩

theorem cells_eq (h : T.Grows U) {u v : List β} (huv : U.cells f u = U.cells f v) :
    T.cells f u = T.cells f v :=
  List.map_congr_left fun e he => List.map_inj_left.1 huv e (h.experiments.subset he)

theorem getElem?_base (h : T.Grows U) {i : Nat} {b : List β} (hb : T.base[i]? = some b) :
    U.base[i]? = some b := by
  obtain ⟨hi, rfl⟩ := List.getElem?_eq_some_iff.1 hb
  exact List.prefix_iff_getElem?.1 h.base i hi

theorem isRow (h : T.Grows U) {w : List β} (hw : T.IsRow w) : U.IsRow w := by
  rcases hw with hw | ⟨b, hb, a, ha, rfl⟩
  · exact .inl (h.base.subset hw)
  · exact .inr ⟨b, h.base.subset hb, a, h.alphabet.subset ha, rfl⟩

end Grows

theorem Extends.grows (h : T.Extends U) : T.Grows U :=
  ⟨h.alphabet ▸ List.prefix_rfl, h.base, h.experiments ▸ List.prefix_rfl, h.limit⟩

/-! ## Tables that do not grow -/

namespace Closed

section

variable (hT : T.Closed f) (hU : U.Closed f) (h : T.Grows U) (hA : U.alphabet = T.alphabet)
  (hbase : U.base = T.base)

include hT hU h hA hbase

/-- Without a new base word the hypothesis moves as before. -/
theorem successor_eq (i : Nat) (a : β) :
    U.hypothesis.successor i a = T.hypothesis.successor i a := by
  by_cases ha : a ∈ T.alphabet
  · cases hb : T.base[i]? with
    | none =>
      have hb' : U.base[i]? = none := hbase ▸ hb
      rw [hT.hypothesis_eq, hU.hypothesis_eq, Acceptor.successor, Acceptor.successor,
        getElem?_states, getElem?_states, hb, hb']
      rfl
    | some b =>
      obtain ⟨j, c, hj, hc, hcells⟩ := hT.successor hb ha
      obtain ⟨k, d, hk, hd, hcells'⟩ := hU.successor (hbase ▸ hb) (hA ▸ ha)
      have hkj := hT.index_eq (hbase ▸ hd) hc ((h.cells_eq hcells').trans hcells.symm)
      rw [hj, hk, hkj]
  · rw [hT.successor_of_not_mem ha, hU.successor_of_not_mem (hA ▸ ha)]

omit h hA in
theorem isAccepting_eq (i : Nat) : U.hypothesis.isAccepting i = T.hypothesis.isAccepting i := by
  cases hb : T.base[i]? with
  | none =>
    have hb' : U.base[i]? = none := hbase ▸ hb
    rw [hT.hypothesis_eq, hU.hypothesis_eq, Acceptor.isAccepting, Acceptor.isAccepting,
      getElem?_states, getElem?_states, hb, hb']
    rfl
  | some b => rw [hT.isAccepting hb, hU.isAccepting (hbase ▸ hb)]

theorem reachedFrom_eq (i : Nat) (w : List β) :
    U.hypothesis.reachedFrom i w = T.hypothesis.reachedFrom i w := by
  induction w generalizing i with
  | nil => rfl
  | cons a w ih =>
    rw [Acceptor.reachedFrom, Acceptor.reachedFrom, hT.successor_eq hU h hA hbase]
    cases T.hypothesis.successor i a with
    | none => rfl
    | some j => exact ih j

theorem accepts_eq (w : List β) : U.hypothesis.accepts w = T.hypothesis.accepts w := by
  have hreach : U.hypothesis.reached w = T.hypothesis.reached w := by
    rw [Acceptor.reached, Acceptor.reached, hT.start_hypothesis, hU.start_hypothesis]
    exact hT.reachedFrom_eq hU h hA hbase 0 w
  have hacc : U.hypothesis.isAccepting = T.hypothesis.isAccepting :=
    funext (hT.isAccepting_eq hU hbase)
  rw [Acceptor.accepts, Acceptor.accepts, hreach, hacc]

end

/-- If a word about which the hypothesis was wrong has become an experiment, there are more base
words. -/
theorem length_base_lt (hT : T.Closed f) (hU : U.Closed f) (h : T.Grows U)
    (hA : U.alphabet = T.alphabet) {w : List β} (hw : w ∈ U.experiments) (hsub : w ⊆ T.alphabet)
    (hne : T.hypothesis.accepts w ≠ f w) : T.base.length < U.base.length := by
  refine Nat.lt_of_le_of_ne h.base.length_le fun hlen => hne ?_
  have hbase := h.base.eq_of_length hlen
  rw [← hT.accepts_eq hU h hA hbase.symm]
  exact hU.accepts_experiment hw (hA ▸ hsub)

/-- Without new experiments there are no new base words. -/
theorem length_base_eq (hT : T.Closed f) (hU : U.Closed f) (h : T.Grows U)
    (hA : U.alphabet = T.alphabet) (hE : U.experiments ⊆ T.experiments) :
    U.base.length = T.base.length := by
  have hsub : ∀ w ∈ U.base, w ∈ T.base := by
    intro w hw
    induction w using List.reverseRecOn with
    | nil => exact List.mem_of_mem_head? hT.base_head
    | append_singleton b a ih =>
      have hb := ih (hU.base_prefix b a hw)
      have ha : a ∈ T.alphabet := hA ▸ hU.base_subset _ hw (by simp)
      obtain ⟨c, hc, hcells⟩ := hT.closed b hb a ha
      -- the two rows agree in the larger table as well, so that they belong to one base word
      have hcells' : U.cells f c = U.cells f (b ++ [a]) :=
        List.map_congr_left fun e he => List.map_inj_left.1 hcells e (hE he)
      obtain ⟨i, hi⟩ := List.getElem?_of_mem (h.base.subset hc)
      obtain ⟨j, hj⟩ := List.getElem?_of_mem hw
      obtain rfl := hU.index_eq hi hj hcells'
      cases hi.symm.trans hj
      exact hc
  exact Nat.le_antisymm (hU.nodup_base.length_le_of_subset hsub) h.base.length_le

end Closed

/-! ## First table, counterexamples and new symbols -/

theorem shaped_ofAlphabet (f : List β → Bool) (symbols : List β) (limit : Nat) :
    (ofAlphabet symbols limit).Shaped f where
  recorded := ⟨fun w => by simp [row, ofAlphabet], TrueAnswers.empty f⟩
  base_head := rfl
  base_prefix w a h := by simp [ofAlphabet] at h
  base_subset w h := by
    obtain rfl := List.mem_singleton.1 h
    exact List.nil_subset _
  distinct := List.pairwise_singleton ..
  experiments_head := rfl
  experiments_suffix a e h := by simp [ofAlphabet] at h
  isRow_of_contains w h := by simp [ofAlphabet, WordMap.contains] at h

omit [DecidableEq β] in
theorem suffix_of_mem_suffixes {w e : List β} (h : e ∈ suffixes w) : e <:+ w := by
  induction w with
  | nil => exact absurd h List.not_mem_nil
  | cons a w ih =>
    rcases List.mem_cons.1 h with rfl | h
    · exact List.suffix_rfl
    · exact (ih h).trans (List.suffix_cons a w)

omit [DecidableEq β] in
theorem mem_suffixes {w e : List β} (h : e <:+ w) (he : e ≠ []) : e ∈ suffixes w := by
  induction w with
  | nil => exact absurd (List.suffix_nil.1 h) he
  | cons a w ih =>
    rcases List.suffix_cons_iff.1 h with rfl | h
    · exact List.mem_cons_self
    · exact List.mem_cons_of_mem _ (ih h)

theorem mem_experiments_addExperiments {w e : List β} :
    e ∈ (T.addExperiments w).experiments ↔ e ∈ T.experiments ∨ e ∈ suffixes w := by
  have hcontains : (WordMap.positions T.experiments).contains e = true ↔ e ∈ T.experiments :=
    WordMap.contains_positions T.experiments e
  simp only [addExperiments, List.mem_append, List.mem_filter, Bool.not_eq_eq_eq_not, Bool.not_true]
  constructor
  · intro h
    rcases h with h | ⟨h, _⟩
    · exact .inl h
    · exact .inr h
  · intro h
    rcases h with h | h
    · exact .inl h
    · by_cases hmem : e ∈ T.experiments
      · exact .inl hmem
      · exact .inr ⟨h, by rwa [← Bool.not_eq_true, hcontains]⟩

theorem grows_addExperiments (T : ObservationTable β) (w : List β) :
    T.Grows (T.addExperiments w) :=
  ⟨List.prefix_rfl, List.prefix_rfl, List.prefix_append .., rfl⟩

theorem Shaped.addExperiments (hT : T.Shaped f) (w : List β) : (T.addExperiments w).Shaped f where
  recorded := by
    refine ⟨fun u => ?_, hT.recorded.answers⟩
    apply (hT.recorded.rows u).trans
    rw [cells, cells]
    exact (grows_addExperiments T w).experiments.map _
  base_head := hT.base_head
  base_prefix := hT.base_prefix
  base_subset := hT.base_subset
  distinct := hT.distinct.imp fun hne heq => hne ((grows_addExperiments T w).cells_eq heq)
  experiments_head := by
    have := hT.experiments_head
    cases hE : T.experiments with
    | nil => simp [hE] at this
    | cons e es => simpa [ObservationTable.addExperiments, hE] using this
  experiments_suffix a e h := by
    rw [mem_experiments_addExperiments] at h ⊢
    rcases h with h | h
    · exact .inl (hT.experiments_suffix a e h)
    · by_cases he : e = []
      · subst he
        exact .inl hT.nil_mem_experiments
      · exact .inr (mem_suffixes ((List.suffix_cons a e).trans (suffix_of_mem_suffixes h)) he)
  isRow_of_contains := hT.isRow_of_contains

theorem nodup_append_symbol {a : β} (ha : a ∉ T.alphabet) : (T.alphabet ++ [a]).Nodup := by
  refine List.nodup_append.2 ⟨T.alphabet_nodup, by simp, fun b hb c hc => ?_⟩
  rintro rfl
  exact ha (List.mem_singleton.1 hc ▸ hb)

/-- The table with a further symbol, before it is closed. -/
def addSymbol (T : ObservationTable β) (a : β) (ha : a ∉ T.alphabet) : ObservationTable β :=
  { T with
    alphabet := T.alphabet ++ [a]
    alphabet_nodup := nodup_append_symbol ha }

theorem grows_addSymbol {a : β} (ha : a ∉ T.alphabet) : T.Grows (T.addSymbol a ha) :=
  ⟨List.prefix_append .., List.prefix_rfl, List.prefix_rfl, rfl⟩

theorem Shaped.addSymbol (hT : T.Shaped f) {a : β} (ha : a ∉ T.alphabet) :
    (T.addSymbol a ha).Shaped f where
  recorded := ⟨hT.recorded.rows, hT.recorded.answers⟩
  base_head := hT.base_head
  base_prefix := hT.base_prefix
  base_subset w hw := List.Subset.trans (hT.base_subset w hw) (List.subset_append_left ..)
  distinct := hT.distinct
  experiments_head := hT.experiments_head
  experiments_suffix := hT.experiments_suffix
  isRow_of_contains w hw := by
    rcases hT.isRow_of_contains w hw with hw | ⟨b, hb, c, hc, hext⟩
    · exact .inl hw
    · exact .inr ⟨b, hb, c, List.mem_append_left _ hc, hext⟩

section

variable {m : Type → Type} [Monad m] [LawfulMonad m] {ask : List β → m Bool}

omit [LawfulMonad m] in
theorem refine_of_accepts_eq {q : LabelledWord β} (h : T.hypothesis.accepts q.word = q.accepted) :
    T.refine ask q = pure (false, T) := by
  rw [ObservationTable.refine, if_pos h]

omit [LawfulMonad m] in
theorem grow_of_mem {a : β} (ha : a ∈ T.alphabet) : T.grow ask a = pure T := by
  rw [ObservationTable.grow, dif_pos ha]

omit [LawfulMonad m] in
theorem grow_of_not_mem {a : β} (ha : a ∉ T.alphabet) : T.grow ask a =
    if T.isFilled then (T.addSymbol a ha).close ask else pure (T.addSymbol a ha) := by
  rw [ObservationTable.grow, dif_neg ha]
  rfl

omit [LawfulMonad m] in
theorem Tells.told_ofAlphabet {symbols : List β} (h : Tells ask f symbols) (limit : Nat) :
    Told ask f (ofAlphabet symbols limit).alphabet (ofAlphabet symbols limit).experiments := by
  have hsymbols : Tells ask f (ofAlphabet symbols limit).alphabet := fun w hw =>
    h w fun a ha => List.mem_eraseDups.1 (hw ha)
  refine hsymbols.told fun e he => ?_
  obtain rfl := List.mem_singleton.1 he
  exact List.nil_subset _

/-- A first table is closed, unless its limit is too small. -/
theorem start_cases {symbols : List β} (limit : Nat) (hask : Tells ask f symbols) :
    (∃ U, (ofAlphabet symbols limit).close ask = pure U ∧ U.Closed f ∧
      U.alphabet = symbols.eraseDups ∧ U.experiments = [[]] ∧ U.limit = limit) ∨
      (ofAlphabet symbols limit).close ask = throw ⟨limit⟩ ∧ ¬ Bounded f limit := by
  refine (close_cases (shaped_ofAlphabet f symbols limit) (hask.told_ofAlphabet limit)).imp_left
    fun h => ?_
  obtain ⟨U, hU, hclosed, hext⟩ := h
  exact ⟨U, hU, hclosed, hext.alphabet, hext.experiments, hext.limit⟩

/-- A word whose label is not the verdict of the hypothesis becomes an experiment, and so do its
suffixes. -/
theorem refine_cases {q : LabelledWord β} (hT : T.Closed f)
    (hask : Told ask f T.alphabet (T.addExperiments q.word).experiments)
    (hne : T.hypothesis.accepts q.word ≠ q.accepted) :
    (∃ U, (T.addExperiments q.word).close ask = pure U ∧
      T.refine ask q = pure (decide (T.base.length < U.base.length), U) ∧ U.Closed f ∧ T.Grows U ∧
      U.alphabet = T.alphabet ∧
      ∀ e, e ∈ U.experiments ↔ e ∈ T.experiments ∨ e <:+ q.word) ∨
      T.refine ask q = throw ⟨T.limit⟩ ∧ ¬ Bounded f T.limit := by
  rcases close_cases (hT.toShaped.addExperiments q.word) hask with
    ⟨U, hU, hclosed, hext⟩ | ⟨hthrow, hbounded⟩
  · have hgrows := (grows_addExperiments T q.word).trans hext.grows
    refine .inl ⟨U, hU, ?_, hclosed, hgrows, hext.alphabet, fun e => ?_⟩
    · rw [ObservationTable.refine, if_neg hne, hU, pure_bind, hT.size_hypothesis,
        hclosed.size_hypothesis]
    · rw [hext.experiments, mem_experiments_addExperiments]
      refine ⟨Or.imp_right suffix_of_mem_suffixes, fun he => ?_⟩
      by_cases hnil : e = []
      · subst hnil
        exact .inl hT.nil_mem_experiments
      · exact he.imp_right (mem_suffixes · hnil)
  · refine .inr ⟨?_, hbounded⟩
    rw [ObservationTable.refine, if_neg hne, hthrow]
    exact ExceptT.bind_throw _

/-- A row that is full is there, as no row without cells is full. -/
theorem Shaped.get?_rows (hT : T.Shaped f) {w : List β} (hrow : T.row w = T.cells f w) :
    T.rows.get? w = some (T.cells f w) := by
  rw [row] at hrow
  cases h : T.rows.get? w with
  | some r => rw [← hrow, h, Option.getD_some]
  | none =>
    have hhead := hT.cells_head w
    rw [← hrow, h] at hhead
    cases hhead

theorem Closed.get?_rows (hT : T.Closed f) {w : List β} (hw : T.IsRow w) :
    T.rows.get? w = some (T.cells f w) :=
  hT.toShaped.get?_rows (hT.full w hw)

theorem Closed.isFilled (hT : T.Closed f) : T.isFilled = true := by
  rw [ObservationTable.isFilled, WordMap.contains,
    hT.get?_rows (.inl (List.mem_of_mem_head? hT.base_head)), Option.isSome_some]

/-- A closed table is closed when it has been given a further symbol, unless its limit is too small. -/
theorem grow_cases {a : β} (hT : T.Closed f)
    (hask : Told ask f (T.alphabet ++ [a]) T.experiments) :
    (∃ U, T.grow ask a = pure U ∧ U.Closed f ∧ T.Grows U ∧ U.experiments = T.experiments ∧
      U.alphabet = (if a ∈ T.alphabet then T.alphabet else T.alphabet ++ [a])) ∨
      T.grow ask a = throw ⟨T.limit⟩ ∧ ¬ Bounded f T.limit := by
  by_cases ha : a ∈ T.alphabet
  · rw [grow_of_mem ha, if_pos ha]
    exact .inl ⟨T, rfl, hT, .refl T, rfl, rfl⟩
  · rw [grow_of_not_mem ha, if_pos hT.isFilled, if_neg ha]
    refine (close_cases (hT.toShaped.addSymbol ha) hask).imp_left fun h => ?_
    obtain ⟨U, hU, hclosed, hext⟩ := h
    exact ⟨U, hU, hclosed, (grows_addSymbol ha).trans hext.grows, hext.experiments, hext.alphabet⟩

end

end BehavioralAutomata.ObservationTable
