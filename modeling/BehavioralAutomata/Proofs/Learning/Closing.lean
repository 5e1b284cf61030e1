import BehavioralAutomata.Proofs.Learning.Filling

/-!
# Closing a table

* `ObservationTable.Shaped`: what holds of a table between two closings. The base is closed under
  prefixes, the experiments are closed under suffixes, and no two base words have the same cells. The
  experiments may have symbols that are not in the alphabet. There are no rows but those of base words and
  of their extensions.
* `ObservationTable.Closed`: in addition every row is full and is the row of a base word.
* `ObservationTable.Bounded`: the number of words that a language tells apart.
* `ObservationTable.close_cases`: a table closes within its limit, unless its language tells more words
  apart.
-/

namespace BehavioralAutomata.ObservationTable

variable {β : Type} [DecidableEq β] {f : List β → Bool}

/-- The word has a row: it is a base word or one symbol longer than one. -/
def IsRow (T : ObservationTable β) (w : List β) : Prop :=
  w ∈ T.base ∨ ∃ b ∈ T.base, ∃ a ∈ T.alphabet, w = b ++ [a]

theorem mem_extensions {T : ObservationTable β} {ws : List (List β)} {w : List β} :
    w ∈ T.extensions ws ↔ ∃ b ∈ ws, ∃ a ∈ T.alphabet, w = b ++ [a] := by
  simp [extensions, eq_comm]

theorem mem_words {T : ObservationTable β} {w : List β} : w ∈ T.words ↔ T.IsRow w := by
  have hcontains : ∀ u, (WordMap.positions T.base).contains u = true ↔ u ∈ T.base :=
    WordMap.contains_positions T.base
  simp only [words, List.mem_flatMap, List.mem_cons, List.mem_filter, Bool.not_eq_eq_eq_not,
    Bool.not_true]
  constructor
  · intro h
    obtain ⟨b, hb, rfl | ⟨hw, _⟩⟩ := h
    · exact .inl hb
    · obtain ⟨b', hb', a, ha, rfl⟩ := mem_extensions.1 hw
      obtain rfl := List.mem_singleton.1 hb'
      exact .inr ⟨b', hb, a, ha, rfl⟩
  · intro h
    rcases h with hw | ⟨b, hb, a, ha, rfl⟩
    · exact ⟨w, hw, .inl rfl⟩
    · by_cases hmem : b ++ [a] ∈ T.base
      · exact ⟨b ++ [a], hmem, .inl rfl⟩
      · refine ⟨b, hb, .inr ⟨mem_extensions.2 ⟨b, List.mem_singleton.2 rfl, a, ha, rfl⟩, ?_⟩⟩
        rwa [← Bool.not_eq_true, hcontains]

/-- What holds of a table between two closings. -/
structure Shaped (T : ObservationTable β) (f : List β → Bool) : Prop where
  recorded : T.Recorded f
  base_head : T.base.head? = some []
  base_prefix : ∀ w a, w ++ [a] ∈ T.base → w ∈ T.base
  base_subset : ∀ w ∈ T.base, w ⊆ T.alphabet
  distinct : T.base.Pairwise fun u v => T.cells f u ≠ T.cells f v
  experiments_head : T.experiments.head? = some []
  experiments_suffix : ∀ a e, a :: e ∈ T.experiments → e ∈ T.experiments
  isRow_of_contains : ∀ w, T.rows.contains w = true → T.IsRow w

/-- What holds of a table behind a closing. -/
structure Closed (T : ObservationTable β) (f : List β → Bool) : Prop extends Shaped T f where
  full : ∀ w, T.IsRow w → T.row w = T.cells f w
  closed : ∀ b ∈ T.base, ∀ a ∈ T.alphabet, ∃ b' ∈ T.base, T.cells f b' = T.cells f (b ++ [a])
  hypothesis_eq : T.hypothesis = T.toAcceptor

/-- Closing keeps the alphabet and the experiments and adds to the base. -/
structure Extends (T U : ObservationTable β) : Prop where
  alphabet : U.alphabet = T.alphabet
  base : T.base <+: U.base
  experiments : U.experiments = T.experiments
  limit : U.limit = T.limit

theorem Extends.refl (T : ObservationTable β) : T.Extends T := ⟨rfl, List.prefix_rfl, rfl, rfl⟩

/-- Among more than `n` words there are two that `f` does not tell apart. -/
def Bounded (f : List β → Bool) (n : Nat) : Prop :=
  ∀ ws : List (List β), ws.Pairwise (fun u v => ∃ e, f (u ++ e) ≠ f (v ++ e)) → ws.length ≤ n

omit [DecidableEq β] in
theorem Bounded.mono {k n : Nat} (h : Bounded f k) (hkn : k ≤ n) : Bounded f n :=
  fun ws hws => Nat.le_trans (h ws hws) hkn

omit [DecidableEq β] in
/-- A language does not tell words apart that lead to one state. -/
theorem Bounded.of_states {σ : Type} {state : List β → σ} {states : List σ}
    (hmem : ∀ w, state w ∈ states)
    (hstate : ∀ u v, state u = state v → ∀ e, f (u ++ e) = f (v ++ e)) :
    Bounded f states.length := by
  intro ws hws
  have hnodup : (ws.map state).Nodup := by
    refine List.pairwise_map.2 (hws.imp ?_)
    rintro u v ⟨e, he⟩ heq
    exact he (hstate u v heq e)
  have hsub : ws.map state ⊆ states := by
    intro x hx
    obtain ⟨w, _, rfl⟩ := List.mem_map.1 hx
    exact hmem w
  rw [← List.length_map (f := state)]
  exact hnodup.length_le_of_subset hsub

theorem exists_of_cells_ne {T : ObservationTable β} {u v : List β}
    (h : T.cells f u ≠ T.cells f v) : ∃ e ∈ T.experiments, f (u ++ e) ≠ f (v ++ e) := by
  by_contra hne
  refine h (List.map_congr_left fun e hmem => ?_)
  by_contra he
  exact hne ⟨e, hmem, he⟩

theorem Shaped.length_base_le {T : ObservationTable β} (hT : T.Shaped f) {n : Nat}
    (hn : Bounded f n) : T.base.length ≤ n := by
  refine hn T.base (hT.distinct.imp fun hne => ?_)
  obtain ⟨e, _, he⟩ := exists_of_cells_ne hne
  exact ⟨e, he⟩

theorem Shaped.isRow_subset {T : ObservationTable β} (hT : T.Shaped f) {w : List β}
    (hw : T.IsRow w) : w ⊆ T.alphabet := by
  rcases hw with hw | ⟨b, hb, a, ha, rfl⟩
  · exact hT.base_subset w hw
  · refine List.append_subset.2 ⟨hT.base_subset b hb, ?_⟩
    simpa using ha

theorem Shaped.nodup_base {T : ObservationTable β} (hT : T.Shaped f) : T.base.Nodup :=
  hT.distinct.imp fun hne heq => hne (congrArg _ heq)

/-! ## New rows -/

theorem contains_addRows {T : ObservationTable β} {known : WordMap Bool Unit}
    {ws : List (List β)} {r : List Bool} :
    (T.addRows known ws).contains r = true ↔
      known.contains r = true ∨ ∃ w ∈ ws, T.row w = r := by
  induction ws generalizing known with
  | nil => simp [addRows]
  | cons w ws ih =>
    have hrec : (T.addRows (known.insert () (T.row w)) ws).contains r = true ↔ _ := ih
    apply hrec.trans
    rw [WordMap.contains_insert]
    simp only [Bool.or_eq_true, beq_iff_eq, List.exists_mem_cons_iff]
    constructor
    · intro h
      rcases h with (rfl | h) | h
      · exact .inr (.inl rfl)
      · exact .inl h
      · exact .inr (.inr h)
    · intro h
      rcases h with h | rfl | h
      · exact .inl (.inr h)
      · exact .inl (.inl rfl)
      · exact .inr h

section

variable {T : ObservationTable β} {known : WordMap Bool Unit} {ws : List (List β)}

theorem newRows_subset : T.newRows known ws ⊆ ws := by
  induction ws generalizing known with
  | nil => exact List.Subset.refl _
  | cons w ws ih =>
    rw [newRows]
    split
    · exact List.Subset.trans ih (List.subset_cons_self w ws)
    · exact List.cons_subset_cons w ih

theorem not_contains_of_mem_newRows {w : List β} (h : w ∈ T.newRows known ws) :
    known.contains (T.row w) = false := by
  induction ws generalizing known with
  | nil => exact absurd h List.not_mem_nil
  | cons v ws ih =>
    rw [newRows] at h
    split at h
    · exact ih h
    · next hv =>
      rcases List.mem_cons.1 h with rfl | h
      · simpa using hv
      · have := ih h
        rw [WordMap.contains_insert, Bool.or_eq_false_iff] at this
        exact this.2

theorem pairwise_newRows : (T.newRows known ws).Pairwise fun u v => T.row u ≠ T.row v := by
  induction ws generalizing known with
  | nil => exact .nil
  | cons w ws ih =>
    rw [newRows]
    split
    · exact ih
    · refine .cons (fun v hv heq => ?_) ih
      have := not_contains_of_mem_newRows hv
      rw [WordMap.contains_insert, Bool.or_eq_false_iff, beq_eq_false_iff_ne] at this
      exact this.1 heq.symm

theorem contains_or_mem_newRows {w : List β} (h : w ∈ ws) :
    known.contains (T.row w) = true ∨ ∃ u ∈ T.newRows known ws, T.row u = T.row w := by
  induction ws generalizing known with
  | nil => exact absurd h List.not_mem_nil
  | cons v ws ih =>
    rw [newRows]
    split
    · next hv =>
      rcases List.mem_cons.1 h with rfl | h
      · exact .inl hv
      · exact ih h
    · rcases List.mem_cons.1 h with rfl | h
      · exact .inr ⟨w, List.mem_cons_self, rfl⟩
      · have hrec : (known.insert () (T.row v)).contains (T.row w) = true ∨ _ := ih h
        rcases hrec with hw | ⟨u, hu, hrow⟩
        · rw [WordMap.contains_insert, Bool.or_eq_true, beq_iff_eq] at hw
          exact hw.elim (fun hw => .inr ⟨v, List.mem_cons_self, hw.symm⟩) .inl
        · exact .inr ⟨u, List.mem_cons_of_mem _ hu, hrow⟩

end

/-! ## The rounds -/

/-- What holds in front of a round. The rows of the words of `ws` are still to be filled, those of the
base words but `fresh` are in `known`, and all other rows are full and rows of base words. -/
structure Closing (f : List β → Bool) (known : WordMap Bool Unit) (fresh ws : List (List β))
    (T : ObservationTable β) : Prop where
  shaped : T.Shaped f
  known_iff : ∃ old, T.base = old ++ fresh ∧
    ∀ r, known.contains r = true ↔ ∃ w ∈ old, T.cells f w = r
  isRow : ∀ w ∈ ws, T.IsRow w
  rest : ∀ w, T.IsRow w → w ∈ ws ∨
    T.row w = T.cells f w ∧ ∃ b ∈ T.base, T.cells f b = T.cells f w

section

variable {T : ObservationTable β} {known : WordMap Bool Unit} {fresh ws : List (List β)}

theorem Closing.start (hT : T.Shaped f) : Closing f ∅ T.base T.words T where
  shaped := hT
  known_iff := ⟨[], rfl, fun r => by simp [WordMap.contains]⟩
  isRow w hw := mem_words.1 hw
  rest w hw := .inl (mem_words.2 hw)

theorem Shaped.withRecords (hT : T.Shaped f) {R : WordMap β (List Bool)} {K : Answers β}
    (h : (T.withRecords R K).Recorded f) (hkeys : ∀ w, R.contains w = true → T.IsRow w) :
    (T.withRecords R K).Shaped f where
  recorded := h
  base_head := hT.base_head
  base_prefix := hT.base_prefix
  base_subset := hT.base_subset
  distinct := hT.distinct
  experiments_head := hT.experiments_head
  experiments_suffix := hT.experiments_suffix
  isRow_of_contains := hkeys

/-- Words that have rows can be added to the base if their cells are different and new. -/
theorem Shaped.append_base (hT : T.Shaped f) {new : List (List β)} (hrow : ∀ w ∈ new, T.IsRow w)
    (hdistinct : (T.base ++ new).Pairwise fun u v => T.cells f u ≠ T.cells f v) :
    { T with base := T.base ++ new }.Shaped f where
  recorded := ⟨hT.recorded.rows, hT.recorded.answers⟩
  base_head := by
    obtain ⟨bs, hbs⟩ := List.head?_eq_some_iff.1 hT.base_head
    rw [hbs]
    rfl
  base_prefix w a hw := by
    apply List.mem_append_left _
    rcases List.mem_append.1 hw with hw | hw
    · exact hT.base_prefix w a hw
    · rcases hrow _ hw with hw | ⟨b, hb, a', _, heq⟩
      · exact hT.base_prefix w a hw
      · obtain ⟨rfl, _⟩ := List.append_inj' heq rfl
        exact hb
  base_subset w hw := by
    rcases List.mem_append.1 hw with hw | hw
    · exact hT.base_subset w hw
    · exact hT.isRow_subset (hrow w hw)
  distinct := hdistinct
  experiments_head := hT.experiments_head
  experiments_suffix := hT.experiments_suffix
  isRow_of_contains w hw := by
    rcases hT.isRow_of_contains w hw with hw | ⟨b, hb, hext⟩
    · exact .inl (List.mem_append_left _ hw)
    · exact .inr ⟨b, List.mem_append_left _ hb, hext⟩

/-- A table whose rows are filled in front of the test for new rows. -/
structure Filled (f : List β → Bool) (known : WordMap Bool Unit) (ws : List (List β))
    (T : ObservationTable β) : Prop where
  shaped : T.Shaped f
  full : ∀ w, T.IsRow w → T.row w = T.cells f w
  known_iff : ∀ r, known.contains r = true ↔ ∃ b ∈ T.base, T.cells f b = r
  isRow : ∀ w ∈ ws, T.IsRow w
  rest : ∀ w, T.IsRow w → w ∈ ws ∨ ∃ b ∈ T.base, T.cells f b = T.cells f w

theorem Closing.filled (h : Closing f known fresh ws T) {R : WordMap β (List Bool)} {K : Answers β}
    (hR : (T.withRecords R K).Recorded f)
    (hrow : ∀ u, (T.withRecords R K).row u = if u ∈ ws then T.cells f u else T.row u)
    (hkeys : ∀ u, R.contains u = true → u ∈ ws ∨ T.rows.contains u = true) :
    Filled f ((T.withRecords R K).addRows known fresh) ws (T.withRecords R K) := by
  have full : ∀ w, T.IsRow w → (T.withRecords R K).row w = T.cells f w := by
    intro w hw
    rw [hrow]
    split
    · rfl
    · next hmem => exact ((h.rest w hw).resolve_left hmem).1
  have isRow : ∀ w, R.contains w = true → T.IsRow w := fun w hw =>
    (hkeys w hw).elim (h.isRow w) (h.shaped.isRow_of_contains w)
  refine ⟨h.shaped.withRecords hR isRow, full, fun r => ?_, h.isRow, fun w hw => ?_⟩
  · obtain ⟨old, hbase, hknown⟩ := h.known_iff
    have hfresh : ∀ w ∈ fresh, (T.withRecords R K).row w = T.cells f w := fun w hw =>
      full w (.inl (hbase ▸ List.mem_append_right old hw))
    have hmem : ∀ b, b ∈ (T.withRecords R K).base ↔ b ∈ old ∨ b ∈ fresh := fun b => by
      rw [← List.mem_append, ← hbase]
      rfl
    rw [contains_addRows, hknown]
    constructor
    · intro h
      rcases h with ⟨w, hw, rfl⟩ | ⟨w, hw, rfl⟩
      · exact ⟨w, (hmem w).2 (.inl hw), rfl⟩
      · exact ⟨w, (hmem w).2 (.inr hw), (hfresh w hw).symm⟩
    · intro h
      obtain ⟨b, hb, rfl⟩ := h
      rcases (hmem b).1 hb with hb | hb
      · exact .inl ⟨b, hb, rfl⟩
      · exact .inr ⟨b, hb, hfresh b hb⟩
  · exact (h.rest w hw).imp id And.right

/-- Every row is the row of a base word or of a word that is to be promoted. -/
theorem Filled.exists_cells_eq (h : Filled f known ws T) {w : List β} (hw : T.IsRow w) :
    ∃ b ∈ T.base ++ T.newRows known ws, T.cells f b = T.cells f w := by
  rcases h.rest w hw with hmem | ⟨b, hb, heq⟩
  · rcases contains_or_mem_newRows hmem with hk | ⟨u, hu, heq⟩
    · rw [h.full w hw] at hk
      obtain ⟨b, hb, heq⟩ := (h.known_iff _).1 hk
      exact ⟨b, List.mem_append_left _ hb, heq⟩
    · refine ⟨u, List.mem_append_right _ hu, ?_⟩
      rw [← h.full u (h.isRow u (newRows_subset hu)), heq, h.full w hw]
  · exact ⟨b, List.mem_append_left _ hb, heq⟩

theorem Filled.closed (h : Filled f known ws T) (hnew : T.newRows known ws = []) :
    Closed { T with hypothesis := T.toAcceptor } f := by
  refine ⟨⟨⟨h.shaped.recorded.rows, h.shaped.recorded.answers⟩, h.shaped.base_head,
    h.shaped.base_prefix, h.shaped.base_subset, h.shaped.distinct, h.shaped.experiments_head,
    h.shaped.experiments_suffix, h.shaped.isRow_of_contains⟩, h.full, fun b hb a ha => ?_, rfl⟩
  have hcells := h.exists_cells_eq (.inr ⟨b, hb, a, ha, rfl⟩)
  rwa [hnew, List.append_nil] at hcells

theorem Filled.pairwise_append (h : Filled f known ws T) :
    (T.base ++ T.newRows known ws).Pairwise fun u v => T.cells f u ≠ T.cells f v := by
  have full : ∀ w ∈ T.newRows known ws, T.row w = T.cells f w := fun w hw =>
    h.full w (h.isRow w (newRows_subset hw))
  refine List.pairwise_append.2 ⟨h.shaped.distinct, ?_, fun b hb w hw heq => ?_⟩
  · refine pairwise_newRows.imp_of_mem fun hu hv hne => ?_
    rwa [← full _ hu, ← full _ hv]
  · have hk := not_contains_of_mem_newRows hw
    rw [full w hw, ← heq, (h.known_iff _).2 ⟨b, hb, rfl⟩] at hk
    cases hk

/-- The words of the new rows are promoted to the base. -/
theorem Filled.promote (h : Filled f known ws T) {new : List (List β)}
    (hnew : T.newRows known ws = new) :
    Closing f known new (T.extensions new) { T with base := T.base ++ new } := by
  subst hnew
  have isRow : ∀ w ∈ T.newRows known ws, T.IsRow w := fun w hw => h.isRow w (newRows_subset hw)
  have old : ∀ w, T.IsRow w → w ∈ T.extensions (T.newRows known ws) ∨
      T.row w = T.cells f w ∧ ∃ b ∈ T.base ++ T.newRows known ws, T.cells f b = T.cells f w :=
    fun w hw => .inr ⟨h.full w hw, h.exists_cells_eq hw⟩
  refine ⟨h.shaped.append_base isRow h.pairwise_append, ⟨T.base, rfl, h.known_iff⟩, fun w hw => ?_,
    fun w hw => ?_⟩
  · obtain ⟨b, hb, a, ha, rfl⟩ := mem_extensions.1 hw
    exact .inr ⟨b, List.mem_append_right _ hb, a, ha, rfl⟩
  · -- a row that the promotion brings belongs to an extension of a promoted word
    rcases hw with hw | ⟨b, hb, a, ha, rfl⟩
    · rcases List.mem_append.1 hw with hw | hw
      · exact old w (.inl hw)
      · exact old w (isRow w hw)
    · rcases List.mem_append.1 hb with hb | hb
      · exact old _ (.inr ⟨b, hb, a, ha, rfl⟩)
      · exact .inl (mem_extensions.2 ⟨b, hb, a, ha, rfl⟩)

variable {m : Type → Type} [Monad m] [LawfulMonad m] {ask : List β → m Bool}

/-- The rounds end with a closed table, or there are too few of them. Every round but the last one adds
to the base, so there are enough of them for a bounded language. -/
theorem closeWithin_cases {n : Nat} (h : Closing f known fresh ws T)
    (hask : Told ask f T.alphabet T.experiments) :
    (∃ U, closeWithin ask n known fresh ws T = pure U ∧ U.Closed f ∧ T.Extends U) ∨
      closeWithin ask n known fresh ws T = throw ⟨T.limit⟩ ∧
        ∀ k, Bounded f k → n + T.base.length ≤ k := by
  induction n generalizing known fresh ws T with
  | zero =>
    refine .inr ⟨rfl, fun k hk => ?_⟩
    rw [Nat.zero_add]
    exact h.shaped.length_base_le hk
  | succ n ih =>
    obtain ⟨R, K, hfill, hR, hrow, hkeys⟩ := fillRows_eq h.shaped.recorded hask
      fun w hw => h.shaped.isRow_subset (h.isRow w hw)
    have hfilled := h.filled hR hrow hkeys
    rw [closeWithin, hfill]
    simp only [liftM_pure, pure_bind]
    split
    · next hnew =>
      exact .inl ⟨_, rfl, hfilled.closed hnew, rfl, List.prefix_rfl, rfl, rfl⟩
    · next new hne =>
      rcases ih (hfilled.promote rfl) hask with ⟨U, hU, hclosed, hext⟩ | ⟨hthrow, hlong⟩
      · refine .inl ⟨U, hU, hclosed, ?_⟩
        exact ⟨hext.alphabet, (List.prefix_append ..).trans hext.base, hext.experiments, hext.limit⟩
      · refine .inr ⟨hthrow, fun k hk => ?_⟩
        have hpos :
            0 < (newRows (T.withRecords R K) ((T.withRecords R K).addRows known fresh) ws).length :=
          List.length_pos_iff.2 hne
        have hlen := hlong k hk
        simp only [withRecords, List.length_append] at hpos hlen
        omega

/-- A table is closed, or its language tells more words apart than its limit. -/
theorem close_cases (hT : T.Shaped f) (hask : Told ask f T.alphabet T.experiments) :
    (∃ U, T.close ask = pure U ∧ U.Closed f ∧ T.Extends U) ∨
      T.close ask = throw ⟨T.limit⟩ ∧ ¬ Bounded f T.limit := by
  have hpos := List.length_pos_of_mem (List.mem_of_head? hT.base_head)
  refine (closeWithin_cases (.start hT) hask).imp_right fun h => ⟨h.1, fun hbounded => ?_⟩
  have hlong := h.2 T.limit hbounded
  omega

end

end BehavioralAutomata.ObservationTable
