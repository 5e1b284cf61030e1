import BehavioralAutomata.Proofs.Acceptor.Recognition
import BehavioralAutomata.Proofs.Learning.Closing
import Mathlib.Data.List.Induction

/-!
# The hypothesis of a closed table

The states of the hypothesis are the base words, in their order.

* `ObservationTable.Closed.reached`, `Closed.reached_base`: every word over the alphabet leads to the
  state of a base word, and a base word to its own state.
* `ObservationTable.Closed.reduced`: all states are reached and told apart.
* `ObservationTable.Closed.accepts_append`: the hypothesis is right about the word of a row followed by an
  experiment over the alphabet.
-/

namespace BehavioralAutomata.ObservationTable

variable {β : Type} [DecidableEq β] {f : List β → Bool} {T : ObservationTable β}

theorem getElem?_states (T : ObservationTable β) (i : Nat) :
    T.toAcceptor.states[i]? = T.base[i]?.map (T.stateOf (.positions T.baseRows)) := by
  rw [toAcceptor, List.getElem?_toArray, List.getElem?_map]

theorem Shaped.cells_head (hT : T.Shaped f) (w : List β) : (T.cells f w).head? = some (f w) := by
  rw [cells, List.head?_map, hT.experiments_head, Option.map_some, List.append_nil]

theorem Shaped.nil_mem_experiments (hT : T.Shaped f) : [] ∈ T.experiments :=
  List.mem_of_mem_head? hT.experiments_head

theorem Shaped.getElem?_base_zero (hT : T.Shaped f) : T.base[0]? = some [] := by
  rw [← List.head?_eq_getElem?]
  exact hT.base_head

/-- Base words with the same cells stand at the same place. -/
theorem Shaped.index_eq (hT : T.Shaped f) {i j : Nat} {b b' : List β} (hb : T.base[i]? = some b)
    (hb' : T.base[j]? = some b') (h : T.cells f b = T.cells f b') : i = j := by
  obtain ⟨hi, rfl⟩ := List.getElem?_eq_some_iff.1 hb
  obtain ⟨hj, rfl⟩ := List.getElem?_eq_some_iff.1 hb'
  have hdistinct := List.pairwise_iff_getElem.1 hT.distinct
  rcases Nat.lt_trichotomy i j with hlt | heq | hlt
  · exact absurd h (hdistinct i j hi hj hlt)
  · exact heq
  · exact absurd h.symm (hdistinct j i hj hi hlt)

namespace Closed

theorem size_hypothesis (hT : T.Closed f) : T.hypothesis.size = T.base.length := by
  rw [hT.hypothesis_eq, Acceptor.size, toAcceptor, List.size_toArray, List.length_map]

theorem exists_base (hT : T.Closed f) {i : Nat} (hi : i < T.hypothesis.size) :
    ∃ b, T.base[i]? = some b := by
  rw [hT.size_hypothesis] at hi
  exact ⟨T.base[i], List.getElem?_eq_getElem hi⟩

theorem start_hypothesis (hT : T.Closed f) : T.hypothesis.start = some 0 := by
  rw [hT.hypothesis_eq]
  change T.base.head?.map (fun _ => 0) = some 0
  rw [hT.base_head]
  rfl

theorem isAccepting (hT : T.Closed f) {i : Nat} {b : List β} (hb : T.base[i]? = some b) :
    T.hypothesis.isAccepting i = f b := by
  rw [hT.hypothesis_eq, Acceptor.isAccepting, getElem?_states, hb, Option.map_some,
    Option.any_some, stateOf, hT.full b (.inl (List.mem_of_getElem? hb)), List.headD_eq_head?_getD,
    hT.cells_head]
  rfl

/-- A symbol of the alphabet leads to the base word that has the row of the extension. -/
theorem successor (hT : T.Closed f) {i : Nat} {b : List β} (hb : T.base[i]? = some b) {a : β}
    (ha : a ∈ T.alphabet) : ∃ j b', T.hypothesis.successor i a = some j ∧ T.base[j]? = some b' ∧
      T.cells f b' = T.cells f (b ++ [a]) := by
  have hmem := List.mem_of_getElem? hb
  have hrow : T.row (b ++ [a]) = T.cells f (b ++ [a]) := hT.full _ (.inr ⟨b, hmem, a, ha, rfl⟩)
  have hsucc : T.hypothesis.successor i a = T.baseRows.findIdx? (· = T.cells f (b ++ [a])) := by
    rw [hT.hypothesis_eq, Acceptor.successor, getElem?_states, hb, Option.map_some,
      Option.bind_some, stateOf, AssocMap.get?_ofKeys, if_pos ha, WordMap.get?_positions, hrow]
  obtain ⟨b', hb', hcells⟩ := hT.closed b hmem a ha
  cases hj : T.baseRows.findIdx? (· = T.cells f (b ++ [a])) with
  | none =>
    rw [List.findIdx?_eq_none_iff] at hj
    have := hj (T.row b') (List.mem_map_of_mem hb')
    rw [hT.full b' (.inl hb'), hcells, decide_eq_false_iff_not] at this
    exact absurd rfl this
  | some j =>
    obtain ⟨hlt, hrow', _⟩ := List.findIdx?_eq_some_iff_getElem.1 hj
    have hlt' : j < T.base.length := by simpa [baseRows] using hlt
    refine ⟨j, T.base[j], hsucc.trans hj, List.getElem?_eq_getElem hlt', ?_⟩
    rw [← hT.full _ (.inl (List.getElem_mem hlt'))]
    simpa [baseRows] using hrow'

theorem successor_of_not_mem (hT : T.Closed f) {a : β} (ha : a ∉ T.alphabet) (i : Nat) :
    T.hypothesis.successor i a = none := by
  rw [hT.hypothesis_eq, Acceptor.successor, getElem?_states]
  cases T.base[i]? with
  | none => rfl
  | some b =>
    rw [Option.map_some, Option.bind_some, stateOf, AssocMap.get?_ofKeys, if_neg ha]

theorem isTotal (hT : T.Closed f) {symbols : List β} (h : symbols ⊆ T.alphabet) :
    T.hypothesis.isTotal symbols = true := by
  refine Acceptor.isTotal_iff.2 fun i hi a ha => ?_
  obtain ⟨b, hb⟩ := hT.exists_base hi
  obtain ⟨j, _, hj, _⟩ := hT.successor hb (h ha)
  exact ⟨j, hj⟩

/-! ## Runs -/

theorem reachedFrom (hT : T.Closed f) {i : Nat} {b w : List β} (hb : T.base[i]? = some b)
    (hw : w ⊆ T.alphabet) :
    ∃ j b', T.hypothesis.reachedFrom i w = some j ∧ T.base[j]? = some b' := by
  induction w generalizing i b with
  | nil => exact ⟨i, b, rfl, hb⟩
  | cons a w ih =>
    obtain ⟨ha, hw⟩ := List.cons_subset.1 hw
    obtain ⟨j, b', hj, hb', _⟩ := hT.successor hb ha
    obtain ⟨k, b'', hk, hb''⟩ := ih hb' hw
    exact ⟨k, b'', by rw [Acceptor.reachedFrom, hj]; exact hk, hb''⟩

theorem getElem?_of_reached (hT : T.Closed f) {w : List β} {j : Nat}
    (hj : T.hypothesis.reached w = some j) : ∃ b, T.base[j]? = some b := by
  have hlt : j < T.base.length := by
    rw [← hT.size_hypothesis]
    rw [Acceptor.reached, hT.start_hypothesis, Option.bind_some] at hj
    have hpos : 0 < T.hypothesis.size := T.hypothesis.start_lt 0 hT.start_hypothesis
    clear hT
    generalize 0 = i at hj hpos
    induction w generalizing i with
    | nil => exact Option.some.inj hj ▸ hpos
    | cons a w ih =>
      obtain ⟨k, hk, hj⟩ := Option.bind_eq_some_iff.1 hj
      exact ih k hj (Acceptor.successor_lt hk)
  exact ⟨T.base[j], List.getElem?_eq_getElem hlt⟩

/-- A base word leads to its own state. -/
theorem reached_base (hT : T.Closed f) {i : Nat} {b : List β} (hb : T.base[i]? = some b) :
    T.hypothesis.reached b = some i := by
  induction b using List.reverseRecOn generalizing i with
  | nil =>
    rw [hT.index_eq hb hT.getElem?_base_zero rfl, Acceptor.reached, hT.start_hypothesis]
    rfl
  | append_singleton b a ih =>
    have hmem := List.mem_of_getElem? hb
    obtain ⟨k, hk⟩ := List.getElem?_of_mem (hT.base_prefix b a hmem)
    have ha : a ∈ T.alphabet := hT.base_subset _ hmem (by simp)
    obtain ⟨j, b', hj, hb', hcells⟩ := hT.successor hk ha
    rw [Acceptor.reached_append_singleton (ih hk), hj, hT.index_eq hb hb' hcells.symm]

/-- The word of a row leads to the state of the base word that has the same row. -/
theorem reached_row (hT : T.Closed f) {w : List β} (hw : T.IsRow w) :
    ∃ i b, T.hypothesis.reached w = some i ∧ T.base[i]? = some b ∧ T.cells f b = T.cells f w := by
  rcases hw with hw | ⟨b, hb, a, ha, rfl⟩
  · obtain ⟨i, hi⟩ := List.getElem?_of_mem hw
    exact ⟨i, w, hT.reached_base hi, hi, rfl⟩
  · obtain ⟨i, hi⟩ := List.getElem?_of_mem hb
    obtain ⟨j, b', hj, hb', hcells⟩ := hT.successor hi ha
    refine ⟨j, b', ?_, hb', hcells⟩
    rw [Acceptor.reached_append_singleton (hT.reached_base hi), hj]

theorem representative_eq {w b : List β} {i : Nat} (hi : T.hypothesis.reached w = some i)
    (hb : T.base[i]? = some b) : T.representative w = b := by
  rw [representative, hi, Option.bind_some, hb]
  rfl

/-- A word is represented by the base word of its state. -/
theorem getElem?_representative (hT : T.Closed f) {w : List β} {i : Nat}
    (hi : T.hypothesis.reached w = some i) : T.base[i]? = some (T.representative w) := by
  obtain ⟨b, hb⟩ := hT.getElem?_of_reached hi
  rw [representative_eq hi hb, hb]

theorem representative_mem (hT : T.Closed f) {w : List β} {i : Nat}
    (hi : T.hypothesis.reached w = some i) : T.representative w ∈ T.base :=
  List.mem_of_getElem? (hT.getElem?_representative hi)

/-- The verdict on a word that is one symbol longer. -/
theorem accepts_append_singleton (hT : T.Closed f) {v : List β} {i : Nat}
    (hv : T.hypothesis.reachedFrom 0 v = some i) (a : β) :
    T.hypothesis.accepts (v ++ [a]) =
      (T.hypothesis.successor i a).any T.hypothesis.isAccepting := by
  rw [Acceptor.accepts, Acceptor.reached, hT.start_hypothesis, Option.bind_some,
    Acceptor.reachedFrom_append, hv, Option.bind_some, Acceptor.reachedFrom]
  cases T.hypothesis.successor i a <;> rfl

/-- From the state of a base word an experiment is judged as behind the base word. -/
theorem acceptsFrom_eq (hT : T.Closed f) {i : Nat} {b e : List β} (hb : T.base[i]? = some b)
    (he : e ∈ T.experiments) (hsub : e ⊆ T.alphabet) :
    T.hypothesis.acceptsFrom i e = f (b ++ e) := by
  induction e generalizing i b with
  | nil =>
    rw [List.append_nil]
    exact hT.isAccepting hb
  | cons a e ih =>
    obtain ⟨ha, hsub⟩ := List.cons_subset.1 hsub
    obtain ⟨j, b', hj, hb', hcells⟩ := hT.successor hb ha
    have he' := hT.experiments_suffix a e he
    have hcell : f (b' ++ e) = f (b ++ [a] ++ e) := List.map_inj_left.1 hcells e he'
    rw [Acceptor.acceptsFrom, Acceptor.reachedFrom, hj, Option.bind_some]
    change T.hypothesis.acceptsFrom j e = _
    rw [ih hb' he' hsub, hcell, List.append_assoc]
    rfl

theorem accepts_append (hT : T.Closed f) {w e : List β} (hw : T.IsRow w)
    (he : e ∈ T.experiments) (hsub : e ⊆ T.alphabet) : T.hypothesis.accepts (w ++ e) = f (w ++ e) := by
  obtain ⟨i, b, hi, hb, hcells⟩ := hT.reached_row hw
  have hcell : f (b ++ e) = f (w ++ e) := List.map_inj_left.1 hcells e he
  rw [Acceptor.accepts, Acceptor.reached_append, hi, Option.bind_some, ← hcell]
  exact hT.acceptsFrom_eq hb he hsub

theorem accepts_experiment (hT : T.Closed f) {e : List β} (he : e ∈ T.experiments)
    (hsub : e ⊆ T.alphabet) : T.hypothesis.accepts e = f e :=
  hT.accepts_append (.inl (List.mem_of_mem_head? hT.base_head)) he hsub

/-- The base words reach all states, and the experiments tell them apart. -/
theorem reduced (hT : T.Closed f) (hE : ∀ e ∈ T.experiments, e ⊆ T.alphabet) :
    T.hypothesis.Reduced T.alphabet where
  reached i hi := by
    obtain ⟨b, hb⟩ := hT.exists_base hi
    exact ⟨b, hT.base_subset b (List.mem_of_getElem? hb), hT.reached_base hb⟩
  separated i hi j hj hne := by
    obtain ⟨b, hb⟩ := hT.exists_base hi
    obtain ⟨c, hc⟩ := hT.exists_base hj
    have hcells : T.cells f b ≠ T.cells f c := fun heq => hne (hT.index_eq hb hc heq)
    obtain ⟨e, he, hcell⟩ := exists_of_cells_ne hcells
    refine ⟨e, hE e he, ?_⟩
    rwa [hT.acceptsFrom_eq hb he (hE e he), hT.acceptsFrom_eq hc he (hE e he)]

end Closed

end BehavioralAutomata.ObservationTable
