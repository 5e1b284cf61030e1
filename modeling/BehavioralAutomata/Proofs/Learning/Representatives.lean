import BehavioralAutomata.Proofs.Learning.StartedTables

/-!
# Representatives of words

* `ObservationTable.Closed.perm_representatives`: the words of a state cover are represented by the base
  words, each of them once.
* `ObservationTable.StartedBy.representative_spec`: every word is represented by the base word of its
  state, behind any oracle.
-/

namespace BehavioralAutomata.ObservationTable

variable {β : Type} [DecidableEq β] {f : List β → Bool} {T : ObservationTable β}
  {symbols : List β} {limit : Nat}

namespace Closed

theorem reached_representative (hT : T.Closed f) {w : List β} {i : Nat}
    (hi : T.hypothesis.reached w = some i) : T.hypothesis.reached (T.representative w) = some i :=
  hT.reached_base (hT.getElem?_representative hi)

theorem exists_reached (hT : T.Closed f) {w : List β} (hw : w ⊆ T.alphabet) :
    ∃ i, T.hypothesis.reached w = some i := by
  obtain ⟨i, _, hi, _⟩ := hT.reachedFrom hT.getElem?_base_zero hw
  rw [Acceptor.reached, hT.start_hypothesis]
  exact ⟨i, hi⟩

/-- Two words have one representative exactly if they lead to one state. -/
theorem representative_eq_iff (hT : T.Closed f) {u v : List β} {i j : Nat}
    (hi : T.hypothesis.reached u = some i) (hj : T.hypothesis.reached v = some j) :
    T.representative u = T.representative v ↔ i = j := by
  have hu := hT.getElem?_representative hi
  have hv := hT.getElem?_representative hj
  constructor
  · intro h
    exact hT.index_eq hu hv (congrArg _ h)
  · rintro rfl
    exact Option.some.inj (hu.symm.trans hv)

/-- A word that leads nowhere is its own representative. -/
theorem representative_representative (hT : T.Closed f) (w : List β) :
    T.representative (T.representative w) = T.representative w := by
  cases hw : T.hypothesis.reached w with
  | some i => exact representative_eq (hT.reached_representative hw) (hT.getElem?_representative hw)
  | none =>
    have hself : T.representative w = w := by rw [representative, hw]; rfl
    rw [hself, hself]

/-- The words of a state cover lead to different states, so that no two have one representative, and they
lead to all of them. -/
theorem perm_representatives (hT : T.Closed f) {letters : List β} (h : T.alphabet ⊆ letters) :
    ((T.hypothesis.stateCover letters).map T.representative).Perm T.base := by
  have hnodup : ((T.hypothesis.stateCover letters).map T.representative).Nodup := by
    rw [Acceptor.stateCover, List.map_map]
    refine List.pairwise_map.2 ?_
    refine (List.pairwise_map.1 (T.hypothesis.nodup_representatives letters)).imp_of_mem ?_
    intro x y hx hy hne heq
    have hx := Acceptor.reached_of_mem_representatives hx
    have hy := Acceptor.reached_of_mem_representatives hy
    exact hne ((hT.representative_eq_iff hx hy).1 heq)
  refine (List.perm_ext_iff_of_nodup hnodup hT.nodup_base).2 fun b => ?_
  constructor
  · intro hb
    obtain ⟨w, hw, rfl⟩ := List.mem_map.1 hb
    obtain ⟨i, hi⟩ := Acceptor.exists_reached_of_mem_stateCover hw
    exact hT.representative_mem hi
  · intro hb
    obtain ⟨i, hi⟩ := List.getElem?_of_mem hb
    have hsub : b ⊆ letters := List.Subset.trans (hT.base_subset b hb) h
    obtain ⟨w, hw, hreached⟩ := Acceptor.exists_mem_stateCover hsub (hT.reached_base hi)
    exact List.mem_map.2 ⟨w, hw, representative_eq hreached hi⟩

end Closed

/-- A started table represents each word by the base word of its state. The base words are the states in
their order, and a state cover over the symbols of the table or more has one word for each of them. -/
theorem StartedBy.representative_spec (hT : StartedBy OpenStep symbols limit T) :
    (∀ u, u ⊆ T.alphabet → T.representative u ∈ T.base ∧ ∃ i,
      T.hypothesis.reached u = some i ∧ T.hypothesis.reached (T.representative u) = some i) ∧
    (∀ u v, u ⊆ T.alphabet → v ⊆ T.alphabet →
      (T.representative u = T.representative v ↔
        T.hypothesis.reached u = T.hypothesis.reached v)) ∧
    (∀ u, T.representative (T.representative u) = T.representative u) ∧
    T.hypothesis.size = T.base.length ∧
    (∀ i b, T.base[i]? = some b → T.hypothesis.reached b = some i) ∧
    ∀ letters, T.alphabet ⊆ letters →
      ((T.hypothesis.stateCover letters).map T.representative).Perm T.base := by
  obtain ⟨hconsistent, _⟩ := hT.consistent Consistent.openStep
  obtain ⟨f, hf⟩ := TrueAnswers.exists T.answers
  have hclosed := hconsistent.faithful hT.isFilled f hf
  refine ⟨fun u hu => ?_, fun u v hu hv => ?_, hclosed.representative_representative,
    hclosed.size_hypothesis, fun i b => hclosed.reached_base,
    fun letters => hclosed.perm_representatives⟩
  · obtain ⟨i, hi⟩ := hclosed.exists_reached hu
    exact ⟨hclosed.representative_mem hi, i, hi, hclosed.reached_representative hi⟩
  · obtain ⟨i, hi⟩ := hclosed.exists_reached hu
    obtain ⟨j, hj⟩ := hclosed.exists_reached hv
    rw [hclosed.representative_eq_iff hi hj, hi, hj, Option.some.injEq]

/-- Behind an oracle that says yes to the empty word and to `aa`, these two words are represented by one
base word. -/
theorem representative_spec_alternating : ∃ T : ObservationTable Char,
    StartedBy OpenStep ['a'] 4 T ∧ T.representative ['a', 'a'] = T.representative [] ∧
      ((T.hypothesis.stateCover ['a', 'b']).map T.representative).Perm [[], ['a']] := by
  obtain ⟨T, hT, halphabet, _, hbase, haa⟩ := exists_startedBy_alternating
  obtain ⟨_, hiff, _, _, hreached, hcover⟩ := hT.representative_spec
  rw [halphabet] at hiff hcover
  rw [hbase] at hreached hcover
  have hnil : T.hypothesis.reached [] = some 0 := hreached 0 [] rfl
  refine ⟨T, hT, (hiff ['a', 'a'] [] ?_ ?_).2 (haa.trans hnil.symm), hcover _ ?_⟩
  · decide
  · exact List.nil_subset _
  · decide

end BehavioralAutomata.ObservationTable
