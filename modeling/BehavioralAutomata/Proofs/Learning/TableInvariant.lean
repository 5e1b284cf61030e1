import BehavioralAutomata.Proofs.Learning.CheckedClosing
import BehavioralAutomata.Proofs.Learning.Inquiries

/-!
# The table invariant

The operations are carried out behind one oracle, which may have a state of its own and may answer a word
differently at different times.

* `ObservationTable.Tabulated`: what a closing leaves behind.
* `ObservationTable.GivenBy`: the answers that a table has recorded were given by its oracle.
* `ObservationTable.Tended`: what holds at all times, `Tended.operation` for one operation and `Tended.history`
  for many.
* `ObservationTable.tabulated_of_closes`: every operation that closes a table leaves it tabulated, and no
  operation ever looks for a row in vain, finds one too long or misses the base word of an extension.
-/

namespace BehavioralAutomata.ObservationTable

open Relation (ReflTransGen)
open Yielding

variable {β : Type} [DecidableEq β] {f : List β → Bool} {T U : ObservationTable β}

/-! ## Tables behind a closing -/

/-- What a closing leaves behind. Every row has one cell for each experiment, and in it the recorded answer to
the word of the row followed by the experiment. -/
structure Tabulated (T : ObservationTable β) : Prop where
  base_head : T.base.head? = some []
  base_nodup : T.base.Nodup
  base_prefix : ∀ w ∈ T.base, ∀ u, u <+: w → u ∈ T.base
  experiments_head : T.experiments.head? = some []
  experiments_nodup : T.experiments.Nodup
  experiments_suffix : ∀ e ∈ T.experiments, ∀ d, d <:+ e → d ∈ T.experiments
  cells : ∀ w, T.IsRow w → ∃ r, T.rows.get? w = some r ∧
    List.Forall₂ (fun e b => T.answers.get? (w ++ e) = some b) T.experiments r
  distinct : ∀ u ∈ T.base, ∀ v ∈ T.base, u ≠ v → T.rows.get? u ≠ T.rows.get? v
  closed : ∀ b ∈ T.base, ∀ a ∈ T.alphabet, ∃ b' ∈ T.base, T.rows.get? b' = T.rows.get? (b ++ [a])

theorem Shaped.mem_base_of_prefix (hT : T.Shaped f) {u w : List β} (hw : w ∈ T.base) (h : u <+: w) :
    u ∈ T.base := by
  obtain ⟨v, rfl⟩ := h
  induction v using List.reverseRecOn with
  | nil => rwa [List.append_nil] at hw
  | append_singleton v a ih =>
    rw [← List.append_assoc] at hw
    exact ih (hT.base_prefix _ a hw)

theorem Shaped.mem_experiments_of_suffix (hT : T.Shaped f) {d e : List β} (he : e ∈ T.experiments)
    (h : d <:+ e) : d ∈ T.experiments := by
  obtain ⟨v, rfl⟩ := h
  induction v with
  | nil => exact he
  | cons a v ih => exact ih (hT.experiments_suffix a _ he)

/-- A filled table has a recorded answer for every cell, so that the cells are known without a language. -/
theorem Consistent.tabulated (hT : T.Consistent) (hfilled : T.isFilled = true)
    (hE : T.experiments.Nodup) : T.Tabulated := by
  obtain ⟨f, hf⟩ := TrueAnswers.exists T.answers
  have hclosed := hT.faithful hfilled f hf
  have hrow : ∀ {w}, T.IsRow w → T.rows.get? w = some (T.cells f w) := hclosed.get?_rows
  refine {
    base_head := hclosed.base_head
    base_nodup := hclosed.nodup_base
    base_prefix := fun w hw u hu => hclosed.mem_base_of_prefix hw hu
    experiments_head := hclosed.experiments_head
    experiments_nodup := hE
    experiments_suffix := fun e he d hd => hclosed.mem_experiments_of_suffix he hd
    cells := fun w hw => ⟨_, hrow hw, ?_⟩
    distinct := fun u hu v hv hne heq => ?_
    closed := fun b hb a ha => ?_ }
  · rw [ObservationTable.cells, List.forall₂_map_right_iff, List.forall₂_same]
    intro e he
    have hknown := Answers.mem_words_iff.1 (hT.mem_words hfilled hw he)
    obtain ⟨b, hb⟩ := Option.isSome_iff_exists.1 hknown
    rw [hb, hf _ b hb]
  · rw [hrow (.inl hu), hrow (.inl hv)] at heq
    obtain ⟨i, hi⟩ := List.getElem?_of_mem hu
    obtain ⟨j, hj⟩ := List.getElem?_of_mem hv
    obtain rfl := hclosed.index_eq hi hj (Option.some.inj heq)
    exact hne (Option.some.inj (hi.symm.trans hj))
  · obtain ⟨b', hb', hcells⟩ := hclosed.closed b hb a ha
    exact ⟨b', hb', by rw [hrow (.inl hb'), hrow (.inr ⟨b, hb, a, ha, rfl⟩), hcells]⟩

/-! ## Answers of the oracle -/

section

variable {m : Type → Type} [Monad m] [Yielding m] {ask : List β → m Bool} {K K' : Answers β}
  {w : List β}

/-- The recorded answers are answers that the oracle may give. -/
def GivenBy (ask : List β → m Bool) (K : Answers β) : Prop :=
  ∀ w b, K.get? w = some b → Yields (ask w) b

namespace GivenBy

theorem empty (ask : List β → m Bool) : GivenBy ask ∅ := fun w b h => by simp at h

theorem insert (hK : GivenBy ask K) {b : Bool} (h : Yields (ask w) b) :
    GivenBy ask (K.insert w b) := by
  intro u c hu
  rw [Answers.get?_insert] at hu
  split at hu
  · next heq =>
    cases hu
    exact heq ▸ h
  · exact hK u c hu

theorem answer (hK : GivenBy ask K) {b : Bool}
    (h : Yields (ObservationTable.answer ask K w) (b, K')) : GivenBy ask K' := by
  rw [ObservationTable.answer] at h
  split at h
  · obtain ⟨_, rfl⟩ := Prod.mk.inj (eq_of_pure h)
    exact hK
  · obtain ⟨c, hc, h⟩ := exists_of_bind h
    obtain ⟨_, rfl⟩ := Prod.mk.inj (eq_of_pure h)
    exact hK.insert hc

theorem fillCells {es : List (List β)} {cs r : List Bool} (hK : GivenBy ask K)
    (h : Yields (ObservationTable.fillCells ask w es cs K) (r, K')) : GivenBy ask K' := by
  induction es generalizing cs K with
  | nil =>
    obtain ⟨_, rfl⟩ := Prod.mk.inj (eq_of_pure h)
    exact hK
  | cons e es ih =>
    obtain ⟨⟨b, K₁⟩, hanswer, h⟩ := exists_of_bind h
    exact ih (hK.answer hanswer) h

theorem fillRow (hT : GivenBy ask T.answers) (h : Yields (ObservationTable.fillRow ask T w) U) :
    GivenBy ask U.answers := by
  rw [ObservationTable.fillRow] at h
  split at h
  · obtain rfl := eq_of_pure h
    exact hT
  · obtain ⟨⟨r, K⟩, hcells, h⟩ := exists_of_bind h
    obtain rfl := eq_of_pure h
    exact hT.fillCells hcells

theorem fillRows {ws : List (List β)} (hT : GivenBy ask T.answers)
    (h : Yields (ObservationTable.fillRows ask T ws) U) : GivenBy ask U.answers := by
  induction ws generalizing T with
  | nil =>
    obtain rfl := eq_of_pure h
    exact hT
  | cons w ws ih =>
    rw [ObservationTable.fillRows, List.foldlM_cons] at h
    obtain ⟨T₁, hrow, h⟩ := exists_of_bind h
    exact ih (hT.fillRow hrow) h

variable [LawfulMonad m]

theorem closeWithin {n : Nat} {known : WordMap Bool Unit} {fresh ws : List (List β)}
    (hT : GivenBy ask T.answers)
    (h : Yields (closeWithin ask n known fresh ws T).run (.ok U)) : GivenBy ask U.answers := by
  induction n generalizing known fresh ws T with
  | zero => cases eq_of_pure h
  | succ n ih =>
    rw [ObservationTable.closeWithin] at h
    change Yields (ExceptT.lift (ObservationTable.fillRows ask T ws) >>= _).run _ at h
    rw [ExceptT.run_bind_lift] at h
    obtain ⟨T₁, hfill, h⟩ := exists_of_bind h
    have hT₁ := hT.fillRows hfill
    dsimp only at h
    split at h
    · cases eq_of_pure h
      exact hT₁
    · refine ih ?_ h
      exact hT₁

theorem operation {o : Operation β} (hT : GivenBy ask T.answers)
    (h : Yields (o.run ask T).run (.ok U)) : GivenBy ask U.answers := by
  have hprepare : GivenBy ask (o.prepare T).answers := o.answers_prepare T ▸ hT
  by_cases hc : o.Closes T
  · rw [Operation.run_of_closes hc] at h
    exact hprepare.closeWithin h
  · rw [Operation.run_of_not_closes hc] at h
    cases eq_of_pure h
    exact hprepare

end GivenBy

end

/-! ## Experiments -/

omit [DecidableEq β] in
theorem nodup_suffixes (w : List β) : (suffixes w).Nodup := by
  induction w with
  | nil => exact List.nodup_nil
  | cons a w ih =>
    refine List.nodup_cons.2 ⟨fun hmem => ?_, ih⟩
    exact Nat.not_succ_le_self _ (suffix_of_mem_suffixes hmem).length_le

theorem nodup_experiments_prepare (h : T.experiments.Nodup) (o : Operation β) :
    (o.prepare T).experiments.Nodup := by
  cases o with
  | start => exact h
  | refine q =>
    rw [Operation.prepare]
    split
    · exact h
    · refine List.nodup_append.2 ⟨h, (nodup_suffixes q.word).filter _, fun e he d hd heq => ?_⟩
      subst heq
      have hknown := (WordMap.contains_positions T.experiments e).2 he
      simp [hknown] at hd
  | grow a => rw [Operation.prepare]; split <;> exact h

/-! ## Histories behind one oracle -/

section

variable {σ : Type} {ask : List β → StateM σ Bool} {o : Operation β} {s s' : σ}

/-- One operation behind the oracle, in whatever state the oracle is by then. -/
def AskingStep (ask : List β → StateM σ Bool) (T U : ObservationTable β) : Prop :=
  ∃ (o : Operation β) (s s' : σ), (o.run ask T).run.run s = (.ok U, s')

/-- What holds of a table at all times. -/
structure Tended (ask : List β → StateM σ Bool) (T : ObservationTable β) : Prop where
  consistent : T.Consistent
  experiments_nodup : T.experiments.Nodup
  given : GivenBy ask T.answers

namespace Tended

theorem ofAlphabet (ask : List β → StateM σ Bool) (symbols : List β) (limit : Nat) :
    Tended ask (ObservationTable.ofAlphabet symbols limit) :=
  ⟨.ofAlphabet symbols limit, List.nodup_singleton [], .empty ask⟩

theorem operation (hT : Tended ask T) (h : (o.run ask T).run.run s = (.ok U, s')) :
    Tended ask U ∧ (o.Closes T → U.isFilled = true) := by
  have hyields : Yields (o.run ask T).run (.ok U) := ⟨s, s', h⟩
  rcases hT.consistent.run_outcome hyields with ⟨V, hV, _, _, hext, _⟩ | ⟨hV, _⟩
  · cases hV
    obtain ⟨hlater, hfilled⟩ := hT.consistent.run hyields
    refine ⟨⟨hlater.consistent, ?_, hT.given.operation hyields⟩, hfilled⟩
    rw [hext.experiments]
    exact nodup_experiments_prepare hT.experiments_nodup o
  · cases hV

theorem history (hT : Tended ask T) (h : ReflTransGen (AskingStep ask) T U) : Tended ask U := by
  induction h with
  | refl => exact hT
  | tail _ hstep ih =>
    obtain ⟨o, s, s', hrun⟩ := hstep
    exact (ih.operation hrun).1

end Tended

instance : Decidable (o.Closes T) :=
  match o with
  | .start => .isTrue trivial
  | .refine q => inferInstanceAs (Decidable (T.hypothesis.accepts q.word ≠ q.accepted))
  | .grow a => inferInstanceAs (Decidable (a ∉ T.alphabet ∧ T.isFilled = true))

/-- Carries the operation out, and closes with every look-up checked. -/
def Operation.runChecked {m : Type → Type} [Monad m] (ask : List β → m Bool)
    (T : ObservationTable β) (o : Operation β) : ExceptT (ClosingError β) m (ObservationTable β) :=
  if o.Closes T then (o.prepare T).closeChecked ask else return o.prepare T

theorem Consistent.runChecked_eq (hT : T.Consistent) (ask : List β → StateM σ Bool)
    (o : Operation β) : o.runChecked ask T = ExceptT.adapt .limit (o.run ask T) := by
  rw [Operation.runChecked]
  split
  · next hc =>
    rw [Operation.run_of_closes hc]
    refine closeChecked_eq (fun f hf => ?_) ask
    rw [Operation.answers_prepare] at hf
    exact (hT f hf).shaped.prepare o
  · next hc =>
    rw [Operation.run_of_not_closes hc]
    rfl

/-- After whatever operations that have not failed: no operation comes upon a row that is not there, that has
more cells than there are experiments or that belongs to no base word; only the limit can make it fail. And if
it closes the table, the table is tabulated then, with answers that the oracle has given. -/
theorem tabulated_of_closes {symbols : List β} {limit : Nat}
    (hT : ReflTransGen (AskingStep ask) (ofAlphabet symbols limit) T) (o : Operation β) :
    o.runChecked ask T = ExceptT.adapt .limit (o.run ask T) ∧
    (o.Closes T → ∀ U s s', (o.run ask T).run.run s = (.ok U, s') →
      U.Tabulated ∧ ∀ w b, U.answers.get? w = some b → ∃ t t', (ask w).run t = (b, t')) := by
  have htended := (Tended.ofAlphabet ask symbols limit).history hT
  refine ⟨htended.consistent.runChecked_eq ask o, fun hcloses U s s' hrun => ?_⟩
  obtain ⟨hU, hfilled⟩ := htended.operation hrun
  exact ⟨hU.consistent.tabulated (hfilled hcloses) hU.experiments_nodup, hU.given⟩

end

/-- A table that is started, refined and given a further symbol, behind an oracle that says yes and no in turn. -/
theorem tabulated_alternating : ∃ (T U : ObservationTable Char) (s s' : Nat),
    ReflTransGen (AskingStep alternating) (ofAlphabet ['a'] 8) T ∧
      ((Operation.grow 'b').runChecked alternating T).run.run s = (.ok U, s') ∧
      U.experiments = [[], ['a', 'a', 'a'], ['a', 'a'], ['a']] ∧ U.Tabulated := by
  have hrun : ((do
      let T₁ ← Operation.start.run alternating (ofAlphabet ['a'] 8)
      let T ← (Operation.refine ⟨['a', 'a', 'a'], true⟩).run alternating T₁
      let U ← (Operation.grow 'b').run alternating T
      return (T, U) : ExceptT LimitExceeded (StateM Nat) (_ × _)).run.run 0).1.map
        (fun x => decide ((Operation.grow 'b').Closes x.1 ∧
          x.2.experiments = [[], ['a', 'a', 'a'], ['a', 'a'], ['a']])) = .ok true := by
    decide +kernel
  generalize hx : StateT.run (ExceptT.run _) 0 = x at hrun
  obtain ⟨r, s'⟩ := x
  obtain ⟨⟨T, U⟩, rfl, hTU⟩ := exists_of_map_eq_ok hrun
  obtain ⟨hcloses, hexperiments⟩ := of_decide_eq_true hTU
  obtain ⟨T₁, s₁, hstart, hx⟩ := exists_of_run_bind_eq_ok hx
  obtain ⟨T₂, s₂, hrefine, hx⟩ := exists_of_run_bind_eq_ok hx
  obtain ⟨U₂, s₃, hgrow, hx⟩ := exists_of_run_bind_eq_ok hx
  cases hx
  have hT : ReflTransGen (AskingStep alternating) (ofAlphabet ['a'] 8) T :=
    (ReflTransGen.single ⟨.start, 0, s₁, hstart⟩).tail
      ⟨.refine ⟨['a', 'a', 'a'], true⟩, s₁, s₂, hrefine⟩
  obtain ⟨hchecked, htabulated⟩ := tabulated_of_closes hT (.grow 'b')
  refine ⟨T, U, s₂, s', hT, ?_, hexperiments, (htabulated hcloses U s₂ s' hgrow).1⟩
  rw [hchecked]
  change (Except.mapError _ <$> ((Operation.grow 'b').run alternating T).run).run s₂ = _
  rw [StateT.run_map, hgrow]
  rfl

end BehavioralAutomata.ObservationTable
