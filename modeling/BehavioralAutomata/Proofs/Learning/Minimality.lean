import BehavioralAutomata.Proofs.Learning.TableRefinement
import BehavioralAutomata.Proofs.Outcomes
import Mathlib.Order.Bounds.Basic

/-!
# Tables of recognised languages

A table asks about a language that some total acceptor `D` recognises, and is refined with words that have
their true labels.

* `ObservationTable.Learned`: the tables that come about in this way.
* `ObservationTable.Recognised`: what holds of all of them.
* `ObservationTable.minimal_of_recognises`: no table has more base words than `D` has states, so that the
  number of rounds and of successful refinements is limited by it as well; and as soon as there is no
  counterexample, the hypothesis is an acceptor of the least size.
-/

namespace BehavioralAutomata

variable {β : Type} [DecidableEq β] {f : List β → Bool} {symbols : List β}

namespace ObservationTable

/-- The verdicts of `f` if symbols that are not in the alphabet are skipped. -/
def skipping (f : List β → Bool) (symbols : List β) (w : List β) : Bool :=
  f (w.filter (· ∈ symbols))

theorem skipping_eq {w : List β} (hw : w ⊆ symbols) : skipping f symbols w = f w := by
  rw [skipping, List.filter_eq_self.2 fun a ha => decide_eq_true (hw ha)]

theorem filter_subset (symbols w : List β) : w.filter (· ∈ symbols) ⊆ symbols := fun _ ha =>
  of_decide_eq_true (List.mem_filter.1 ha).2

end ObservationTable

open ObservationTable

/-- A language does not tell more words apart than its acceptor has states. -/
theorem Acceptor.Recognises.bounded {D : Acceptor β} (hD : D.Recognises symbols f) :
    Bounded (skipping f symbols) D.size := by
  have hlen : ((List.range D.size).map some).length = D.size := by
    rw [List.length_map, List.length_range]
  rw [← hlen]
  have hmem : ∀ w : List β, D.reached (w.filter (· ∈ symbols)) ∈ (List.range D.size).map some := by
    intro w
    obtain ⟨q, hq, hreach⟩ := hD.exists_reached (filter_subset symbols w)
    rw [hreach]
    exact List.mem_map_of_mem (List.mem_range.2 hq)
  refine .of_states hmem fun u v huv e => ?_
  rw [skipping, skipping, List.filter_append, List.filter_append]
  exact hD.append_eq (filter_subset ..) (filter_subset ..) (filter_subset ..) huv

namespace ObservationTable

variable {ask : List β → Id Bool} {limit n : Nat} {T U : ObservationTable β}

theorem Tells.skipping (h : Tells ask f symbols) : Tells ask (skipping f symbols) symbols :=
  fun w hw => by rw [h w hw, skipping_eq hw]

/-- `n` rounds suffice to close the table. -/
def ClosesWithin (ask : List β → Id Bool) (n : Nat) (T : ObservationTable β) : Prop :=
  ∃ U, T.closeWithin ask n ∅ T.base T.words = pure U

/-- The tables that a first one becomes when it is refined with words that are labelled by `f`, with the
number of the refinements that have found further states. -/
inductive Learned (ask : List β → Id Bool) (f : List β → Bool) (symbols : List β) (limit : Nat) :
    Nat → ObservationTable β → Prop where
  | start {T : ObservationTable β} :
      (ofAlphabet symbols limit).close ask = pure T → Learned ask f symbols limit 0 T
  | refine {n : Nat} {T U : ObservationTable β} {q : LabelledWord β} {changed : Bool} :
      Learned ask f symbols limit n T → q.word ⊆ symbols → q.accepted = f q.word →
      T.refine ask q = pure (changed, U) → Learned ask f symbols limit (n + changed.toNat) U

/-- A closed table over an alphabet, behind `n` refinements that have found further states. -/
structure Recognised (f : List β → Bool) (symbols : List β) (limit n : Nat)
    (T : ObservationTable β) : Prop where
  closed : T.Closed (skipping f symbols)
  mem_alphabet : ∀ a, a ∈ T.alphabet ↔ a ∈ symbols
  experiments_subset : ∀ e ∈ T.experiments, e ⊆ T.alphabet
  limit : T.limit = limit
  count_lt : n < T.base.length

theorem Shaped.exists_closeWithin {k : Nat} (hT : T.Shaped f)
    (hask : Told ask f T.alphabet T.experiments) (hf : Bounded f k) (hk : k ≤ n) :
    ∃ U, T.closeWithin ask n ∅ T.base T.words = pure U := by
  rcases closeWithin_cases (.start hT) hask with ⟨U, hU, _⟩ | ⟨_, hlong⟩
  · exact ⟨U, hU⟩
  · have hpos := List.length_pos_of_mem (List.mem_of_head? hT.base_head)
    have hle := hlong k hf
    omega

/-! ## What holds of all tables -/

namespace Recognised

variable {q : LabelledWord β}

theorem subset_alphabet (hT : T.Recognised f symbols limit n) {w : List β} (hw : w ⊆ symbols) :
    w ⊆ T.alphabet := fun a ha => (hT.mem_alphabet a).2 (hw ha)

theorem alphabet_subset (hT : T.Recognised f symbols limit n) : T.alphabet ⊆ symbols :=
  fun a ha => (hT.mem_alphabet a).1 ha

variable (hask : Tells ask f symbols)

include hask

theorem told (hT : T.Recognised f symbols limit n) (hq : q.word ⊆ symbols) :
    Told ask (skipping f symbols) T.alphabet (T.addExperiments q.word).experiments := by
  have htells : Tells ask (skipping f symbols) T.alphabet := fun w hw =>
    hask.skipping w (List.Subset.trans hw hT.alphabet_subset)
  refine htells.told fun e he => ?_
  rcases mem_experiments_addExperiments.1 he with he | he
  · exact hT.experiments_subset e he
  · exact List.Subset.trans (suffix_of_mem_suffixes he).subset (hT.subset_alphabet hq)

theorem start (h : (ofAlphabet symbols limit).close ask = pure T) :
    T.Recognised f symbols limit 0 := by
  rcases start_cases limit hask.skipping with ⟨U, hU, hclosed, hA, hE, hlimit⟩ | ⟨hthrow, _⟩
  · obtain rfl : U = T := Except.ok.inj (hU.symm.trans h)
    refine ⟨hclosed, fun a => hA ▸ List.mem_eraseDups, fun e he => ?_, hlimit, ?_⟩
    · rw [hE, List.mem_singleton] at he
      exact he ▸ List.nil_subset _
    · exact List.length_pos_of_mem (List.mem_of_head? hclosed.base_head)
  · cases hthrow.symm.trans h

theorem refine (hT : T.Recognised f symbols limit n) (hq : q.word ⊆ symbols) {changed : Bool}
    (h : T.refine ask q = pure (changed, U)) :
    U.Recognised f symbols limit (n + changed.toNat) := by
  by_cases hne : T.hypothesis.accepts q.word = q.accepted
  · rw [refine_of_accepts_eq hne] at h
    obtain ⟨rfl, rfl⟩ := Prod.mk.inj (Except.ok.inj h)
    exact hT
  · rcases refine_cases hT.closed (hT.told hask hq) hne with
      ⟨V, _, hV, hclosed, hgrows, hA, hE⟩ | ⟨hthrow, _⟩
    · obtain ⟨hchanged, rfl⟩ := Prod.mk.inj (Except.ok.inj (hV.symm.trans h))
      refine ⟨hclosed, fun a => hA ▸ hT.mem_alphabet a, fun e he => ?_,
        hgrows.limit.trans hT.limit, ?_⟩
      · rw [hA]
        rcases (hE e).1 he with he | he
        · exact hT.experiments_subset e he
        · exact List.Subset.trans he.subset (hT.subset_alphabet hq)
      · have hlt := hT.count_lt
        have hle := hgrows.base.length_le
        cases changed with
        | true =>
          have := of_decide_eq_true hchanged
          change n + 1 < _
          omega
        | false => exact Nat.lt_of_lt_of_le hlt hle
    · cases hthrow.symm.trans h

end Recognised

theorem Learned.recognised (hask : Tells ask f symbols) (h : Learned ask f symbols limit n T) :
    T.Recognised f symbols limit n := by
  induction h with
  | start h => exact .start hask h
  | refine _ hq _ h ih => exact ih.refine hask hq h

/-! ## What that says of the hypothesis -/

namespace Recognised

variable {D : Acceptor β}

theorem size_le (hT : T.Recognised f symbols limit n) (hD : D.Recognises symbols f) :
    T.hypothesis.size ≤ D.size := by
  rw [hT.closed.size_hypothesis]
  exact hT.closed.length_base_le hD.bounded

theorem reduced (hT : T.Recognised f symbols limit n) : T.hypothesis.Reduced symbols :=
  (hT.closed.reduced hT.experiments_subset).mono hT.alphabet_subset

/-- A hypothesis without counterexamples is an acceptor for the language. -/
theorem recognises (hT : T.Recognised f symbols limit n)
    (h : ∀ w, w ⊆ symbols → T.hypothesis.accepts w = f w) : T.hypothesis.Recognises symbols f where
  total := hT.closed.isTotal (hT.subset_alphabet (List.Subset.refl symbols))
  start := by rw [hT.closed.start_hypothesis]; rfl
  accepts := h

end Recognised

/-- What learning a language costs that is recognised by an acceptor `D`, and what it ends with. -/
theorem minimal_of_recognises {D : Acceptor β} (hD : D.Recognises symbols f)
    (hask : Tells ask f symbols) (limit : Nat) :
    (ofAlphabet symbols limit).ClosesWithin ask D.size ∧
    (D.size ≤ limit → ∃ T, (ofAlphabet symbols limit).close ask = pure T) ∧
    ∀ n T, Learned ask f symbols limit n T →
      T.hypothesis.size ≤ D.size ∧ T.hypothesis.Reduced symbols ∧ n < D.size ∧
      (∀ q : LabelledWord β, q.word ⊆ symbols → q.accepted = f q.word →
        (T.hypothesis.accepts q.word ≠ q.accepted →
          (T.addExperiments q.word).ClosesWithin ask D.size) ∧
        (D.size ≤ limit → ∃ r, T.refine ask q = pure r)) ∧
      ((∀ w, w ⊆ symbols → T.hypothesis.accepts w = f w) →
        IsLeast {k | ∃ E : Acceptor β, E.Recognises symbols f ∧ E.size = k} T.hypothesis.size) := by
  have hfirst := shaped_ofAlphabet (skipping f symbols) symbols limit
  have htold := hask.skipping.told_ofAlphabet limit
  refine ⟨hfirst.exists_closeWithin htold hD.bounded (Nat.le_refl _),
    hfirst.exists_closeWithin htold hD.bounded, fun n T hlearned => ?_⟩
  have hT := hlearned.recognised hask
  refine ⟨hT.size_le hD, hT.reduced, ?_, fun q hq _ => ⟨fun _ => ?_, fun hlimit => ?_⟩, fun h => ?_⟩
  · exact Nat.lt_of_lt_of_le hT.count_lt (hT.closed.length_base_le hD.bounded)
  · exact (hT.closed.toShaped.addExperiments q.word).exists_closeWithin (hT.told hask hq) hD.bounded
      (Nat.le_refl _)
  · by_cases hne : T.hypothesis.accepts q.word = q.accepted
    · exact ⟨(false, T), by rw [ObservationTable.refine, if_pos hne]⟩
    · rcases refine_cases hT.closed (hT.told hask hq) hne with ⟨U, _, hU, _⟩ | ⟨_, hbounded⟩
      · exact ⟨_, hU⟩
      · rw [hT.limit] at hbounded
        exact absurd (hD.bounded.mono hlimit) hbounded
  · refine ⟨⟨T.hypothesis, hT.recognises h, rfl⟩, ?_⟩
    rintro k ⟨E, hE, rfl⟩
    exact hT.size_le hE

/-- The acceptor of the words over `a` whose length is a multiple of three. -/
def tripleAcceptor : Acceptor Char where
  states := #[⟨true, .ofList [('a', 1)]⟩, ⟨false, .ofList [('a', 2)]⟩, ⟨false, .ofList [('a', 0)]⟩]
  start := some 0
  target_lt := by decide
  start_lt := by decide

/-- The first table has two states, and one counterexample brings the third. -/
theorem minimal_tripleAcceptor :
    ∃ T, Learned (pure ∘ tripleAcceptor.accepts) tripleAcceptor.accepts ['a'] 3 1 T ∧
      T.hypothesis = tripleAcceptor ∧
      IsLeast {k | ∃ E : Acceptor Char, E.Recognises ['a'] tripleAcceptor.accepts ∧ E.size = k}
        3 := by
  have hrun : ((ofAlphabet ['a'] 3).close (m := Id) (pure ∘ tripleAcceptor.accepts) >>= fun T =>
      T.refine (pure ∘ tripleAcceptor.accepts) ⟨['a', 'a', 'a'], true⟩).run.run.map
        (fun r => (r.1, r.2.hypothesis)) = .ok (true, tripleAcceptor) := by decide +kernel
  obtain ⟨⟨b, T⟩, hrun, heq⟩ := exists_of_map_eq_ok hrun
  obtain ⟨rfl, hT⟩ := Prod.mk.inj heq
  obtain ⟨T₁, hclose, hrefine⟩ := exists_of_bind_eq_pure hrun
  have hlearned : Learned (pure ∘ tripleAcceptor.accepts) tripleAcceptor.accepts ['a'] 3 1 T :=
    .refine (.start hclose) (by decide) (by decide) hrefine
  have hD : tripleAcceptor.Recognises ['a'] tripleAcceptor.accepts :=
    ⟨by decide +kernel, rfl, fun _ _ => rfl⟩
  have hask : Tells (m := Id) (pure ∘ tripleAcceptor.accepts) tripleAcceptor.accepts ['a'] :=
    fun _ _ => rfl
  obtain ⟨_, _, hall⟩ := minimal_of_recognises hD hask 3
  obtain ⟨_, _, _, _, hleast⟩ := hall 1 T hlearned
  have hagrees := hleast fun w _ => congrArg (Acceptor.accepts · w) hT
  rw [hT] at hagrees
  exact ⟨T, hlearned, hT, hagrees⟩

end ObservationTable

end BehavioralAutomata
