import BehavioralAutomata.Learning.Transcript
import BehavioralAutomata.Proofs.Learning.StartedTables

/-!
# What a table asks

A table may be behind any oracle, with a state of its own and answers that contradict each other. A
transcript is kept of the words that the oracle is asked.

* `ObservationTable.Transcribed`: the transcript has the words of which the table knows the answers, and each
  of them belongs to a cell. This is kept while the table is filled and closed, and by every operation.
* `ObservationTable.Exchange`: a request and the answer to it.
* `ObservationTable.Consistent.mem_words`: a table that is filled knows the answer for every cell.
* `ObservationTable.asked_once`: no word is asked twice, and none that does not belong to a cell.
-/

namespace BehavioralAutomata.ObservationTable

open Relation (ReflTransGen)

variable {β σ : Type}

/-- The oracle, with a transcript beside its state. -/
def recorded (ask : List β → StateM σ Bool) (w : List β) : StateM (Transcript β × σ) Bool :=
  modifyGet fun x =>
    let r := (ask w).run x.2
    (r.1, x.1.record w, r.2)

variable [DecidableEq β] {T U : ObservationTable β} {t t' : Transcript β}

/-- The word of a row followed by an experiment. -/
def IsCell (T : ObservationTable β) (w : List β) : Prop :=
  ∃ u e, T.IsRow u ∧ e ∈ T.experiments ∧ w = u ++ e

theorem Grows.isCell (h : T.Grows U) {w : List β} (hw : T.IsCell w) : U.IsCell w := by
  obtain ⟨u, e, hu, he, rfl⟩ := hw
  exact ⟨u, e, h.isRow hu, h.experiments.subset he, rfl⟩

/-- The words of the transcript are those of which the answers are known, and they belong to cells. -/
structure Transcribed (T : ObservationTable β) (t : Transcript β) : Prop where
  words : t.words.toList = T.answers.words
  isCell : ∀ w ∈ T.answers.words, T.IsCell w

theorem transcribed_ofAlphabet (symbols : List β) (limit : Nat) :
    Transcribed (ofAlphabet symbols limit) .empty :=
  ⟨rfl, List.forall_mem_nil _⟩

theorem Transcribed.of_grows (h : T.Transcribed t) (hgrows : T.Grows U)
    (hanswers : U.answers = T.answers) : U.Transcribed t := by
  refine ⟨hanswers ▸ h.words, fun w hw => ?_⟩
  rw [hanswers] at hw
  exact hgrows.isCell (h.isCell w hw)

/-! ## Filling -/

section

variable {ask : List β → StateM σ Bool} {K : Answers β} {s s' : σ} {w : List β}

/-- Only what is not known is asked, and then it is known. -/
theorem run_answer (ask : List β → StateM σ Bool) (h : t.words.toList = K.words) (s : σ)
    (w : List β) : ∃ b K' t' s',
      (answer (recorded ask) K w).run (t, s) = ((b, K'), t', s') ∧ t'.words.toList = K'.words ∧
        ∀ u ∈ K'.words, u = w ∨ u ∈ K.words := by
  rw [answer]
  split
  · next b hb => exact ⟨b, K, t, s, rfl, h, fun _ => .inr⟩
  · next hw =>
    have hnew : w ∉ K.words := fun hmem => by
      rw [Answers.mem_words_iff, hw] at hmem
      cases hmem
    refine ⟨_, _, _, _, rfl, ?_, fun u hu => ?_⟩
    · rw [Transcript.toList_record, Answers.words_insert, if_neg hnew, h]
    · rw [Answers.words_insert, if_neg hnew, List.mem_append, List.mem_singleton] at hu
      exact hu.symm

theorem run_fillCells (ask : List β → StateM σ Bool) (h : t.words.toList = K.words) (s : σ)
    (w : List β) (es : List (List β)) (cells : List Bool) : ∃ cells' K' t' s',
      (fillCells (recorded ask) w es cells K).run (t, s) = ((cells', K'), t', s') ∧
        t'.words.toList = K'.words ∧ ∀ u ∈ K'.words, (∃ e ∈ es, u = w ++ e) ∨ u ∈ K.words := by
  induction es generalizing cells K t s with
  | nil => exact ⟨_, K, t, s, rfl, h, fun _ => .inr⟩
  | cons e es ih =>
    obtain ⟨b, K₁, t₁, s₁, hanswer, h₁, hnew₁⟩ := run_answer ask h s (w ++ e)
    obtain ⟨cells', K', t', s', hcells, h', hnew⟩ := ih h₁ s₁ (b :: cells)
    refine ⟨cells', K', t', s', ?_, h', fun u hu => ?_⟩
    · rw [fillCells, run_bind_of_run_eq hanswer]
      exact hcells
    · rcases hnew u hu with ⟨d, hd, rfl⟩ | hu
      · exact .inl ⟨d, List.mem_cons_of_mem e hd, rfl⟩
      · exact (hnew₁ u hu).imp_left fun hu => ⟨e, List.mem_cons_self, hu⟩

namespace Transcribed

theorem run_fillRow (ask : List β → StateM σ Bool) (h : T.Transcribed t) (s : σ)
    (hw : T.IsRow w) : ∃ R K t' s',
      (fillRow (recorded ask) T w).run (t, s) = (T.withRecords R K, t', s') ∧
        (T.withRecords R K).Transcribed t' := by
  rw [fillRow]
  split
  · exact ⟨T.rows, T.answers, t, s, rfl, h⟩
  · obtain ⟨cells, K, t', s', hcells, h', hnew⟩ :=
      run_fillCells ask h.words s w (T.experiments.drop (T.row w).length) (T.row w).reverse
    refine ⟨T.rows.insert cells w, K, t', s', ?_, h', fun u hu => ?_⟩
    · rw [run_bind_of_run_eq hcells]
      rfl
    · rcases hnew u hu with ⟨e, he, rfl⟩ | hu
      · exact ⟨w, e, hw, List.mem_of_mem_drop he, rfl⟩
      · exact h.isCell u hu

theorem run_fillRows (ask : List β → StateM σ Bool) (h : T.Transcribed t) (s : σ)
    {ws : List (List β)} (hws : ∀ w ∈ ws, T.IsRow w) : ∃ R K t' s',
      (fillRows (recorded ask) T ws).run (t, s) = (T.withRecords R K, t', s') ∧
        (T.withRecords R K).Transcribed t' := by
  induction ws generalizing T t s with
  | nil => exact ⟨T.rows, T.answers, t, s, rfl, h⟩
  | cons w ws ih =>
    obtain ⟨hw, hws⟩ := List.forall_mem_cons.1 hws
    obtain ⟨R₁, K₁, t₁, s₁, hrow, h₁⟩ := h.run_fillRow ask s hw
    obtain ⟨R, K, t', s', hrows, h'⟩ := ih h₁ s₁ hws
    refine ⟨R, K, t', s', ?_, h'⟩
    rw [fillRows, List.foldlM_cons, run_bind_of_run_eq hrow]
    exact hrows

/-! ## Closing -/

theorem promote (h : T.Transcribed t) (new : List (List β)) :
    Transcribed { T with base := T.base ++ new } t :=
  h.of_grows ⟨List.prefix_rfl, List.prefix_append .., List.prefix_rfl, rfl⟩ rfl

/-- What is filled in the next round are the extensions of the words that are promoted in this one. -/
theorem closeWithin {n : Nat} {known : WordMap Bool Unit} {fresh ws : List (List β)}
    (h : T.Transcribed t) (hws : ∀ w ∈ ws, T.IsRow w)
    (hrun : (closeWithin (recorded ask) n known fresh ws T).run.run (t, s) = (.ok U, t', s')) :
    U.Transcribed t' := by
  induction n generalizing known fresh ws T t s with
  | zero => cases hrun
  | succ n ih =>
    obtain ⟨R, K, t₁, s₁, hfill, h₁⟩ := h.run_fillRows ask s hws
    rw [ObservationTable.closeWithin] at hrun
    change (ExceptT.lift (fillRows (recorded ask) T ws) >>= _).run.run (t, s) = _ at hrun
    rw [ExceptT.run_bind_lift, run_bind_of_run_eq hfill] at hrun
    dsimp only at hrun
    split at hrun
    · cases hrun
      exact ⟨h₁.words, h₁.isCell⟩
    · refine ih (h₁.promote _) (fun w hw => ?_) hrun
      obtain ⟨b, hb, a, ha, rfl⟩ := mem_extensions.1 hw
      exact .inr ⟨b, List.mem_append_right _ hb, a, ha, rfl⟩

theorem close (h : T.Transcribed t)
    (hrun : (T.close (recorded ask)).run.run (t, s) = (.ok U, t', s')) : U.Transcribed t' :=
  h.closeWithin (fun _ hw => mem_words.1 hw) hrun

end Transcribed

end

/-! ## Requests -/

/-- Every operation keeps the transcript in step with the table. -/
theorem Transcribed.operation {ask : List β → StateM σ Bool} {s s' : σ} {o : Operation β}
    (h : T.Transcribed t)
    (hrun : (o.run (recorded ask) T).run.run (t, s) = (.ok U, t', s')) : U.Transcribed t' := by
  have hprepare : (o.prepare T).Transcribed t :=
    h.of_grows (o.grows_prepare T) (o.answers_prepare T)
  by_cases hc : o.Closes T
  · rw [Operation.run_of_closes hc] at hrun
    exact hprepare.close hrun
  · rw [Operation.run_of_not_closes hc] at hrun
    cases hrun
    exact hprepare

/-- What a table can be asked for. -/
inductive Request (β : Type) where
  | operation (o : Operation β)
  | representative (w : List β)

/-- Does what is asked for. The answer to a request for a representative is a word. -/
def Request.run {m : Type → Type} [Monad m] (ask : List β → m Bool) (T : ObservationTable β) :
    Request β → ExceptT LimitExceeded m (Option (List β) × ObservationTable β)
  | operation o => do return (none, ← o.run ask T)
  | representative w => return (some (T.representative w), T)

/-- A request that does not fail, with the transcripts before and behind it. The oracle may have changed since
the last request. -/
def Exchange (x y : ObservationTable β × Transcript β) : Prop :=
  ∃ (σ : Type) (ask : List β → StateM σ Bool) (s s' : σ) (request : Request β)
    (reply : Option (List β)),
    (request.run (recorded ask) x.1).run.run (x.2, s) = (.ok (reply, y.1), y.2, s')

/-- A representative is looked up without asking. Everything else is an operation. -/
theorem exchange_cases {x y : ObservationTable β × Transcript β} (h : Exchange x y) :
    (∃ (σ : Type) (ask : List β → StateM σ Bool) (s s' : σ) (o : Operation β),
      (o.run (recorded ask) x.1).run.run (x.2, s) = (.ok y.1, y.2, s')) ∨ y = x := by
  obtain ⟨U, t'⟩ := y
  obtain ⟨σ, ask, s, s', request, reply, hrun⟩ := h
  cases request with
  | operation o =>
    obtain ⟨V, z, ho, hV⟩ := exists_of_run_bind_eq_ok hrun
    cases hV
    exact .inl ⟨σ, ask, s, s', o, ho⟩
  | representative w =>
    cases hrun
    exact .inr rfl

theorem Transcribed.exchange {x y : ObservationTable β × Transcript β} (h : x.1.Transcribed x.2)
    (hxy : Exchange x y) : y.1.Transcribed y.2 := by
  rcases exchange_cases hxy with ⟨σ, ask, s, s', o, ho⟩ | rfl
  · exact h.operation ho
  · exact h

theorem openSteps_of_exchange {x y : ObservationTable β × Transcript β} (h : Exchange x y) :
    ReflTransGen OpenStep x.1 y.1 := by
  rcases exchange_cases h with ⟨σ, ask, s, s', o, ho⟩ | rfl
  · exact .single ⟨_, recorded ask, _, _, o, ho⟩
  · exact .refl

/-- One request after the other. -/
def Request.runAll {m : Type → Type} [Monad m] (ask : List β → m Bool) (T : ObservationTable β)
    (requests : List (Request β)) : ExceptT LimitExceeded m (ObservationTable β) :=
  requests.foldlM (fun T request => do return (← request.run ask T).2) T

theorem exchange_of_runAll {ask : List β → StateM σ Bool} {s s' : σ} {requests : List (Request β)}
    (h : (Request.runAll (recorded ask) T requests).run.run (t, s) = (.ok U, t', s')) :
    ReflTransGen Exchange (T, t) (U, t') := by
  induction requests generalizing T t s with
  | nil =>
    cases h
    exact .refl
  | cons request requests ih =>
    rw [Request.runAll, List.foldlM_cons] at h
    obtain ⟨V, ⟨t₁, s₁⟩, hfirst, hrest⟩ := exists_of_run_bind_eq_ok h
    obtain ⟨⟨reply, W⟩, ⟨t₂, s₂⟩, hrun, hW⟩ := exists_of_run_bind_eq_ok hfirst
    cases hW
    exact (ih hrest).head ⟨σ, ask, s, s₁, request, reply, hrun⟩

theorem Transcribed.history {x y : ObservationTable β × Transcript β} (h : x.1.Transcribed x.2)
    (hxy : ReflTransGen Exchange x y) : y.1.Transcribed y.2 := by
  induction hxy with
  | refl => exact h
  | tail _ hstep ih => exact ih.exchange hstep

theorem TrueAnswers.update {f : List β → Bool} {K : Answers β} {w : List β} (hf : TrueAnswers f K)
    (hw : w ∉ K.words) (b : Bool) : TrueAnswers (Function.update f w b) K := by
  intro u c hu
  have hne : u ≠ w := by
    rintro rfl
    exact hw (Answers.mem_words_iff.2 (by rw [hu, Option.isSome_some]))
  rw [Function.update_of_ne hne, hf u c hu]

/-- Otherwise there were two languages that have the answers in common and differ at the cell, but the row has
the cells of both of them. -/
theorem Consistent.mem_words (hT : T.Consistent) (h : T.isFilled = true) {u e : List β}
    (hu : T.IsRow u) (he : e ∈ T.experiments) : u ++ e ∈ T.answers.words := by
  by_contra hnew
  obtain ⟨f, hf⟩ := TrueAnswers.exists T.answers
  have hf' := hf.update hnew (!f (u ++ e))
  have hrow := (hT.faithful h _ hf).full u hu
  have hcells := hrow.symm.trans ((hT.faithful h _ hf').full u hu)
  have heq := List.map_inj_left.1 hcells e he
  rw [Function.update_self] at heq
  simp at heq

/-- Whatever a table has been asked for, it has not asked its oracle about a word twice, and only about words
that belong to a cell. The words that it has asked about are counted. From the first closing on it has asked
about every cell. -/
theorem asked_once {symbols : List β} {limit : Nat}
    (h : ReflTransGen Exchange (ofAlphabet symbols limit, .empty) (T, t)) :
    t.words.toList.Nodup ∧ T.queryCount = t.queries ∧
      (∀ w ∈ t.words.toList, ∃ u e, T.IsRow u ∧ e ∈ T.experiments ∧ w = u ++ e) ∧
      (T.isFilled = true →
        ∀ u e, T.IsRow u → e ∈ T.experiments → u ++ e ∈ t.words.toList) := by
  have htranscribed := (transcribed_ofAlphabet symbols limit).history h
  obtain ⟨hwords, hcell⟩ : T.Transcribed t := htranscribed
  have hsteps : ReflTransGen OpenStep (ofAlphabet symbols limit) T :=
    ReflTransGen.lift' Prod.fst (fun _ _ => openSteps_of_exchange) _ _ h
  have hlater := (Consistent.ofAlphabet symbols limit).history Consistent.openStep hsteps
  rw [hwords]
  refine ⟨T.answers.nodup_words, ?_, hcell, fun hfilled u e => hlater.consistent.mem_words hfilled⟩
  rw [queryCount, ← Answers.length_words, ← hwords, Array.length_toList, Transcript.queries]

/-- A table that is started, refined, given a further symbol and asked for a representative, behind an oracle
that says yes and no in turn. -/
theorem asked_once_alternating : ∃ (T : ObservationTable Char) (t : Transcript Char),
    ReflTransGen Exchange (ofAlphabet ['a'] 8, .empty) (T, t) ∧ t.queries = 14 ∧
      t.words.toList.Nodup ∧ T.queryCount = 14 := by
  have hrun : let x := (Request.runAll (recorded alternating) (ofAlphabet ['a'] 8)
      [.operation .start, .operation (.refine ⟨['a', 'a', 'a'], true⟩), .operation (.grow 'b'),
        .representative ['a', 'b']]).run.run (.empty, 0)
      x.1.map (fun _ => ()) = .ok () ∧ x.2.1.queries = 14 := by
    decide +kernel
  generalize hx : (Request.runAll (recorded alternating) (ofAlphabet ['a'] 8) _).run.run _ = x at hrun
  obtain ⟨r, t, s⟩ := x
  obtain ⟨T, rfl, _⟩ := exists_of_map_eq_ok hrun.1
  have hhistory := exchange_of_runAll hx
  obtain ⟨hnodup, hcount, _⟩ := asked_once hhistory
  exact ⟨T, t, hhistory, hrun.2, hnodup, hcount.trans hrun.2⟩

end BehavioralAutomata.ObservationTable
