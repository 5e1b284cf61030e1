import BehavioralAutomata.Proofs.Learning.Replay

/-!
# Closing with every look-up checked

`ObservationTable.close` relies on what holds of its table. A round looks only at the rows that the round
before has brought. A row that is not there is taken for an empty one, a row that is too long is left as it
is, and an extension whose row no base word has gets no edge.

`ObservationTable.closeChecked` relies on nothing. Every round goes over the whole table, and a row that is
not there, that is too long or that belongs to no base word is an error which names the word.

* `ObservationTable.filter_words`, `fillRows_filter`, `newRows_filter`: what a round over the whole table
  passes over.
* `ObservationTable.closeChecked_eq`: both do the same behind any oracle, so that none of these errors occurs.
-/

namespace BehavioralAutomata

/-- Why a table is not closed. -/
inductive ClosingError (β : Type) where
  | limit (e : LimitExceeded)
  /-- The word has no row. -/
  | noEntry (word : List β)
  /-- No base word has the row of the word. -/
  | notClosed (word : List β)
  /-- The row of the word has more cells than there are experiments. -/
  | tooManyExperiments (word : List β)
deriving DecidableEq

def ClosingError.message {β : Type} [Render β] : ClosingError β → String
  | .limit e => "iteration threshold of " ++ render e.limit ++ " exceeded"
  | .noEntry w => "no table entry for " ++ render w
  | .notClosed w => "table is not closed for " ++ render w
  | .tooManyExperiments w => "too many experiments present for " ++ render w

namespace ObservationTable

open Yielding

variable {β : Type} [DecidableEq β] {f : List β → Bool} {T U : ObservationTable β}

/-! ## The checks -/

/-- The row of a word, which must be there. -/
def entry (T : ObservationTable β) (w : List β) : Except (ClosingError β) (List Bool) :=
  match T.rows.get? w with
  | some r => .ok r
  | none => .error (.noEntry w)

/-- Adds the rows of the given words to `known`. -/
def addRowsChecked (T : ObservationTable β) (known : WordMap Bool Unit) (ws : List (List β)) :
    Except (ClosingError β) (WordMap Bool Unit) :=
  ws.foldlM (fun known w => return known.insert () (← T.entry w)) known

/-- The words whose rows are none of `known` and no row of an earlier word. -/
def newRowsChecked (T : ObservationTable β) (known : WordMap Bool Unit) :
    List (List β) → Except (ClosingError β) (List (List β))
  | [] => return []
  | w :: ws => do
    let r ← T.entry w
    if known.contains r then T.newRowsChecked known ws
    else return w :: (← T.newRowsChecked (known.insert () r) ws)

/-- The row of the word is in `known`. -/
def checkClosed (T : ObservationTable β) (known : WordMap Bool Unit) (w : List β) :
    Except (ClosingError β) Unit := do
  if known.contains (← T.entry w) then return else throw (.notClosed w)

/-- The acceptor whose states are the base words. Every extension must have the row of one of them. -/
def toAcceptorChecked (T : ObservationTable β) : Except (ClosingError β) (Acceptor β) := do
  let known ← T.addRowsChecked ∅ T.base
  (T.extensions T.base).forM (T.checkClosed known)
  return T.toAcceptor

section

variable {m : Type → Type} [Monad m] (ask : List β → m Bool)

/-- Adds the cells that the row of `w` lacks. -/
def fillRowChecked (T : ObservationTable β) (w : List β) :
    ExceptT (ClosingError β) m (ObservationTable β) :=
  if T.experiments.length < (T.row w).length then throw (.tooManyExperiments w)
  else ExceptT.lift (T.fillRow ask w)

/-- Fills all rows and promotes the first words of the rows that no base word has, for the given number of
rounds at most. -/
def closeWithinChecked :
    (rounds : Nat) → ObservationTable β → ExceptT (ClosingError β) m (ObservationTable β)
  | 0, T => throw (.limit ⟨T.limit⟩)
  | n + 1, T => do
    let T ← T.words.foldlM (fillRowChecked ask) T
    let known ← MonadExcept.ofExcept (T.addRowsChecked ∅ T.base)
    match ← MonadExcept.ofExcept (T.newRowsChecked known T.words) with
    | [] =>
      let hypothesis ← MonadExcept.ofExcept T.toAcceptorChecked
      return { T with hypothesis }
    | new => closeWithinChecked n { T with base := T.base ++ new }

/-- Closes the table and rebuilds the hypothesis. -/
def closeChecked (T : ObservationTable β) : ExceptT (ClosingError β) m (ObservationTable β) :=
  closeWithinChecked ask T.limit T

end

/-! ## Rows that are there -/

theorem entry_eq_ok {w : List β} (h : T.rows.contains w = true) : T.entry w = .ok (T.row w) := by
  obtain ⟨r, hr⟩ := Option.isSome_iff_exists.1 h
  rw [entry, row, hr]
  rfl

theorem addRowsChecked_eq_ok {known : WordMap Bool Unit} {ws : List (List β)}
    (h : ∀ w ∈ ws, T.rows.contains w = true) :
    T.addRowsChecked known ws = .ok (T.addRows known ws) := by
  induction ws generalizing known with
  | nil => rfl
  | cons w ws ih =>
    obtain ⟨hw, hws⟩ := List.forall_mem_cons.1 h
    rw [addRowsChecked, List.foldlM_cons, entry_eq_ok hw]
    exact ih hws

theorem newRowsChecked_eq_ok {known : WordMap Bool Unit} {ws : List (List β)}
    (h : ∀ w ∈ ws, T.rows.contains w = true) :
    T.newRowsChecked known ws = .ok (T.newRows known ws) := by
  induction ws generalizing known with
  | nil => rfl
  | cons w ws ih =>
    obtain ⟨hw, hws⟩ := List.forall_mem_cons.1 h
    rw [newRowsChecked, entry_eq_ok hw, newRows]
    change (if known.contains (T.row w) then _ else _) = _
    split
    · exact ih hws
    · rw [ih hws]
      rfl

theorem checkClosed_eq_ok {known : WordMap Bool Unit} {w : List β} (h : T.rows.contains w = true)
    (hknown : known.contains (T.row w) = true) : T.checkClosed known w = .ok () := by
  rw [checkClosed, entry_eq_ok h]
  exact if_pos hknown

theorem toAcceptorChecked_eq_ok (hrows : ∀ w, T.IsRow w → T.rows.contains w = true)
    (hclosed : ∀ w ∈ T.extensions T.base, ∃ b ∈ T.base, T.row b = T.row w) :
    T.toAcceptorChecked = .ok T.toAcceptor := by
  have hcheck : ∀ ws, ws ⊆ T.extensions T.base →
      ws.forM (T.checkClosed (T.addRows ∅ T.base)) = .ok () := by
    intro ws hws
    induction ws with
    | nil => rfl
    | cons w ws ih =>
      obtain ⟨hw, hws⟩ := List.cons_subset.1 hws
      have hknown : (T.addRows ∅ T.base).contains (T.row w) = true :=
        contains_addRows.2 (.inr (hclosed w hw))
      change (T.checkClosed _ w >>= fun _ => ws.forM _) = _
      rw [checkClosed_eq_ok (hrows w (.inr (mem_extensions.1 hw))) hknown]
      exact ih hws
  rw [toAcceptorChecked, addRowsChecked_eq_ok fun b hb => hrows b (.inl hb)]
  change (T.extensions T.base).forM (T.checkClosed (T.addRows ∅ T.base)) >>= _ = _
  rw [hcheck _ (List.Subset.refl _)]
  rfl

/-! ## Words that a round passes over -/

/-- The row of the word is not full. -/
def lacks (T : ObservationTable β) (w : List β) : Bool := (T.row w).length < T.experiments.length

theorem nodup_extensions {ws : List (List β)} (h : ws.Nodup) : (T.extensions ws).Nodup := by
  refine List.nodup_flatMap.2 ⟨fun w _ => ?_, h.imp fun hne => ?_⟩
  · refine T.alphabet_nodup.map fun a b hab => ?_
    exact List.singleton_inj.1 (List.append_cancel_left hab)
  · intro w hu hv
    obtain ⟨a, _, rfl⟩ := List.mem_map.1 hu
    obtain ⟨b, _, hb⟩ := List.mem_map.1 hv
    exact hne (List.append_inj' hb rfl).1.symm

/-- The extensions of base words that were there before are rows too, and none of a promoted word. -/
theorem isRow_of_mem_extensions {old fresh : List (List β)} (hbase : T.base = old ++ fresh)
    (h : T.base.Nodup) {w : List β} (hw : w ∈ T.extensions old) :
    T.IsRow w ∧ w ∉ T.extensions fresh := by
  obtain ⟨b, hb, a, ha, rfl⟩ := mem_extensions.1 hw
  refine ⟨.inr ⟨b, hbase ▸ List.mem_append_left fresh hb, a, ha, rfl⟩, fun hw' => ?_⟩
  obtain ⟨c, hc, a', _, heq⟩ := mem_extensions.1 hw'
  obtain rfl := (List.append_inj' heq rfl).1
  exact (List.nodup_append.1 (hbase ▸ h)).2.2 b hb b hc rfl

/-- No word has two rows. -/
theorem nodup_words (h : T.base.Nodup) : T.words.Nodup := by
  have hnew : ∀ {b w}, w ∈ (T.extensions [b]).filter (!(WordMap.positions T.base).contains ·) →
      w ∉ T.base ∧ ∃ a, w = b ++ [a] := by
    intro b w hw
    obtain ⟨hext, hknown⟩ := List.mem_filter.1 hw
    obtain ⟨c, hc, a, _, rfl⟩ := mem_extensions.1 hext
    obtain rfl := List.mem_singleton.1 hc
    refine ⟨fun hmem => ?_, a, rfl⟩
    rw [(WordMap.contains_positions T.base _).2 hmem] at hknown
    cases hknown
  refine List.nodup_flatMap.2 ⟨fun b hb => ?_, h.imp_of_mem fun {b c} hb hc hne => ?_⟩
  · refine List.nodup_cons.2 ⟨fun hmem => (hnew hmem).1 hb, List.Nodup.filter _ ?_⟩
    exact nodup_extensions (List.nodup_singleton b)
  · intro w hwb hwc
    rcases List.mem_cons.1 hwb with rfl | hwb <;> rcases List.mem_cons.1 hwc with rfl | hwc
    · exact hne rfl
    · exact (hnew hwc).1 hb
    · exact (hnew hwb).1 hc
    · obtain ⟨_, a, rfl⟩ := hnew hwb
      obtain ⟨_, a', heq⟩ := hnew hwc
      exact hne (List.append_inj' heq rfl).1

/-- Of the words of all rows, those of base words are passed over, and the extensions are left. -/
theorem filter_words {p : List β → Bool} (h : ∀ b ∈ T.base, p b = false) :
    T.words.filter p = (T.extensions T.base).filter p := by
  have hnew : ∀ w, (p w && !(WordMap.positions T.base).contains w) = p w := by
    intro w
    cases hp : p w with
    | false => rfl
    | true =>
      have hw : w ∉ T.base := fun hmem => by simp [h w hmem] at hp
      rw [← WordMap.contains_positions T.base w, Bool.not_eq_true] at hw
      rw [hw]
      rfl
  rw [words, extensions, List.filter_flatMap, List.filter_flatMap]
  refine List.flatMap_congr fun b hb => ?_
  rw [List.filter_cons_of_neg (by simp [h b hb]), List.filter_filter, List.filter_congr fun w _ => hnew w,
    extensions, List.flatMap_singleton]

/-- The extensions of base words that were there before are passed over as well. -/
theorem filter_words_of_append {old fresh : List (List β)} {p : List β → Bool}
    (hbase : T.base = old ++ fresh) (h : ∀ b ∈ T.base, p b = false)
    (hold : ∀ w ∈ T.extensions old, p w = false) :
    T.words.filter p = (T.extensions fresh).filter p := by
  rw [filter_words h, hbase, extensions, List.flatMap_append, List.filter_append]
  change (T.extensions old).filter p ++ _ = _
  rw [List.filter_eq_nil_iff.2 fun w hw => by simp [hold w hw]]
  rfl

/-! ## Filling -/

section

variable {m : Type → Type} [Monad m] [LawfulMonad m] {ask : List β → m Bool}

omit [LawfulMonad m] in
theorem fillRow_of_not_lacks {w : List β} (h : T.lacks w = false) : fillRow ask T w = pure T := by
  have hdrop : T.experiments.drop (T.row w).length = [] :=
    List.drop_eq_nil_iff.2 (Nat.le_of_not_lt (of_decide_eq_false h))
  rw [fillRow, hdrop]

/-- What comes behind the filling of a row may rely on the other rows. -/
theorem fillRow_bind_congr {δ : Type} {w : List β} {k k' : ObservationTable β → m δ}
    (h : ∀ U : ObservationTable β, U.experiments = T.experiments →
      (∀ u, u ≠ w → U.row u = T.row u) → k U = k' U) :
    fillRow ask T w >>= k = fillRow ask T w >>= k' := by
  rw [fillRow]
  split
  · rw [pure_bind, pure_bind]
    exact h T rfl fun _ _ => rfl
  · rw [bind_assoc, bind_assoc]
    refine bind_congr fun x => ?_
    rw [pure_bind, pure_bind]
    refine h _ rfl fun u hu => ?_
    rw [row, row, WordMap.get?_insert, if_neg hu]

/-- Rows that are full are passed over. -/
theorem fillRows_filter {ws : List (List β)} (h : ws.Nodup) :
    fillRows ask T (ws.filter T.lacks) = fillRows ask T ws := by
  induction ws generalizing T with
  | nil => rfl
  | cons w ws ih =>
    obtain ⟨hw, hws⟩ := List.nodup_cons.1 h
    cases hlacks : T.lacks w with
    | false =>
      rw [List.filter_cons_of_neg (by simp [hlacks]), ih hws, fillRows, fillRows, List.foldlM_cons,
        fillRow_of_not_lacks hlacks, pure_bind]
    | true =>
      rw [List.filter_cons_of_pos hlacks, fillRows, fillRows, List.foldlM_cons, List.foldlM_cons]
      refine fillRow_bind_congr fun U hE hrow => ?_
      have hsame : ws.filter T.lacks = ws.filter U.lacks := by
        refine List.filter_congr fun u hu => ?_
        rw [lacks, lacks, hE, hrow u fun heq => hw (heq ▸ hu)]
      rw [hsame]
      exact ih hws

/-- Rows that are not too long can be filled. -/
theorem foldlM_fillRowChecked {ws : List (List β)} (h : ws.Nodup)
    (hle : ∀ w ∈ ws, (T.row w).length ≤ T.experiments.length) :
    ws.foldlM (fillRowChecked ask) T = ExceptT.lift (fillRows ask T ws) := by
  apply ExceptT.ext
  rw [ExceptT.run_lift]
  induction ws generalizing T with
  | nil => exact (map_pure _ _).symm
  | cons w ws ih =>
    obtain ⟨hw, hws⟩ := List.nodup_cons.1 h
    obtain ⟨hlew, hlews⟩ := List.forall_mem_cons.1 hle
    rw [List.foldlM_cons, fillRowChecked, if_neg (Nat.not_lt.2 hlew), ExceptT.run_bind_lift, fillRows,
      List.foldlM_cons, map_bind]
    refine fillRow_bind_congr fun U hE hrow => ih hws fun u hu => ?_
    rw [hE, hrow u fun heq => hw (heq ▸ hu)]
    exact hlews u hu

end

/-! ## New rows -/

theorem newRows_congr {known known' : WordMap Bool Unit} {ws : List (List β)}
    (h : ∀ r, known.contains r = known'.contains r) : T.newRows known ws = T.newRows known' ws := by
  induction ws generalizing known known' with
  | nil => rfl
  | cons w ws ih =>
    have hinsert : ∀ r, (known.insert () (T.row w)).contains r =
        (known'.insert () (T.row w)).contains r := fun r => by
      rw [WordMap.contains_insert, WordMap.contains_insert, h]
    rw [newRows, newRows, h, ih h, ih hinsert]

/-- Words with known rows are passed over. -/
theorem newRows_filter {known : WordMap Bool Unit} {ws : List (List β)} {p : List β → Bool}
    (h : ∀ w ∈ ws, p w = false → known.contains (T.row w) = true) :
    T.newRows known (ws.filter p) = T.newRows known ws := by
  induction ws generalizing known with
  | nil => rfl
  | cons w ws ih =>
    obtain ⟨hw, hws⟩ := List.forall_mem_cons.1 h
    cases hp : p w with
    | false => rw [List.filter_cons_of_neg (by simp [hp]), newRows, if_pos (hw hp), ih hws]
    | true =>
      have hinsert : ∀ u ∈ ws, p u = false →
          (known.insert () (T.row w)).contains (T.row u) = true := fun u hu hpu => by
        rw [WordMap.contains_insert, hws u hu hpu, Bool.or_true]
      rw [List.filter_cons_of_pos hp, newRows, newRows, ih hws, ih hinsert]

/-! ## The rounds -/

/-- The words whose rows a round has to look at: all of them in the first round, and later on the extensions of
the words that were promoted, when the rows of all base words are full. -/
def Frontier (T : ObservationTable β) (fresh ws : List (List β)) : Prop :=
  ws = T.words ∨ ws = T.extensions fresh ∧ ∀ b ∈ T.base, T.lacks b = false

section

variable {known : WordMap Bool Unit} {fresh ws : List (List β)}

theorem not_lacks_of_row_eq {w : List β} (h : T.row w = T.cells f w) : T.lacks w = false := by
  rw [lacks, h, cells, List.length_map, decide_eq_false_iff_not]
  exact Nat.lt_irrefl _

theorem Closing.fillRows_words {m : Type → Type} [Monad m] [LawfulMonad m] {ask : List β → m Bool}
    (h : Closing f known fresh ws T) (hws : T.Frontier fresh ws) :
    fillRows ask T T.words = fillRows ask T ws := by
  rcases hws with rfl | ⟨rfl, hbase⟩
  · rfl
  · obtain ⟨old, hsplit, _⟩ := h.known_iff
    have hnodup := h.shaped.nodup_base
    have hfresh : fresh.Nodup := (List.nodup_append.1 (hsplit ▸ hnodup)).2.1
    have hold : ∀ w ∈ T.extensions old, T.lacks w = false := by
      intro w hw
      obtain ⟨hrow, hnew⟩ := isRow_of_mem_extensions hsplit hnodup hw
      exact not_lacks_of_row_eq ((h.rest w hrow).resolve_left hnew).1
    rw [← fillRows_filter (nodup_words hnodup), filter_words_of_append hsplit hbase hold,
      fillRows_filter (nodup_extensions hfresh)]

namespace Filled

theorem contains_rows (h : Filled f known ws T) {w : List β} (hw : T.IsRow w) :
    T.rows.contains w = true := by
  rw [WordMap.contains, h.shaped.get?_rows (h.full w hw), Option.isSome_some]

theorem contains_base (h : Filled f known ws T) {b : List β} (hb : b ∈ T.base) :
    known.contains (T.row b) = true := by
  rw [h.full b (.inl hb)]
  exact (h.known_iff _).2 ⟨b, hb, rfl⟩

/-- The rows of the base words are known. -/
theorem contains_addRows_base (h : Filled f known ws T) (r : List Bool) :
    (T.addRows ∅ T.base).contains r = known.contains r := by
  rw [Bool.eq_iff_iff, contains_addRows]
  constructor
  · rintro (hempty | ⟨b, hb, rfl⟩)
    · simp [WordMap.contains] at hempty
    · exact h.contains_base hb
  · intro hr
    obtain ⟨b, hb, rfl⟩ := (h.known_iff r).1 hr
    exact .inr ⟨b, hb, h.full b (.inl hb)⟩

theorem newRows_words {old : List (List β)} (h : Filled f known ws T)
    (hws : ws = T.words ∨ T.base = old ++ fresh ∧ ws = T.extensions fresh) :
    T.newRows (T.addRows ∅ T.base) T.words = T.newRows known ws := by
  rw [newRows_congr h.contains_addRows_base]
  rcases hws with rfl | ⟨hsplit, rfl⟩
  · rfl
  · let p (w : List β) : Bool := !known.contains (T.row w)
    have hfilter : ∀ us, T.newRows known (us.filter p) = T.newRows known us := fun us =>
      newRows_filter fun w _ hp => by simpa [p] using hp
    have hbase : ∀ b ∈ T.base, p b = false := fun b hb => by simp [p, h.contains_base hb]
    have hold : ∀ w ∈ T.extensions old, p w = false := by
      intro w hw
      obtain ⟨hrow, hnew⟩ := isRow_of_mem_extensions hsplit h.shaped.nodup_base hw
      have hcells := (h.rest w hrow).resolve_left hnew
      simp [p, h.full w hrow, (h.known_iff _).2 hcells]
    rw [← hfilter T.words, filter_words_of_append hsplit hbase hold, hfilter]

/-- The test for new rows does not fail and finds the same words. -/
theorem newRowsChecked_words {old : List (List β)} (h : Filled f known ws T)
    (hws : ws = T.words ∨ T.base = old ++ fresh ∧ ws = T.extensions fresh) :
    T.addRowsChecked ∅ T.base = .ok (T.addRows ∅ T.base) ∧
      T.newRowsChecked (T.addRows ∅ T.base) T.words = .ok (T.newRows known ws) := by
  refine ⟨addRowsChecked_eq_ok fun b hb => h.contains_rows (.inl hb), ?_⟩
  rw [newRowsChecked_eq_ok fun w hw => h.contains_rows (mem_words.1 hw), h.newRows_words hws]

/-- Without new rows the hypothesis can be built. -/
theorem toAcceptorChecked (h : Filled f known ws T) (hnew : T.newRows known ws = []) :
    T.toAcceptorChecked = .ok T.toAcceptor := by
  refine toAcceptorChecked_eq_ok (fun w hw => h.contains_rows hw) fun w hw => ?_
  obtain ⟨b, hb, a, ha, rfl⟩ := mem_extensions.1 hw
  have hrow : T.IsRow (b ++ [a]) := .inr ⟨b, hb, a, ha, rfl⟩
  obtain ⟨c, hc, hcells⟩ := h.exists_cells_eq hrow
  rw [hnew, List.append_nil] at hc
  exact ⟨c, hc, by rw [h.full c (.inl hc), h.full _ hrow, hcells]⟩

/-- When the words of the new rows are promoted, only the rows of their extensions are to be filled. -/
theorem frontier (h : Filled f known ws T) {new : List (List β)} (hnew : T.newRows known ws = new) :
    Frontier { T with base := T.base ++ new } new (T.extensions new) := by
  subst hnew
  refine .inr ⟨rfl, fun b hb => ?_⟩
  have hrow : T.row b = T.cells f b := by
    rcases List.mem_append.1 hb with hb | hb
    · exact h.full b (.inl hb)
    · exact h.full b (h.isRow b (newRows_subset hb))
  exact not_lacks_of_row_eq hrow

end Filled

/-- A round over the whole table does what the round over the words that it has to look at does. -/
theorem run_closeWithinChecked {σ : Type} {ask : List β → StateM σ Bool} {n : Nat}
    (hT : ∀ f, TrueAnswers f T.answers → Closing f known fresh ws T) (hws : T.Frontier fresh ws)
    (s : σ) : (closeWithinChecked ask n T).run.run s =
      (ExceptT.adapt .limit (closeWithin ask n known fresh ws T)).run.run s := by
  induction n generalizing known fresh ws T s with
  | zero => rfl
  | succ n ih =>
    obtain ⟨f₀, hf₀⟩ := TrueAnswers.exists T.answers
    have hle : ∀ w ∈ T.words, (T.row w).length ≤ T.experiments.length := by
      intro w _
      have hprefix := ((hT f₀ hf₀).shaped.recorded.rows w).length_le
      rwa [cells, List.length_map] at hprefix
    rw [closeWithinChecked, foldlM_fillRowChecked (nodup_words (hT f₀ hf₀).shaped.nodup_base) hle,
      (hT f₀ hf₀).fillRows_words hws, closeWithin]
    change _ = (ExceptT.adapt ClosingError.limit (ExceptT.lift (fillRows ask T ws) >>= _)).run.run s
    rcases hfill : (fillRows ask T ws).run s with ⟨U, s₁⟩
    rw [adapt_lift_bind, ExceptT.run_bind_lift, ExceptT.run_bind_lift, run_bind_of_run_eq hfill,
      run_bind_of_run_eq hfill]
    have hyields : Yields (fillRows ask T ws) U := ⟨s, s₁, hfill⟩
    obtain ⟨⟨R, K, rfl⟩, filled⟩ := filled_of_fillRows hT hyields
    obtain ⟨f, hf⟩ := TrueAnswers.exists (T.withRecords R K).answers
    obtain ⟨_, hfilled⟩ := filled f hf
    obtain ⟨old, hsplit, _⟩ := (hT f₀ hf₀).known_iff
    obtain ⟨hknown, hnew⟩ := hfilled.newRowsChecked_words (hws.imp_right fun h => ⟨hsplit, h.1⟩)
    rw [hknown]
    simp only [MonadExcept.ofExcept, pure_bind]
    rw [hnew]
    simp only [pure_bind]
    cases hempty : (T.withRecords R K).newRows ((T.withRecords R K).addRows known fresh) ws with
    | nil =>
      simp only [hfilled.toAcceptorChecked hempty]
      rfl
    | cons w new =>
      have hnext := fun f hf => (filled f hf).2.promote hempty
      exact ih hnext (hfilled.frontier hempty) s₁

/-- With every look-up checked a table closes as it does without, behind any oracle. -/
theorem closeChecked_eq {σ : Type} (hT : ∀ f, TrueAnswers f T.answers → T.Shaped f)
    (ask : List β → StateM σ Bool) : T.closeChecked ask = ExceptT.adapt .limit (T.close ask) :=
  ExceptT.ext (StateT.ext fun s =>
    run_closeWithinChecked (fun f hf => .start (hT f hf)) (.inl rfl) s)

end

end ObservationTable

end BehavioralAutomata
