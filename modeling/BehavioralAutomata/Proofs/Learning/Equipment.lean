import BehavioralAutomata.Proofs.Learning.Changes
import BehavioralAutomata.Proofs.Learning.Repair
import BehavioralAutomata.Proofs.Learning.Responses

/-!
# Sessions that can ask their questions

The oracle is a function here, and nothing is assumed of its values or of the words that a session
learns from. The sequences that a session has recorded need not be what they are meant to be, but they
are there.

* `Session.Equipped`: everything that a question of a session needs is recorded.
* `SequenceStore.Serves.responds`: so its questions are answered.
* `Session.Change.equipped`: every single change keeps that, and nothing that was learned is lost.
-/

namespace BehavioralAutomata

open Relation (ReflTransGen)
open ObservationTable (Responds Spelled)

variable {α : Type} [DecidableEq α] {f : List α → Bool} {limit : Nat}

/-- The oracle that answers for a function. -/
def answering (f : List α → Bool) (w : List α) : Except (LearningError α) Bool := .ok (f w)

/-- A sequence is missing that a question needs. -/
def LearningError.isMissing : LearningError α → Bool
  | .noAccessSequence _ | .noTerminatingSequence _ => true
  | _ => false

omit [DecidableEq α] in
theorem LearningError.not_missing_limitExceeded {e : LearningError α}
    (h : e = .limitExceeded limit) : e.isMissing = false := by
  rw [h]
  rfl

namespace ObservationTable.Spelled

variable {l : ObservationTable (LocalSymbol α)}

theorem representative_subset (hl : l.Spelled) {w : List (LocalSymbol α)} (hw : w ⊆ l.alphabet) :
    l.representative w ⊆ l.alphabet := by
  rw [representative]
  cases hb : (l.hypothesis.reached w).bind (l.base[·]?) with
  | none => exact hw
  | some b =>
    obtain ⟨i, _, hi⟩ := Option.bind_eq_some_iff.1 hb
    exact hl.base b (List.mem_of_getElem? hi)

theorem violation_subset (hl : l.Spelled) {v : LabelledWord (LocalSymbol α)}
    (h : LocalLearner.violation? l = some v) : v.word ⊆ l.alphabet := by
  obtain ⟨w, hw, ret, hret, _, x, hx, rfl, _⟩ := LocalLearner.exists_of_violation? h
  refine List.append_subset.2
    ⟨hl.representative_subset (Acceptor.subset_of_mem_stateCover hw), ?_⟩
  exact List.cons_subset.2 ⟨hret, List.cons_subset.2 ⟨hx, List.nil_subset _⟩⟩

end ObservationTable.Spelled

/-! ## Questions -/

/-- The store has what is needed to put local words over these symbols to the procedure of `c`. -/
structure SequenceStore.Serves (S : SequenceStore α) (c : α) (symbols : List (LocalSymbol α)) :
    Prop where
  access : c ∈ S.access.keys
  terminating : ∀ d, .call d true ∈ symbols → d ∈ S.terminating.keys

namespace SequenceStore

variable {S : SequenceStore α} {c : α}

theorem exists_invocations {w : List (LocalSymbol α)}
    (hw : ∀ d, .call d true ∈ w → d ∈ S.terminating.keys) : ∃ r, S.invocations w = .ok r := by
  induction w with
  | nil => exact ⟨some [], rfl⟩
  | cons x w ih =>
    obtain ⟨r, hr⟩ := ih fun d hd => hw d (List.mem_cons_of_mem x hd)
    have stopped : (x.isReturn || !x.isUsable) = true → ∃ r, S.invocations (x :: w) = .ok r := by
      intro hx
      cases w <;> cases x with
      | internal a => cases hx
      | ret a => exact ⟨_, rfl⟩
      | call d usable =>
        cases usable with
        | true => cases hx
        | false => exact ⟨_, rfl⟩
    cases x with
    | internal a => exact ⟨_, by rw [invocations, hr]; rfl⟩
    | ret a => exact stopped rfl
    | call d usable =>
      cases usable with
      | false => exact stopped rfl
      | true =>
        obtain ⟨t, ht⟩ := AssocMap.mem_keys_iff.1 (hw d List.mem_cons_self)
        exact ⟨_, by rw [invocations, terminatingSequence, ht, hr]; rfl⟩

omit [DecidableEq α] in
theorem Serves.mono {v w : List (LocalSymbol α)} (h : S.Serves c w) (hvw : v ⊆ w) : S.Serves c v :=
  ⟨h.access, fun d hd => h.terminating d (hvw hd)⟩

omit [DecidableEq α] in
theorem Serves.append_call {w : List (LocalSymbol α)} (h : S.Serves c w) {d : α}
    (hd : d ∈ S.terminating.keys) : S.Serves c (w ++ [.call d true]) := by
  refine ⟨h.access, fun e he => ?_⟩
  rcases List.mem_append.1 he with he | he
  · exact h.terminating e he
  · cases List.mem_singleton.1 he
    exact hd

/-- A store that serves a procedure passes its questions on. -/
theorem Serves.responds {symbols : List (LocalSymbol α)} (h : S.Serves c symbols)
    (f : List α → Bool) : Responds (S.askLocal (answering f) c) symbols := by
  intro w hw
  obtain ⟨u, hu⟩ := AssocMap.mem_keys_iff.1 h.access
  obtain ⟨r, hr⟩ := exists_invocations fun d hd => h.terminating d (hw hd)
  have hembed : S.embed c w = .ok (r.map (u ++ [c] ++ ·)) := by
    rw [embed, accessSequence, hu, hr]
    rfl
  rw [askLocal, hembed]
  cases r with
  | none => exact ⟨false, rfl⟩
  | some v => exact ⟨f (u ++ [c] ++ v), rfl⟩

end SequenceStore

namespace Session

variable {s s' : TableSession α} {q : LabelledWord α} {c : α}

/-! ## Single changes -/

/-- The current local symbols belong to their symbols and to the alphabets of all tables, and whatever a
question of a table needs is recorded. -/
structure Equipped (s : TableSession α) : Prop where
  own : ∀ a x, s.localAlphabet.get? a = some x → x.symbol = a
  known : ∀ c, s.Usable c → c ∈ s.store.terminating.keys
  access : ∀ c ∈ s.learners.keys, c ∈ s.store.access.keys
  spelled : ∀ c l, s.learners.get? c = some l → l.Spelled
  current : ∀ c l a x, s.learners.get? c = some l → s.localAlphabet.get? a = some x →
    x ∈ l.alphabet
  usable : ∀ c l d, s.learners.get? c = some l → .call d true ∈ l.alphabet → s.Usable d

theorem equipped_start (A : Alphabet α) (preference : Preference) :
    (start A preference : TableSession α).Equipped where
  own _ _ h := ((LocalAlphabet.Fits.ofAlphabet A).symbol_eq h).1
  known c h := absurd h (not_usable_start A preference c)
  access _ h := absurd h List.not_mem_nil
  spelled c l h := by simp [start] at h
  current c l a x h := by simp [start] at h
  usable c l d h := by simp [start] at h

namespace Equipped

theorem serves (h : s.Equipped) {l : ObservationTable (LocalSymbol α)}
    (hl : s.learners.get? c = some l) : s.store.Serves c l.alphabet :=
  ⟨h.access c (AssocMap.mem_keys_iff.2 ⟨l, hl⟩), fun d hd => h.known d (h.usable c l d hl hd)⟩

theorem exists_get?_of_mem (h : s.Equipped) {x : LocalSymbol α}
    (hx : x ∈ s.localAlphabet.symbols) : s.localAlphabet.get? x.symbol = some x := by
  obtain ⟨⟨a, x⟩, he, rfl⟩ := List.mem_map.1 hx
  have hget : s.localAlphabet.get? a = some x := AssocMap.get?_eq_some_iff.2 he
  rwa [h.own a x hget]

theorem serves_symbols (h : s.Equipped) (hc : c ∈ s.store.access.keys) :
    s.store.Serves c s.localAlphabet.symbols :=
  ⟨hc, fun d hd => h.known d (h.exists_get?_of_mem hd)⟩

/-- More sequences do no harm. -/
theorem withStore (h : s.Equipped) {S : SequenceStore α} (ha : s.store.access.keys ⊆ S.access.keys)
    (ht : s.store.terminating.keys ⊆ S.terminating.keys) (i : Option α) :
    (s.withStore S i).Equipped where
  __ := h
  known d hd := ht (h.known d hd)
  access d hd := ha (h.access d hd)

theorem withNewLearner (h : s.Equipped) (hc : c ∈ s.store.access.keys)
    {l : ObservationTable (LocalSymbol α)} (hspelled : l.Spelled)
    (hA : l.alphabet = s.localAlphabet.symbols.eraseDups) : (s.withNewLearner c l).Equipped where
  own := h.own
  known := h.known
  access d hd := (AssocMap.mem_keys_insert.1 hd).elim (fun hd => hd ▸ hc) (h.access d)
  spelled d k hk := by
    rw [Session.withNewLearner, AssocMap.get?_insert] at hk
    split at hk
    · exact Option.some.inj hk ▸ hspelled
    · exact h.spelled d k hk
  current d k a x hk hx := by
    rw [Session.withNewLearner, AssocMap.get?_insert] at hk
    split at hk
    · rw [← Option.some.inj hk, hA]
      exact List.mem_eraseDups.2 (AssocMap.mem_values_of_get? hx)
    · exact h.current d k a x hk hx
  usable d k e hk he := by
    rw [Session.withNewLearner, AssocMap.get?_insert] at hk
    split at hk
    · rw [← Option.some.inj hk, hA] at he
      exact h.exists_get?_of_mem (List.mem_eraseDups.1 he)
    · exact h.usable d k e hk he

theorem withLearner (h : s.Equipped) {l l' : ObservationTable (LocalSymbol α)}
    (hl : s.learners.get? c = some l) (hspelled : l'.Spelled) (hA : l'.alphabet = l.alphabet) :
    (s.withLearner c l').Equipped where
  own := h.own
  known := h.known
  access d hd := by
    have hc : c ∈ s.learners.keys := AssocMap.mem_keys_iff.2 ⟨l, hl⟩
    exact h.access d ((AssocMap.mem_keys_insert.1 hd).elim (fun hd => hd ▸ hc) id)
  spelled d k hk := by
    rw [get?_withLearner] at hk
    split at hk
    · exact Option.some.inj hk ▸ hspelled
    · exact h.spelled d k hk
  current d k a x hk hx := by
    rw [get?_withLearner] at hk
    split at hk
    · rw [← Option.some.inj hk, hA]
      exact h.current c l a x hl hx
    · exact h.current d k a x hk hx
  usable d k e hk he := by
    rw [get?_withLearner] at hk
    split at hk
    · rw [← Option.some.inj hk, hA] at he
      exact h.usable c l e hl he
    · exact h.usable d k e hk he

end Equipped

/-- The tables of the session, of which those of the procedures in `done` have been given the symbol
`x`. -/
structure Extended (s : TableSession α) (x : LocalSymbol α) (done : List α)
    (M : AssocMap α (ObservationTable (LocalSymbol α))) : Prop where
  keys : M.keys = s.learners.keys
  learners : ∀ c l, s.learners.get? c = some l → ∃ l', M.get? c = some l' ∧ l'.Spelled ∧
    l.Grows l' ∧
    l'.alphabet = if c ∈ done ∧ x ∉ l.alphabet then l.alphabet ++ [x] else l.alphabet

namespace Extended

variable {x : LocalSymbol α} {done : List α} {M : AssocMap α (ObservationTable (LocalSymbol α))}

/-- One more procedure has been given the symbol. -/
theorem insert (h : Extended s x done M) {l l' : ObservationTable (LocalSymbol α)}
    (hl : M.get? c = some l) (hspelled : l'.Spelled) (hgrows : l.Grows l')
    (hA : l'.alphabet = if x ∈ l.alphabet then l.alphabet else l.alphabet ++ [x]) :
    Extended s x (done ++ [c]) (M.insert c l') := by
  refine ⟨?_, fun d k hk => ?_⟩
  · rw [AssocMap.keys_insert, if_pos (AssocMap.mem_keys_iff.2 ⟨l, hl⟩), h.keys]
  · obtain ⟨k', hk', hspelled', hgrows', hA'⟩ := h.learners d k hk
    rw [AssocMap.get?_insert]
    by_cases hdc : d = c
    · subst hdc
      cases hl.symm.trans hk'
      refine ⟨l', if_pos rfl, hspelled, hgrows'.trans hgrows, ?_⟩
      rw [hA, hA']
      by_cases hx : x ∈ k.alphabet
      · simp [hx]
      · by_cases hd : d ∈ done <;> simp [hx, hd]
    · exact ⟨k', by rw [if_neg hdc, hk'], hspelled', hgrows', by simpa [hdc] using hA'⟩

/-- Every table belongs to a procedure that had one before. -/
theorem exists_of_get? (h : Extended s x s.learners.keys M) {l' : ObservationTable (LocalSymbol α)}
    (hl' : M.get? c = some l') : ∃ l, s.learners.get? c = some l ∧ l'.Spelled ∧ l.Grows l' ∧
      l'.alphabet = if x ∈ l.alphabet then l.alphabet else l.alphabet ++ [x] := by
  have hc : c ∈ s.learners.keys := h.keys ▸ AssocMap.mem_keys_iff.2 ⟨l', hl'⟩
  obtain ⟨l, hl⟩ := AssocMap.mem_keys_iff.1 hc
  obtain ⟨k, hk, hspelled, hgrows, hA⟩ := h.learners c l hl
  cases hl'.symm.trans hk
  refine ⟨l, hl, hspelled, hgrows, ?_⟩
  rw [hA]
  by_cases hx : x ∈ l.alphabet <;> simp [hc, hx]

theorem mem_alphabet (h : Extended s x s.learners.keys M) {l' : ObservationTable (LocalSymbol α)}
    (hl' : M.get? c = some l') : x ∈ l'.alphabet := by
  obtain ⟨l, _, _, _, hA⟩ := h.exists_of_get? hl'
  rw [hA]
  split
  · next hx => exact hx
  · exact List.mem_append_right _ List.mem_cons_self

theorem equipped (h : Extended s (.call c true) s.learners.keys M) (hs : s.Equipped)
    (hc : c ∈ s.store.terminating.keys) : (s.withSymbol (.call c true) M).Equipped := by
  have hget := LocalAlphabet.Fits.get?_set s.localAlphabet c
  have husable := Grown.usable s c M
  have hmono : ∀ d, s.Usable d → (s.withSymbol (.call c true) M).Usable d := by
    intro d hd
    by_cases hdc : d = c
    · exact hdc ▸ husable
    · exact (hget d).trans ((if_neg hdc).trans hd)
  refine ⟨fun a y hy => ?_, fun d hd => ?_, fun d hd => hs.access d (h.keys ▸ hd), fun d l' hl' => ?_,
    fun d l' a y hl' hy => ?_, fun d l' e hl' he => ?_⟩
  · rw [withSymbol, hget] at hy
    split at hy
    · next hac => exact hac ▸ Option.some.inj hy ▸ rfl
    · exact hs.own a y hy
  · rw [Usable, withSymbol, hget] at hd
    split at hd
    · next hdc => exact hdc ▸ hc
    · exact hs.known d hd
  · obtain ⟨_, _, hspelled, _⟩ := h.exists_of_get? hl'
    exact hspelled
  · obtain ⟨l, hl, _, hgrows, _⟩ := h.exists_of_get? hl'
    rw [withSymbol, hget] at hy
    split at hy
    · exact Option.some.inj hy ▸ h.mem_alphabet hl'
    · exact hgrows.alphabet.subset (hs.current d l a y hl hy)
  · obtain ⟨l, hl, _, _, hA⟩ := h.exists_of_get? hl'
    rw [hA] at he
    split at he
    · exact hmono e (hs.usable d l e hl he)
    · rcases List.mem_append.1 he with he | he
      · exact hmono e (hs.usable d l e hl he)
      · cases List.mem_singleton.1 he
        exact husable

theorem grows (h : Extended s (.call c true) s.learners.keys M) :
    s.Grows (s.withSymbol (.call c true) M) where
  usable d hd := by
    rw [Usable, withSymbol, LocalAlphabet.Fits.get?_set]
    split
    · next hdc => rw [hdc]
    · exact hd
  learners d l hl := by
    obtain ⟨l', hl', _, hgrows, _⟩ := h.learners d l hl
    exact ⟨l', hl', hgrows⟩

end Extended

/-- A loop that gives all learners a usable call ends well, or at the limit of a table. -/
theorem Equipped.growLearners_outcome (h : s.Equipped) (hc : c ∈ s.store.terminating.keys) :
    Outcome (Extended s (.call c true) s.learners.keys) (fun e => e.isMissing = false)
      (s.learners.keys.foldlM (growLearner (answering f) s.store (.call c true)) s.learners) := by
  refine Outcome.foldlM (fun done d M hd hM => ?_)
    ⟨rfl, fun d l hl => ⟨l, hl, h.spelled d l hl, .refl l, by simp⟩⟩
  obtain ⟨l, hl⟩ := AssocMap.mem_keys_iff.1 hd
  obtain ⟨l', hl', hspelled, _, hA⟩ := hM.learners d l hl
  have hserves : s.store.Serves d (l'.alphabet ++ [.call c true]) := by
    refine ((h.serves hl).append_call hc).mono (List.append_subset.2 ⟨?_, ?_⟩)
    · rw [hA]
      split
      · exact List.Subset.refl _
      · exact List.subset_append_left ..
    · exact List.subset_append_right ..
  rw [growLearner, hl']
  have hgrow := (hspelled.grow_outcome (hserves.responds f)).mono (fun _ h => h)
    fun e he => LearningError.not_missing_limitExceeded he
  exact hgrow.bind fun k hk => hM.insert hl' hk.1 hk.2.1 hk.2.2

/-- A learner that is refined with a word over its symbols stays spelled, or its table exceeds its
limit. -/
theorem Equipped.refine_outcome (h : s.Equipped) {l : ObservationTable (LocalSymbol α)}
    (hl : s.learners.get? c = some l) {v : LabelledWord (LocalSymbol α)} (hv : v.word ⊆ l.alphabet) :
    Outcome (fun r => r.2.Spelled ∧ l.Grows r.2 ∧ r.2.alphabet = l.alphabet) (fun e => e.isMissing = false)
      (LocalLearning.refine (s.store.askLocal (answering f) c) v l) :=
  ((h.spelled c l hl).refine_outcome hv ((h.serves hl).responds f)).mono (fun _ h => h)
    fun _ he => LearningError.not_missing_limitExceeded he

/-- A local counterexample is a word over the symbols of its learner. -/
theorem Equipped.localCounterexample_subset (h : s.Equipped)
    {l : ObservationTable (LocalSymbol α)} (hl : s.learners.get? c = some l)
    {v : LabelledWord (LocalSymbol α)} (hv : s.localCounterexample q = .ok (c, v)) :
    v.word ⊆ l.alphabet := by
  obtain ⟨⟨_, _, _, hword⟩, _⟩ := Blames.of_localCounterexample hv
  exact LocalAlphabet.subset_of_localWord? (fun a x hx => h.current c l a x hl hx) hword

/-- Every change keeps what questions need, and nothing that was learned is lost. -/
theorem Change.equipped (h : Change (answering f) limit q s s') (hs : s.Equipped) :
    s'.Equipped ∧ s.Grows s' := by
  have hkeys := h.keys_subset
  cases h with
  | shown => exact ⟨hs.withStore hkeys.1 hkeys.2 _, grows_withStore ..⟩
  | searched => exact ⟨hs.withStore hkeys.1 hkeys.2 _, grows_withStore ..⟩
  | @grown c M hknown _ hgrow =>
    have hM := (hs.growLearners_outcome hknown).of_eq_ok hgrow
    exact ⟨hM.equipped hs hknown, hM.grows⟩
  | @discovered c l hknown hfresh hstart =>
    obtain ⟨hspelled, hA⟩ :=
      (start_outcome c ((hs.serves_symbols hknown).responds f)).of_eq_ok hstart
    exact ⟨hs.withNewLearner hknown hspelled hA, grows_withNewLearner hfresh l⟩
  | @resolved c l l' v _ hlocal hl hrefine =>
    obtain ⟨hspelled, hgrows, hA⟩ :=
      (hs.refine_outcome hl (hs.localCounterexample_subset hl hlocal)).of_eq_ok hrefine
    exact ⟨hs.withLearner hl hspelled hA, (adapts_withLearner hl hgrows).toGrows⟩
  | @repaired c l l' v hl hviolation hrefine =>
    obtain ⟨hspelled, hgrows, hA⟩ :=
      (hs.refine_outcome hl ((hs.spelled c l hl).violation_subset hviolation)).of_eq_ok hrefine
    exact ⟨hs.withLearner hl hspelled hA, (adapts_withLearner hl hgrows).toGrows⟩

theorem equipped_of_changes (h : ReflTransGen (Change (answering f) limit q) s s')
    (hs : s.Equipped) : s'.Equipped ∧ s.Grows s' := by
  induction h with
  | refl => exact ⟨hs, .refl s⟩
  | tail _ hstep ih =>
    obtain ⟨hs', hgrows⟩ := hstep.equipped ih.1
    exact ⟨hs', ih.2.trans hgrows⟩

end Session

end BehavioralAutomata
