import BehavioralAutomata.Learning.Session
import BehavioralAutomata.Proofs.Learning.Searching
import BehavioralAutomata.Proofs.Outcomes

/-!
# Sessions with observation tables

* `LocalAlphabet.Fits`: the local symbols of an alphabet are of the kinds that they say.
* `Session.Sound`: every learner of a session learns its procedure, and what the session knows of the
  system is true.
* `Session.Complete`: nothing that the store shows is still to be taken into account.
* `Session.Grows`, `Session.Gains`: nothing that was learned is lost, and something new was learned.
-/

namespace BehavioralAutomata

variable {α : Type} {β : Type} [DecidableEq α] [DecidableEq β]

/-! ## Local alphabets -/

/-- Every symbol has a local symbol of its kind. -/
structure LocalAlphabet.Fits (B : LocalAlphabet α) (A : Alphabet α) : Prop where
  internal : ∀ a, A.kind? a = some .internal → B.get? a = some (.internal a)
  call : ∀ a, A.kind? a = some .call → ∃ usable, B.get? a = some (.call a usable)
  ret : ∀ a, A.kind? a = some .ret → B.get? a = some (.ret a)
  other : ∀ a, A.kind? a = none → B.get? a = none

namespace LocalAlphabet.Fits

variable {A : Alphabet α} {B : LocalAlphabet α}

theorem ofAlphabet (A : Alphabet α) : (LocalAlphabet.ofAlphabet A).Fits A := by
  have hget : ∀ a, (LocalAlphabet.ofAlphabet A).get? a =
      if a ∈ A.symbols then some (LocalAlphabet.first A a) else none := fun a =>
    AssocMap.get?_ofList_map A.symbols (LocalAlphabet.first A) a
  have hmem : ∀ {a k}, A.kind? a = some k → a ∈ A.symbols := fun h =>
    Alphabet.mem_symbols_iff_exists.2 ⟨_, h⟩
  refine ⟨fun a ha => ?_, fun a ha => ⟨false, ?_⟩, fun a ha => ?_, fun a ha => ?_⟩
  · rw [hget, if_pos (hmem ha), LocalAlphabet.first, ha]
  · rw [hget, if_pos (hmem ha), LocalAlphabet.first, ha]
  · rw [hget, if_pos (hmem ha), LocalAlphabet.first, ha]
  · rw [hget, if_neg]
    rw [Alphabet.mem_symbols_iff_exists, ha]
    intro h
    obtain ⟨_, ⟨⟩⟩ := h

theorem symbol_eq (h : B.Fits A) {a : α} {x : LocalSymbol α} (hx : B.get? a = some x) :
    x.symbol = a ∧ x.Proper A := by
  cases hk : A.kind? a with
  | none =>
    rw [h.other a hk] at hx
    cases hx
  | some k =>
    cases k with
    | internal =>
      cases (h.internal a hk).symm.trans hx
      exact ⟨rfl, hk⟩
    | ret =>
      cases (h.ret a hk).symm.trans hx
      exact ⟨rfl, hk⟩
    | call =>
      obtain ⟨usable, hu⟩ := h.call a hk
      cases hu.symm.trans hx
      exact ⟨rfl, hk⟩

theorem exists_get? (h : B.Fits A) {a : α} {k : SymbolKind} (hk : A.kind? a = some k) :
    ∃ x, B.get? a = some x := by
  cases k with
  | internal => exact ⟨_, h.internal a hk⟩
  | call => exact ⟨_, (h.call a hk).choose_spec⟩
  | ret => exact ⟨_, h.ret a hk⟩

theorem exists_get?_of_mem (h : B.Fits A) {x : LocalSymbol α} (hx : x ∈ B.symbols) :
    B.get? x.symbol = some x := by
  obtain ⟨⟨a, x⟩, he, rfl⟩ := List.mem_map.1 hx
  have hget : B.get? a = some x := AssocMap.get?_eq_some_iff.2 he
  rwa [(h.symbol_eq hget).1]

theorem get?_set (B : LocalAlphabet α) (c a : α) :
    (B.set (.call c true)).get? a = if a = c then some (.call c true) else B.get? a :=
  LocalAlphabet.get?_set B (.call c true) a

theorem set (h : B.Fits A) {c : α} (hc : A.kind? c = some .call) :
    (B.set (.call c true)).Fits A := by
  have hne : ∀ {a k}, A.kind? a = some k → k ≠ .call → a ≠ c := by
    rintro a k ha hk rfl
    exact hk (Option.some.inj (ha.symm.trans hc))
  refine ⟨fun a ha => ?_, fun a ha => ?_, fun a ha => ?_, fun a ha => ?_⟩
  · rw [get?_set, if_neg (hne ha (by rintro ⟨⟩))]
    exact h.internal a ha
  · rw [get?_set]
    split
    · next hac => exact ⟨true, by rw [hac]⟩
    · exact h.call a ha
  · rw [get?_set, if_neg (hne ha (by rintro ⟨⟩))]
    exact h.ret a ha
  · rw [get?_set, if_neg]
    · exact h.other a ha
    · rintro rfl
      cases (ha.symm.trans hc)

end LocalAlphabet.Fits

/-- A local word consists of current local symbols. -/
theorem LocalAlphabet.subset_of_localWord? {B : LocalAlphabet α} {symbols : List (LocalSymbol α)}
    (hcurrent : ∀ a x, B.get? a = some x → x ∈ symbols) {u : List α} {v : List (LocalSymbol α)}
    (hv : B.localWord? u = some v) : v ⊆ symbols := by
  induction u generalizing v with
  | nil =>
    cases hv
    exact List.nil_subset _
  | cons a u ih =>
    obtain ⟨x, v, hx, hv', rfl⟩ := localWord?_cons_eq_some_iff.1 hv
    exact List.cons_subset.2 ⟨hcurrent a x hx, ih hv'⟩

/-! ## Sessions -/

/-- A session whose learners are observation tables. -/
abbrev TableSession (α : Type) [DecidableEq α] : Type :=
  Session (ObservationTable (LocalSymbol α)) α

namespace Session

/-- The call can be replaced by an invocation. -/
def Usable (s : TableSession α) (c : α) : Prop := s.localAlphabet.get? c = some (.call c true)

/-- What a session knows of the system `T` is true, and its learners learn the procedures of `T`. -/
structure Sound (T : System α β) (limit : Nat) (s : TableSession α) : Prop where
  alphabet : s.alphabet = T.alphabet
  store : s.store.Genuine T
  fits : s.localAlphabet.Fits T.alphabet
  usable : ∀ c, s.Usable c → c ∈ s.store.terminating.keys
  learns : ∀ c l, s.learners.get? c = some l → Learns T s.store limit c l
  current : ∀ c l a x, s.learners.get? c = some l → s.localAlphabet.get? a = some x →
    x ∈ l.alphabet
  initialCall : s.learners.keys ≠ [] → s.initialCall = T.initialCall

/-- What the store shows has been taken into account. -/
structure Complete (s : TableSession α) : Prop where
  learners : ∀ c ∈ s.store.access.keys, c ∈ s.learners.keys
  usable : ∀ c ∈ s.store.terminating.keys, s.Usable c

/-- Nothing that was learned is lost. -/
structure Grows (s s' : TableSession α) : Prop where
  usable : ∀ c, s.Usable c → s'.Usable c
  learners : ∀ c l, s.learners.get? c = some l → ∃ l', s'.learners.get? c = some l' ∧ l.Grows l'

namespace Grows

variable {s s' s'' : TableSession α}

theorem refl (s : TableSession α) : s.Grows s where
  usable _ h := h
  learners _ l h := ⟨l, h, .refl l⟩

theorem trans (h : s.Grows s') (h' : s'.Grows s'') : s.Grows s'' where
  usable c hc := h'.usable c (h.usable c hc)
  learners c l hl := by
    obtain ⟨l', hl', hgrows⟩ := h.learners c l hl
    obtain ⟨l'', hl'', hgrows'⟩ := h'.learners c l' hl'
    exact ⟨l'', hl'', hgrows.trans hgrows'⟩

theorem keys (h : s.Grows s') {c : α} (hc : c ∈ s.learners.keys) : c ∈ s'.learners.keys := by
  obtain ⟨l, hl⟩ := AssocMap.mem_keys_iff.1 hc
  obtain ⟨l', hl', _⟩ := h.learners c l hl
  exact AssocMap.mem_keys_iff.2 ⟨l', hl'⟩

end Grows

/-- A session that has learned more of the procedures that it knew before. -/
structure Adapts (s s' : TableSession α) : Prop extends Grows s s' where
  store : s'.store = s.store
  initialCall : s'.initialCall = s.initialCall
  keys : s'.learners.keys = s.learners.keys

namespace Adapts

variable {s s' s'' : TableSession α}

theorem refl (s : TableSession α) : s.Adapts s := ⟨.refl s, rfl, rfl, rfl⟩

theorem trans (h : s.Adapts s') (h' : s'.Adapts s'') : s.Adapts s'' :=
  ⟨h.toGrows.trans h'.toGrows, h'.store.trans h.store, h'.initialCall.trans h.initialCall,
    h'.keys.trans h.keys⟩

theorem complete (h : s.Adapts s') (hc : s.Complete) : s'.Complete where
  learners c hc' := by
    rw [h.store] at hc'
    rw [h.keys]
    exact hc.learners c hc'
  usable c hc' := by
    rw [h.store] at hc'
    exact h.usable c (hc.usable c hc')

end Adapts

/-- Something new was learned: a call is usable, a procedure has a learner, or a table has more base
words. -/
inductive Gains (s s' : TableSession α) : Prop where
  | usable (c : α) (before : ¬ s.Usable c) (after : s'.Usable c)
  | learner (c : α) (before : c ∉ s.learners.keys) (after : c ∈ s'.learners.keys)
  | base (c : α) {l l' : ObservationTable (LocalSymbol α)} (before : s.learners.get? c = some l)
      (after : s'.learners.get? c = some l') (lt : l.base.length < l'.base.length)

/-- What was gained on the way is gained. -/
theorem Gains.mono {s₀ s s' s'' : TableSession α} (h : s.Gains s') (h₀ : s₀.Grows s)
    (h' : s'.Grows s'') : s₀.Gains s'' := by
  cases h with
  | usable c before after => exact .usable c (fun h => before (h₀.usable c h)) (h'.usable c after)
  | learner c before after => exact .learner c (fun h => before (h₀.keys h)) (h'.keys after)
  | @base c l l' before after lt =>
    obtain ⟨l'', hl'', hgrows'⟩ := h'.learners c l' after
    cases hl₀ : s₀.learners.get? c with
    | none =>
      exact .learner c (AssocMap.get?_eq_none_iff.1 hl₀) (AssocMap.mem_keys_iff.2 ⟨l'', hl''⟩)
    | some l₀ =>
      obtain ⟨k, hk, hgrows⟩ := h₀.learners c l₀ hl₀
      cases before.symm.trans hk
      have hle := hgrows.base.length_le
      have hle' := hgrows'.base.length_le
      exact .base c hl₀ hl'' (by omega)

/-- A part of learning that answers whether it has changed something. It keeps the session sound and
complete and what it knows, and the session has gained something if that is the answer. -/
structure Advances (T : System α β) (limit : Nat) (s : TableSession α) (changed : Bool)
    (s' : TableSession α) : Prop where
  sound : s'.Sound T limit
  complete : s.Complete → s'.Complete
  grows : s.Grows s'
  gains : changed = true → s.Gains s'

variable {T : System α β} {limit : Nat} {s s' s'' : TableSession α}

theorem Advances.refl (hs : s.Sound T limit) : s.Advances T limit false s where
  sound := hs
  complete hc := hc
  grows := .refl s
  gains h := absurd h Bool.false_ne_true

theorem Advances.trans {b b' : Bool} (h : s.Advances T limit b s')
    (h' : s'.Advances T limit b' s'') : s.Advances T limit (b || b') s'' where
  sound := h'.sound
  complete hc := h'.complete (h.complete hc)
  grows := h.grows.trans h'.grows
  gains hb := by
    rcases Bool.or_eq_true_iff.1 hb with hb | hb
    · exact (h.gains hb).mono (.refl s) h'.grows
    · exact (h'.gains hb).mono h.grows (.refl s'')

theorem Adapts.advances {b : Bool} (h : s.Adapts s') (hs' : s'.Sound T limit)
    (hgains : b = true → s.Gains s') : s.Advances T limit b s' where
  sound := hs'
  complete := h.complete
  grows := h.toGrows
  gains := hgains

/-- No call is usable at the beginning. -/
theorem not_usable_start (A : Alphabet α) (preference : Preference) (c : α) :
    ¬ (start A preference : TableSession α).Usable c := by
  intro h
  have hget := AssocMap.get?_ofList_map A.symbols (LocalAlphabet.first A) c
  have h' : some (LocalSymbol.call c true) = _ := h.symm.trans hget
  split at h'
  · rw [LocalAlphabet.first] at h'
    split at h' <;> exact absurd h' (by simp)
  · cases h'

theorem sound_start (T : System α β) (limit : Nat) (preference : Preference) :
    Sound T limit (start T.alphabet preference) where
  alphabet := rfl
  store := ⟨rfl, fun c u h => by simp [start, SequenceStore.empty] at h,
    fun c t h => by simp [start, SequenceStore.empty] at h⟩
  fits := .ofAlphabet T.alphabet
  usable c h := absurd h (not_usable_start T.alphabet preference c)
  learns c l h := by simp [start] at h
  current c l a x h := by simp [start] at h
  initialCall h := absurd rfl h

theorem complete_start (A : Alphabet α) (preference : Preference) :
    Complete (start A preference : TableSession α) where
  learners c h := by simp [start, SequenceStore.empty] at h
  usable c h := by simp [start, SequenceStore.empty] at h

/-- Questions about the current local symbols can be put to the oracle. -/
theorem Sound.askable (hs : s.Sound T limit) : s.store.Askable s.localAlphabet.symbols where
  proper x hx := by
    rw [hs.store.alphabet]
    exact (hs.fits.symbol_eq (hs.fits.exists_get?_of_mem hx)).2
  usable c hc := hs.usable c (hs.fits.exists_get?_of_mem hc)

/-- A session stays sound if a procedure gets a learner that knows the current local symbols. -/
theorem Sound.insert (hs : s.Sound T limit) (hi : s.initialCall = T.initialCall) {c : α}
    {l : ObservationTable (LocalSymbol α)} (hlearns : Learns T s.store limit c l)
    (hcurrent : ∀ a x, s.localAlphabet.get? a = some x → x ∈ l.alphabet)
    (events : List (SessionEvent α)) :
    Sound T limit { s with learners := s.learners.insert c l, events } where
  alphabet := hs.alphabet
  store := hs.store
  fits := hs.fits
  usable := hs.usable
  learns d k hk := by
    rw [AssocMap.get?_insert] at hk
    split at hk
    · next hdc =>
      cases hk
      exact hdc ▸ hlearns
    · exact hs.learns d k hk
  current d k a x hk hx := by
    rw [AssocMap.get?_insert] at hk
    split at hk
    · cases hk
      exact hcurrent a x hx
    · exact hs.current d k a x hk hx
  initialCall _ := hi

/-- The session with another store, which shows this initial call. -/
def withStore (s : TableSession α) (S : SequenceStore α) (i : Option α) : TableSession α :=
  { s with store := S, initialCall := i }

theorem grows_withStore (s : TableSession α) (S : SequenceStore α) (i : Option α) :
    s.Grows (s.withStore S i) :=
  ⟨fun _ h => h, fun _ l h => ⟨l, h, .refl l⟩⟩

/-- A session stays sound if more sequences are known. -/
theorem Sound.withStore (hs : s.Sound T limit) {S : SequenceStore α} (hS : S.Genuine T)
    (ha : ∀ c ∈ s.store.access.keys, c ∈ S.access.keys)
    (ht : ∀ c ∈ s.store.terminating.keys, c ∈ S.terminating.keys) {i : Option α}
    (hi : i = T.initialCall) : (s.withStore S i).Sound T limit where
  alphabet := hs.alphabet
  store := hS
  fits := hs.fits
  usable c hc := ht c (hs.usable c hc)
  learns c l hl := (hs.learns c l hl).of_le (hS.alphabet.trans hs.store.alphabet.symm) ha ht
  current := hs.current
  initialCall _ := hi

/-- A usable call can be entered. -/
theorem Sound.exists_entry (hs : s.Sound T limit) {c : α} (hc : s.Usable c) :
    ∃ q, T.entry? c = some q := by
  obtain ⟨t, ht⟩ := AssocMap.mem_keys_iff.1 (hs.usable c hc)
  obtain ⟨q, hq, _⟩ := (hs.store.terminating c t ht).2
  exact ⟨q, hq⟩

/-- The current local symbols belong to the alphabet of every table. -/
theorem Sound.localWord_subset (hs : s.Sound T limit) {c : α}
    {l : ObservationTable (LocalSymbol α)} (hl : s.learners.get? c = some l) {u : List α}
    {v : List (LocalSymbol α)} (hv : s.localAlphabet.localWord? u = some v) : v ⊆ l.alphabet :=
  LocalAlphabet.subset_of_localWord? (fun a x hx => hs.current c l a x hl hx) hv

end Session

end BehavioralAutomata
