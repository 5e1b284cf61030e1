import BehavioralAutomata.Proofs.Learning.Iteration

/-!
# What learning does to a session, change by change

Nothing is said here of the answers of the oracle.

* `Session.Change`: the ways in which a session changes while it learns from a word.
* `Session.Outstanding`: what is still to be done for the sequences that are known.
* `Session.changes_of_refine`: learning that does not fail is a sequence of such changes, and nothing is
  outstanding behind it.
-/

namespace BehavioralAutomata.Session

open Relation (ReflTransGen)

variable {α : Type} [DecidableEq α]

/-- One change of a session that learns from the word `q`. -/
inductive Change (ask : List α → Except (LearningError α) Bool) (limit : Nat) (q : LabelledWord α) :
    TableSession α → TableSession α → Prop where
  /-- An accepted word shows sequences. -/
  | shown {s : TableSession α} {found : Discoveries α} {S : SequenceStore α}
      (accepted : q.accepted = true) (nonempty : q.word ≠ [])
      (scan : s.store.scan q.word = (found, S)) :
      Change ask limit q s (s.withStore S q.word.head?)
  /-- A call becomes usable, and all learners get it. -/
  | grown {s : TableSession α} {c : α} {M : AssocMap α (ObservationTable (LocalSymbol α))}
      (known : c ∈ s.store.terminating.keys) (unusable : ¬ s.Usable c)
      (grow : s.learners.keys.foldlM (growLearner ask s.store (.call c true)) s.learners = .ok M) :
      Change ask limit q s (s.withSymbol (.call c true) M)
  /-- A procedure gets a learner. -/
  | discovered {s : TableSession α} {c : α} {l : ObservationTable (LocalSymbol α)}
      (known : c ∈ s.store.access.keys) (fresh : c ∉ s.learners.keys)
      (start : LocalLearning.start (s.store.askLocal ask c)
        (firstTable limit c s.localAlphabet.symbols) = Except.ok l) :
      Change ask limit q s (s.withNewLearner c l)
  /-- The hypothesis of a learner is searched for terminating sequences. -/
  | searched {s : TableSession α} {c : α} {l : ObservationTable (LocalSymbol α)} {out : List α}
      {S : SequenceStore α} (learner : s.learners.get? c = some l)
      (search : s.store.scanHypotheses [(c, l.hypothesis)]
        (fun d => (s.learners.get? d).map ObservationTable.representative) l.alphabet = (out, S)) :
      Change ask limit q s (s.withStore S s.initialCall)
  /-- A learner uses its part of a word that is mislabelled. -/
  | resolved {s : TableSession α} {c : α} {l l' : ObservationTable (LocalSymbol α)}
      {v : LabelledWord (LocalSymbol α)} (wrong : s.agrees q = false)
      (blamed : s.localCounterexample q = .ok (c, v)) (learner : s.learners.get? c = some l)
      (refine : LocalLearning.refine (s.store.askLocal ask c) v l = Except.ok (true, l')) :
      Change ask limit q s (s.withLearner c l')
  /-- A learner uses a word that it accepts although it goes on behind a return. -/
  | repaired {s : TableSession α} {c : α} {l l' : ObservationTable (LocalSymbol α)}
      {v : LabelledWord (LocalSymbol α)} (learner : s.learners.get? c = some l)
      (violation : LocalLearner.violation? l = some v)
      (refine : LocalLearning.refine (s.store.askLocal ask c) v l = Except.ok (true, l')) :
      Change ask limit q s (s.withLearner c l')

/-- The sequences that are known have been taken into account, apart from the calls `calls` that are
still to get learners and the calls `terms` that are still to become usable. -/
structure Outstanding (s : TableSession α) (calls terms : List α) : Prop where
  alphabet : s.store.alphabet = s.alphabet
  fits : s.localAlphabet.Fits s.alphabet
  access_isCall : ∀ c ∈ s.store.access.keys, s.alphabet.kind? c = some .call
  terminating_isCall : ∀ c ∈ s.store.terminating.keys, s.alphabet.kind? c = some .call
  nodup : calls.Nodup
  fresh : ∀ c ∈ calls, c ∉ s.learners.keys
  learners : ∀ c, c ∈ s.store.access.keys ↔ c ∈ s.learners.keys ∨ c ∈ calls
  usable : ∀ c, c ∈ s.store.terminating.keys ↔ s.Usable c ∨ c ∈ terms

variable {ask : List α → Except (LearningError α) Bool} {limit : Nat} {q : LabelledWord α}
  {s s' : TableSession α} {c : α} {calls terms : List α}

/-- Nothing is outstanding at the beginning, because nothing is known. -/
theorem outstanding_start (A : Alphabet α) (preference : Preference) :
    (start A preference : TableSession α).Outstanding [] [] where
  alphabet := rfl
  fits := .ofAlphabet A
  access_isCall := List.forall_mem_nil _
  terminating_isCall := List.forall_mem_nil _
  nodup := .nil
  fresh := List.forall_mem_nil _
  learners _ := (or_iff_left List.not_mem_nil).symm
  usable c := iff_of_false List.not_mem_nil fun h =>
    h.elim (not_usable_start A preference c) List.not_mem_nil

/-! ## Usable calls -/

namespace Outstanding

/-- A known call becomes usable. -/
theorem withSymbol (h : s.Outstanding calls (c :: terms))
    {M : AssocMap α (ObservationTable (LocalSymbol α))} (hM : M.keys = s.learners.keys) :
    (s.withSymbol (.call c true) M).Outstanding calls terms where
  __ := h
  fits := h.fits.set (h.terminating_isCall c ((h.usable c).2 (.inr List.mem_cons_self)))
  fresh d hd := hM ▸ h.fresh d hd
  learners d := by
    rw [Session.withSymbol, hM]
    exact h.learners d
  usable d := by
    have hget := LocalAlphabet.Fits.get?_set s.localAlphabet c d
    have hd := h.usable d
    rw [List.mem_cons] at hd
    rw [Usable, Session.withSymbol, hget]
    by_cases hdc : d = c
    · subst hdc
      simp [hd.2 (.inr (.inl rfl))]
    · rw [if_neg hdc]
      exact hd.trans (or_congr_right (or_iff_right hdc))

/-- A call that is usable already needs not become it. -/
theorem tail (h : s.Outstanding calls (c :: terms)) (hc : s.Usable c) :
    s.Outstanding calls terms where
  __ := h
  usable d := by
    rw [h.usable d, List.mem_cons]
    constructor
    · rintro (hd | rfl | hd)
      · exact .inl hd
      · exact .inl hc
      · exact .inr hd
    · exact Or.imp_right .inr

end Outstanding

theorem keys_growLearner {S : SequenceStore α} {x : LocalSymbol α}
    {M M' : AssocMap α (ObservationTable (LocalSymbol α))}
    (h : growLearner ask S x M c = .ok M') : M'.keys = M.keys := by
  rw [growLearner] at h
  cases hl : M.get? c with
  | none =>
    rw [hl] at h
    cases h
    rfl
  | some l =>
    rw [hl] at h
    obtain ⟨l', _, hM'⟩ := exists_of_bind_eq_ok h
    cases hM'
    exact (AssocMap.keys_insert M c l').trans (if_pos (AssocMap.mem_keys_iff.2 ⟨l, hl⟩))

/-- A loop that gives learners a symbol keeps their procedures. -/
theorem keys_growLearners {S : SequenceStore α} {x : LocalSymbol α} {cs : List α}
    {M M' : AssocMap α (ObservationTable (LocalSymbol α))}
    (h : cs.foldlM (growLearner ask S x) M = .ok M') : M'.keys = M.keys := by
  induction cs generalizing M with
  | nil =>
    cases h
    rfl
  | cons c cs ih =>
    rw [List.foldlM_cons] at h
    obtain ⟨M₁, h₁, h⟩ := exists_of_bind_eq_ok h
    exact (ih h).trans (keys_growLearner h₁)

variable (limit q) in
theorem changes_of_makeUsable (h : s.Outstanding calls (c :: terms)) {b : Bool}
    (hrun : makeUsable ask s c = .ok (b, s')) :
    ReflTransGen (Change ask limit q) s s' ∧ s'.Outstanding calls terms ∧
      (b = false → s' = s) := by
  have hknown := (h.usable c).2 (.inr List.mem_cons_self)
  obtain ⟨usable, hget⟩ := h.fits.call c (h.terminating_isCall c hknown)
  rw [makeUsable, hget] at hrun
  cases usable with
  | true =>
    cases hrun
    exact ⟨.refl, h.tail hget, fun _ => rfl⟩
  | false =>
    obtain ⟨r, hgrow, hr⟩ := exists_of_bind_eq_ok hrun
    cases hr
    rw [growAll] at hgrow
    obtain ⟨M, hM, hs'⟩ := exists_of_bind_eq_ok hgrow
    cases hs'
    have hnot : ¬ s.Usable c := by
      rw [Usable, hget]
      rintro ⟨⟩
    exact ⟨.single (.grown hknown hnot hM), h.withSymbol (keys_growLearners hM), by rintro ⟨⟩⟩

variable (limit q) in
theorem changes_of_makeAllUsable (h : s.Outstanding calls terms) {b : Bool}
    (hrun : makeAllUsable ask terms s = .ok (b, s')) :
    ReflTransGen (Change ask limit q) s s' ∧ s'.Outstanding calls [] ∧ (b = false → s' = s) := by
  induction terms generalizing s b with
  | nil =>
    cases hrun
    exact ⟨.refl, h, fun _ => rfl⟩
  | cons c terms ih =>
    rw [makeAllUsable] at hrun
    obtain ⟨⟨b₁, s₁⟩, h₁, hrun⟩ := exists_of_bind_eq_ok hrun
    obtain ⟨⟨b₂, s₂⟩, h₂, hrun⟩ := exists_of_bind_eq_ok hrun
    cases hrun
    obtain ⟨hsteps₁, hout₁, hsame₁⟩ := changes_of_makeUsable limit q h h₁
    obtain ⟨hsteps₂, hout₂, hsame₂⟩ := ih hout₁ h₂
    refine ⟨hsteps₁.trans hsteps₂, hout₂, fun hb => ?_⟩
    rw [Bool.or_eq_false_iff] at hb
    exact (hsame₂ hb.2).trans (hsame₁ hb.1)

/-! ## New learners -/

namespace Outstanding

/-- A known procedure gets its first learner. -/
theorem withNewLearner (h : s.Outstanding (c :: calls) terms)
    (l : ObservationTable (LocalSymbol α)) : (s.withNewLearner c l).Outstanding calls terms where
  __ := h
  nodup := (List.nodup_cons.1 h.nodup).2
  fresh d hd := by
    rw [Session.withNewLearner, AssocMap.mem_keys_insert]
    rintro (rfl | hl)
    · exact (List.nodup_cons.1 h.nodup).1 hd
    · exact h.fresh d (List.mem_cons_of_mem c hd) hl
  learners d := by
    rw [Session.withNewLearner, AssocMap.mem_keys_insert]
    refine (h.learners d).trans ?_
    rw [List.mem_cons, or_left_comm, or_assoc]

/-- A search may leave a new terminating sequence of the procedure that is searched. -/
theorem searched (h : s.Outstanding calls []) {S : SequenceStore α} {used : Bool}
    (himproves : SequenceStore.Improves s.store S c used)
    (hc : s.alphabet.kind? c = some .call) :
    (s.withStore S s.initialCall).Outstanding calls (if used then [c] else []) where
  __ := h
  alphabet := himproves.alphabet.trans h.alphabet
  access_isCall d hd := h.access_isCall d (himproves.access ▸ hd)
  terminating_isCall d hd := by
    rcases (himproves.terminating d).1 hd with hd | ⟨_, rfl⟩
    · exact h.terminating_isCall d hd
    · exact hc
  learners d := by
    rw [withStore, himproves.access]
    exact h.learners d
  usable d := by
    have hd := h.usable d
    rw [or_iff_left List.not_mem_nil] at hd
    refine (himproves.terminating d).trans (or_congr hd ?_)
    cases used <;> simp

end Outstanding

theorem exists_of_discover {create : α → List (LocalSymbol α) → ObservationTable (LocalSymbol α)}
    (h : discover ask create s c = .ok s') :
    ∃ l, LocalLearning.start (s.store.askLocal ask c) (create c s.localAlphabet.symbols) =
      Except.ok l ∧ s' = s.withNewLearner c l := by
  rw [discover] at h
  obtain ⟨l, hl, h⟩ := exists_of_bind_eq_ok h
  cases h
  exact ⟨l, hl, rfl⟩

variable (q) in
/-- When a procedure has its learner and the hypothesis is searched, some calls are still to become
usable. -/
theorem discoverAndSearch_eq (h : s.Outstanding (c :: calls) [])
    {l : ObservationTable (LocalSymbol α)}
    (hl : LocalLearning.start (s.store.askLocal ask c) (firstTable limit c s.localAlphabet.symbols) =
      Except.ok l) :
    ∃ s₁ terms, discoverAndSearch ask (firstTable limit) s c =
        (makeAllUsable ask terms s₁).map Prod.snd ∧
      ReflTransGen (Change ask limit q) s s₁ ∧ s₁.Outstanding calls terms := by
  have hknown := (h.learners c).2 (.inr List.mem_cons_self)
  have hget : (s.withNewLearner c l).learners.get? c = some l := by
    rw [withNewLearner, AssocMap.get?_insert, if_pos rfl]
  have hdiscover : discover ask (firstTable limit) s c = pure (s.withNewLearner c l) := by
    rw [discover, hl]
    rfl
  rcases hx : (s.withNewLearner c l).store.scanHypotheses [(c, LocalLearner.hypothesis l)]
    (fun d => ((s.withNewLearner c l).learners.get? d).map LocalLearner.representative)
    (LocalLearner.inputs l) with ⟨out, S⟩
  obtain ⟨used, himproves, rfl⟩ := SequenceStore.scanHypotheses_improves hx
  refine ⟨(s.withNewLearner c l).withStore S s.initialCall, _, ?_, ?_,
    (h.withNewLearner l).searched himproves (h.access_isCall c hknown)⟩
  · rw [discoverAndSearch, hdiscover, pure_bind, hget]
    simp only [hx]
    exact (map_eq_pure_bind Prod.snd _).symm
  · exact .head (.discovered hknown (h.fresh c List.mem_cons_self) hl) (.single (.searched hget hx))

theorem changes_of_discoverAndSearch (h : s.Outstanding (c :: calls) [])
    (hrun : discoverAndSearch ask (firstTable limit) s c = .ok s') :
    ReflTransGen (Change ask limit q) s s' ∧ s'.Outstanding calls [] := by
  have hdiscover := hrun
  rw [discoverAndSearch] at hdiscover
  obtain ⟨_, h₁, _⟩ := exists_of_bind_eq_ok hdiscover
  obtain ⟨l, hl, _⟩ := exists_of_discover h₁
  obtain ⟨s₁, terms, heq, hsteps₁, hout₁⟩ := discoverAndSearch_eq q h hl
  obtain ⟨⟨b, s₂⟩, h₂, rfl⟩ := exists_of_map_eq_ok (heq ▸ hrun)
  obtain ⟨hsteps₂, hout₂, _⟩ := changes_of_makeAllUsable limit q hout₁ h₂
  exact ⟨hsteps₁.trans hsteps₂, hout₂⟩

theorem changes_of_discoverAll (h : s.Outstanding calls [])
    (hrun : calls.foldlM (discoverAndSearch ask (firstTable limit)) s = .ok s') :
    ReflTransGen (Change ask limit q) s s' ∧ s'.Outstanding [] [] := by
  induction calls generalizing s with
  | nil =>
    cases hrun
    exact ⟨.refl, h⟩
  | cons c calls ih =>
    rw [List.foldlM_cons] at hrun
    obtain ⟨s₁, h₁, hrun⟩ := exists_of_bind_eq_ok hrun
    obtain ⟨hsteps₁, hout₁⟩ := changes_of_discoverAndSearch (q := q) h h₁
    obtain ⟨hsteps, hout⟩ := ih hout₁ hrun
    exact ⟨hsteps₁.trans hsteps, hout⟩

/-! ## Accepted words -/

/-- The calls of a word whose sequences are recorded are to be taken into account. -/
theorem Outstanding.shown (h : s.Outstanding [] []) {w : List α} {found : Discoveries α}
    {S : SequenceStore α} (hscan : s.store.scan w = (found, S)) (i : Option α) :
    (s.withStore S i).Outstanding found.calls found.terminations := by
  obtain ⟨hrecords, _⟩ := SequenceStore.scan_records hscan
  obtain ⟨calls, hcalls, hnodup, hfresh, haccess⟩ := hrecords.access
  obtain ⟨terms, hterms, hterminating⟩ := hrecords.terminating
  rw [List.nil_append] at hcalls hterms
  subst hcalls hterms
  have hshown := s.store.scan_shown w
  rw [hscan] at hshown
  obtain ⟨haccess_isCall, hterminating_isCall⟩ := SequenceStore.isCall_of_shown h.alphabet
    h.access_isCall h.terminating_isCall hshown
  have hlearners : ∀ c, c ∈ s.store.access.keys ↔ c ∈ s.learners.keys := fun c =>
    (h.learners c).trans (or_iff_left List.not_mem_nil)
  have husable : ∀ c, c ∈ s.store.terminating.keys ↔ s.Usable c := fun c =>
    (h.usable c).trans (or_iff_left List.not_mem_nil)
  exact {
    alphabet := hrecords.alphabet.trans h.alphabet
    fits := h.fits
    access_isCall := haccess_isCall
    terminating_isCall := hterminating_isCall
    nodup := hnodup
    fresh := fun c hc hl => hfresh c hc ((hlearners c).2 hl)
    learners := fun c => (haccess c).trans (or_congr_left (hlearners c))
    usable := fun c => (hterminating c).trans (or_congr_left (husable c)) }

/-- A change keeps all sequences or replaces them. -/
theorem Change.keys_subset (h : Change ask limit q s s') :
    s.store.access.keys ⊆ s'.store.access.keys ∧
      s.store.terminating.keys ⊆ s'.store.terminating.keys := by
  cases h with
  | shown _ _ hscan =>
    obtain ⟨hrecords, _⟩ := SequenceStore.scan_records hscan
    exact ⟨fun _ => hrecords.access_mono, fun _ => hrecords.terminating_mono⟩
  | searched _ hsearch =>
    obtain ⟨_, himproves, _⟩ := SequenceStore.scanHypotheses_improves hsearch
    exact ⟨fun _ hd => himproves.access ▸ hd, fun _ hd => (himproves.terminating _).2 (.inl hd)⟩
  | grown => exact ⟨List.Subset.refl _, List.Subset.refl _⟩
  | discovered => exact ⟨List.Subset.refl _, List.Subset.refl _⟩
  | resolved => exact ⟨List.Subset.refl _, List.Subset.refl _⟩
  | repaired => exact ⟨List.Subset.refl _, List.Subset.refl _⟩

theorem keys_subset_of_changes (h : ReflTransGen (Change ask limit q) s s') :
    s.store.access.keys ⊆ s'.store.access.keys ∧
      s.store.terminating.keys ⊆ s'.store.terminating.keys := by
  induction h with
  | refl => exact ⟨List.Subset.refl _, List.Subset.refl _⟩
  | tail _ hstep ih =>
    exact ⟨List.Subset.trans ih.1 hstep.keys_subset.1, List.Subset.trans ih.2 hstep.keys_subset.2⟩

/-- What an accepted word shows is taken into account in three parts. A rejected word shows nothing. -/
theorem extract_parts {create : α → List (LocalSymbol α) → ObservationTable (LocalSymbol α)} {b : Bool}
    (h : extract ask create s q = .ok (b, s')) :
    (q.accepted = true ∧ ∃ found S b₁ s₁, s.store.scan q.word = (found, S) ∧
      makeAllUsable ask found.terminations (s.withStore S q.word.head?) = .ok (b₁, s₁) ∧
      found.calls.foldlM (discoverAndSearch ask create) s₁ = .ok s' ∧
      b = (b₁ || !found.calls.isEmpty)) ∨
    q.accepted = false ∧ b = false ∧ s' = s := by
  rw [extract] at h
  split at h
  · next hacc =>
    rcases hscan : s.store.scan q.word with ⟨found, S⟩
    simp only [hscan] at h
    obtain ⟨⟨b₁, s₁⟩, h₁, h⟩ := exists_of_bind_eq_ok h
    obtain ⟨s₂, h₂, h⟩ := exists_of_bind_eq_ok h
    cases h
    exact .inl ⟨hacc, found, S, b₁, s₁, rfl, h₁, h₂, rfl⟩
  · next hacc =>
    cases h
    exact .inr ⟨Bool.eq_false_iff.2 hacc, rfl, rfl⟩

theorem changes_of_extract (h : s.Outstanding [] []) (hne : q.word ≠ []) {b : Bool}
    (hrun : extract ask (firstTable limit) s q = .ok (b, s')) :
    ReflTransGen (Change ask limit q) s s' ∧ s'.Outstanding [] [] ∧ (q.accepted = true →
      (∀ c ∈ q.word, s.alphabet.kind? c = some .call → c ∈ s'.learners.keys) ∧
      ∀ c, s.alphabet.kind? c = some .call → s.alphabet.Invokes q.word c → s'.Usable c) := by
  rcases extract_parts hrun with ⟨hacc, found, S, b₁, s₁, hscan, h₁, h₂, _⟩ | ⟨hacc, _, rfl⟩
  · have hout := h.shown hscan q.word.head?
    obtain ⟨hsteps₁, hout₁, _⟩ := changes_of_makeAllUsable limit q hout h₁
    obtain ⟨hsteps₂, hout₂⟩ := changes_of_discoverAll (q := q) hout₁ h₂
    have hsteps := hsteps₁.trans hsteps₂
    obtain ⟨haccess, hterminating⟩ := keys_subset_of_changes hsteps
    obtain ⟨_, hcalls, hinvokes⟩ := SequenceStore.scan_records hscan
    rw [h.alphabet] at hcalls hinvokes
    refine ⟨.head (.shown hacc hne hscan) hsteps, hout₂, fun _ => ⟨fun c hc hk => ?_,
      fun c hk hinv => ?_⟩⟩
    · exact ((hout₂.learners c).1 (haccess (hcalls c hc hk))).resolve_right List.not_mem_nil
    · exact ((hout₂.usable c).1 (hterminating (hinvokes c hk hinv))).resolve_right List.not_mem_nil
  · exact ⟨.refl, h, fun hacc' => absurd hacc' (Bool.eq_false_iff.1 hacc)⟩

/-! ## Counterexamples -/

/-- What is outstanding is not a matter of what the tables hold. -/
theorem Outstanding.withLearner (h : s.Outstanding calls terms)
    {l : ObservationTable (LocalSymbol α)} (hl : s.learners.get? c = some l)
    (l' : ObservationTable (LocalSymbol α)) : (s.withLearner c l').Outstanding calls terms := by
  have hkeys : (s.withLearner c l').learners.keys = s.learners.keys :=
    (AssocMap.keys_insert s.learners c l').trans (if_pos (AssocMap.mem_keys_iff.2 ⟨l, hl⟩))
  exact { h with
    fresh := fun d hd => hkeys ▸ h.fresh d hd
    learners := fun d => hkeys ▸ h.learners d }

theorem exists_of_refineLocal (h : refineLocal ask s q = .ok s') :
    ∃ c v l l', s.localCounterexample q = .ok (c, v) ∧ s.learners.get? c = some l ∧
      LocalLearning.refine (s.store.askLocal ask c) v l = Except.ok (true, l') ∧
      s' = s.withLearner c l' := by
  rw [refineLocal] at h
  cases hlocal : s.localCounterexample q with
  | error e =>
    rw [hlocal] at h
    cases h
  | ok r =>
    obtain ⟨c, v⟩ := r
    simp only [hlocal] at h
    cases hl : s.learners.get? c with
    | none =>
      rw [hl] at h
      cases h
    | some l =>
      simp only [hl] at h
      obtain ⟨⟨used, l'⟩, hrefine, h⟩ := exists_of_bind_eq_ok h
      cases used with
      | false => cases h
      | true =>
        cases h
        exact ⟨c, v, l, l', rfl, hl, hrefine, rfl⟩

variable (limit) in
theorem changes_of_resolve (h : s.Outstanding calls terms) {n : Nat} {b : Bool}
    (hrun : resolve ask q n s = .ok (b, s')) :
    ReflTransGen (Change ask limit q) s s' ∧ s'.Outstanding calls terms := by
  have houtcome : Outcome
      (fun t => ReflTransGen (Change ask limit q) s t ∧ t.Outstanding calls terms) (fun _ => True)
      ((resolve ask q n s).map Prod.snd) := by
    apply outcome_of_budget (fun n s => (resolve ask q n s).map Prod.snd)
      (fun t => ReflTransGen (Change ask limit q) s t ∧ t.Outstanding calls terms) resolve_succ _ _ _
      ⟨.refl, h⟩
    · intro t ht
      rcases resolve_zero_cases ask q t with hzero | ⟨e, hzero, _⟩ <;> rw [hzero]
      · exact ht
      · trivial
    · rintro t u ⟨hsteps, hout⟩ hround
      obtain ⟨hno, hu⟩ := exists_of_resolveStep hround
      obtain ⟨c, v, l, l', hlocal, hl, hrefine, rfl⟩ := exists_of_refineLocal hu
      exact ⟨hsteps.tail (.resolved hno hlocal hl hrefine), hout.withLearner hl l'⟩
    · intro t r ht hround
      cases resolveRound_of_eq hround with
      | agrees => exact ht
      | failed => trivial
  exact houtcome.of_eq_ok (by rw [hrun]; rfl)

variable (limit q) in
theorem changes_of_repair (h : s.Outstanding calls terms) {n : Nat} {b : Bool}
    (hrun : repair ask c n s = .ok (b, s')) :
    ReflTransGen (Change ask limit q) s s' ∧ s'.Outstanding calls terms := by
  have houtcome : Outcome
      (fun t => ReflTransGen (Change ask limit q) s t ∧ t.Outstanding calls terms) (fun _ => True)
      ((repair ask c n s).map Prod.snd) := by
    apply outcome_of_budget (fun n s => (repair ask c n s).map Prod.snd)
      (fun t => ReflTransGen (Change ask limit q) s t ∧ t.Outstanding calls terms) repair_succ _ _ _
      ⟨.refl, h⟩
    · intro t ht
      rcases repair_zero_cases ask c t with hzero | hzero <;> rw [hzero]
      · exact ht
      · trivial
    · rintro t u ⟨hsteps, hout⟩ hround
      obtain ⟨l, v, l', hl, hv, hrefine, rfl⟩ := exists_of_repairStep hround
      exact ⟨hsteps.tail (.repaired hl hv hrefine), hout.withLearner hl l'⟩
    · intro t r ht hround
      cases repairRound_of_eq hround with
      | closed => exact ht
      | unused | failed => trivial
  exact houtcome.of_eq_ok (by rw [hrun]; rfl)

variable (limit q) in
theorem changes_of_repairAll (h : s.Outstanding calls terms) {cs : List α} {b : Bool}
    (hrun : repairAll ask cs s = .ok (b, s')) :
    ReflTransGen (Change ask limit q) s s' ∧ s'.Outstanding calls terms := by
  induction cs generalizing s b with
  | nil =>
    cases hrun
    exact ⟨.refl, h⟩
  | cons c cs ih =>
    rw [repairAll] at hrun
    obtain ⟨⟨b₁, s₁⟩, h₁, hrun⟩ := exists_of_bind_eq_ok hrun
    obtain ⟨⟨b₂, s₂⟩, h₂, hrun⟩ := exists_of_bind_eq_ok hrun
    cases hrun
    obtain ⟨hsteps₁, hout₁⟩ := changes_of_repair limit q h h₁
    obtain ⟨hsteps₂, hout₂⟩ := ih hout₁ h₂
    exact ⟨hsteps₁.trans hsteps₂, hout₂⟩

/-- Learning from a word changes a session step by step and leaves nothing outstanding. -/
theorem changes_of_refine (h : s.Outstanding [] []) {b : Bool}
    (hrun : s.refine ask (firstTable limit) q = .ok (b, s')) :
    ReflTransGen (Change ask limit q) s s' ∧ s'.Outstanding [] [] := by
  rw [refine] at hrun
  split at hrun
  · cases hrun
    exact ⟨.refl, h⟩
  · next hne =>
    obtain ⟨⟨b₁, s₁⟩, h₁, hrun⟩ := exists_of_bind_eq_ok hrun
    obtain ⟨⟨b₂, s₂⟩, h₂, hrun⟩ := exists_of_bind_eq_ok hrun
    obtain ⟨⟨b₃, s₃⟩, h₃, hrun⟩ := exists_of_bind_eq_ok hrun
    cases hrun
    obtain ⟨hsteps₁, hout₁, _⟩ := changes_of_extract h hne h₁
    obtain ⟨hsteps₂, hout₂⟩ := changes_of_resolve limit hout₁ h₂
    obtain ⟨hsteps₃, hout₃⟩ := changes_of_repairAll limit q hout₂ h₃
    exact ⟨(hsteps₁.trans hsteps₂).trans hsteps₃, hout₃⟩

end BehavioralAutomata.Session
