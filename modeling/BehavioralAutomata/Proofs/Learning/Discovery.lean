import BehavioralAutomata.Proofs.Learning.Limits
import BehavioralAutomata.Proofs.Learning.Sessions

/-!
# New symbols and new procedures

* `Session.makeAllUsable_spec`: calls become usable without failure.
* `Session.Discovers`, `Session.discoverAll_spec`: what is true when procedures have got learners.
-/

namespace BehavioralAutomata

variable {α : Type} {β : Type} [DecidableEq α] [DecidableEq β] {T : System α β} {limit : Nat}
  {m : Type → Type} [Monad m] [LawfulMonad m] [MonadExceptOf (LearningError α) m]
  {ask : List α → m Bool}

namespace Session

variable {s s' s'' : TableSession α}

/-! ## Usable calls -/

/-- The tables of the session, in which the procedures in `done` have been given the symbol `x`. -/
structure Grown (T : System α β) (limit : Nat) (s : TableSession α) (x : LocalSymbol α)
    (done : List α) (M : AssocMap α (ObservationTable (LocalSymbol α))) : Prop where
  keys : M.keys = s.learners.keys
  learners : ∀ c l, s.learners.get? c = some l → ∃ l', M.get? c = some l' ∧
    Learns T s.store limit c l' ∧ l.Grows l' ∧ (c ∈ done → x ∈ l'.alphabet)

/-- The session in which the symbol `x` is current and the procedures have the learners in `M`. -/
def withSymbol (s : TableSession α) (x : LocalSymbol α)
    (M : AssocMap α (ObservationTable (LocalSymbol α))) : TableSession α :=
  { s with
    localAlphabet := s.localAlphabet.set x
    learners := M
    events := s.events ++ [.grown x] }

namespace Grown

variable {x : LocalSymbol α} {done : List α} {M : AssocMap α (ObservationTable (LocalSymbol α))}

theorem start (hs : s.Sound T limit) (x : LocalSymbol α) : Grown T limit s x [] s.learners where
  keys := rfl
  learners c l hl := ⟨l, hl, hs.learns c l hl, .refl l, by rintro ⟨⟩⟩

theorem get? (h : Grown T limit s x s.learners.keys M) {c : α}
    {l' : ObservationTable (LocalSymbol α)} (hl' : M.get? c = some l') :
    ∃ l, s.learners.get? c = some l ∧ Learns T s.store limit c l' ∧ l.Grows l' ∧
      x ∈ l'.alphabet := by
  have hc : c ∈ s.learners.keys := h.keys ▸ AssocMap.mem_keys_iff.2 ⟨l', hl'⟩
  obtain ⟨l, hl⟩ := AssocMap.mem_keys_iff.1 hc
  obtain ⟨k, hk, hlearns, hgrows, hx⟩ := h.learners c l hl
  cases hl'.symm.trans hk
  exact ⟨l, hl, hlearns, hgrows, hx hc⟩

/-- One more procedure has been given the symbol. -/
theorem insert (h : Grown T limit s x done M) {c : α}
    {l l' : ObservationTable (LocalSymbol α)} (hl : M.get? c = some l)
    (hlearns : Learns T s.store limit c l') (hgrows : l.Grows l') (hx : x ∈ l'.alphabet) :
    Grown T limit s x (done ++ [c]) (M.insert c l') := by
  refine ⟨?_, fun d k hk => ?_⟩
  · rw [AssocMap.keys_insert, if_pos (AssocMap.mem_keys_iff.2 ⟨l, hl⟩), h.keys]
  · obtain ⟨k', hk', hlearns', hgrows', hd⟩ := h.learners d k hk
    rw [AssocMap.get?_insert]
    split
    · next hdc =>
      subst hdc
      cases hl.symm.trans hk'
      exact ⟨l', rfl, hlearns, hgrows'.trans hgrows, fun _ => hx⟩
    · next hdc =>
      refine ⟨k', hk', hlearns', hgrows', fun hmem => hd ?_⟩
      exact (List.mem_append.1 hmem).resolve_right fun h => hdc (List.mem_singleton.1 h)

theorem sound {c : α} (h : Grown T limit s (.call c true) s.learners.keys M)
    (hs : s.Sound T limit) (hc : c ∈ s.store.terminating.keys)
    (hk : T.alphabet.kind? c = some .call) : (s.withSymbol (.call c true) M).Sound T limit where
  alphabet := hs.alphabet
  store := hs.store
  fits := hs.fits.set hk
  usable d hd := by
    have hget := LocalAlphabet.Fits.get?_set s.localAlphabet c d
    rw [Usable, withSymbol, hget] at hd
    split at hd
    · next hdc => exact hdc ▸ hc
    · exact hs.usable d hd
  learns d l' hl' := by
    obtain ⟨_, _, hlearns, _⟩ := h.get? hl'
    exact hlearns
  current d l' a x hl' hx := by
    obtain ⟨l, hl, _, hgrows, hmem⟩ := h.get? hl'
    rw [withSymbol, LocalAlphabet.Fits.get?_set] at hx
    split at hx
    · cases hx
      exact hmem
    · exact hgrows.alphabet.subset (hs.current d l a x hl hx)
  initialCall hne := hs.initialCall (h.keys ▸ hne)

theorem usable (s : TableSession α) (c : α)
    (M : AssocMap α (ObservationTable (LocalSymbol α))) :
    (s.withSymbol (.call c true) M).Usable c := by
  rw [Usable, withSymbol, LocalAlphabet.Fits.get?_set, if_pos rfl]

theorem adapts {c : α} (h : Grown T limit s (.call c true) s.learners.keys M) :
    s.Adapts (s.withSymbol (.call c true) M) where
  usable d hd := by
    rw [Usable, withSymbol, LocalAlphabet.Fits.get?_set]
    split
    · next hdc => rw [hdc]
    · exact hd
  learners d l hl := by
    obtain ⟨l', hl', _, hgrows, _⟩ := h.learners d l hl
    exact ⟨l', hl', hgrows⟩
  store := rfl
  initialCall := rfl
  keys := h.keys

end Grown

section

variable (hask : ∀ v, ask v = pure (T.accepts v)) (hT : T.EntriesAccept)
  (hlimit : LimitSuffices T limit)

include hask hT hlimit

theorem Grown.growLearner {x : LocalSymbol α} {done : List α}
    {M : AssocMap α (ObservationTable (LocalSymbol α))} (h : Grown T limit s x done M)
    (hs : s.Sound T limit) (hx : s.store.Askable [x]) {c : α} (hc : c ∈ s.learners.keys) :
    ∃ M', Session.growLearner ask s.store x M c = (pure M' : m _) ∧
      Grown T limit s x (done ++ [c]) M' := by
  obtain ⟨l₀, hl₀⟩ := AssocMap.mem_keys_iff.1 hc
  obtain ⟨l, hl, hlearns, _, _⟩ := h.learners c l₀ hl₀
  obtain ⟨l', hl', hlearns', hgrows', hx'⟩ := hlearns.exists_grow hask hT hlimit hs.store hx
  refine ⟨M.insert c l', ?_, h.insert hl hlearns' hgrows' hx'⟩
  rw [Session.growLearner, hl]
  change (LocalLearning.grow (s.store.askLocal ask c) x l >>= fun l => pure (M.insert c l)) = _
  rw [hl', pure_bind]

theorem growAll_spec (hs : s.Sound T limit) {c : α} (hc : c ∈ s.store.terminating.keys) :
    ∃ s', growAll ask s (.call c true) = (pure s' : m _) ∧ s'.Sound T limit ∧ s.Adapts s' ∧
      s'.Usable c := by
  obtain ⟨hk, hx⟩ := hs.store.askable_call hc
  have step : ∀ done d rest M, s.learners.keys = done ++ d :: rest →
      Grown T limit s (.call c true) done M →
      ∃ M', growLearner ask s.store (.call c true) M d = (pure M' : m _) ∧
        Grown T limit s (.call c true) (done ++ [d]) M' := by
    intro done d rest M hkeys h
    have hd : d ∈ s.learners.keys := hkeys ▸ List.mem_append_right _ List.mem_cons_self
    exact h.growLearner hask hT hlimit hs hx hd
  obtain ⟨M, hM, hgrown⟩ := exists_foldlM_eq_pure step (.start hs _)
  refine ⟨s.withSymbol (.call c true) M, ?_, hgrown.sound hs hc hk, hgrown.adapts,
    Grown.usable s c M⟩
  rw [growAll, hM, pure_bind]
  rfl

/-- A call with a terminating sequence can be made usable. -/
theorem makeUsable_spec (hs : s.Sound T limit) {c : α} (hc : c ∈ s.store.terminating.keys) :
    ∃ b s', makeUsable ask s c = (pure (b, s') : m _) ∧ s.Advances T limit b s' ∧ s.Adapts s' ∧
      s'.Usable c ∧ (b = false → s' = s) := by
  obtain ⟨t, ht⟩ := AssocMap.mem_keys_iff.1 hc
  obtain ⟨usable, hget⟩ := hs.fits.call c (hs.store.terminating c t ht).1
  rw [makeUsable, hget]
  cases usable with
  | true => exact ⟨false, s, rfl, .refl hs, .refl s, hget, fun _ => rfl⟩
  | false =>
    have hnot : ¬ s.Usable c := by
      intro h
      rw [Usable, hget] at h
      cases h
    obtain ⟨s', hs', hsound, hadapts, husable⟩ := growAll_spec hask hT hlimit hs hc
    refine ⟨true, s', ?_, hadapts.advances hsound fun _ => .usable c hnot husable, hadapts, husable,
      by rintro ⟨⟩⟩
    change (growAll ask s (.call c true) >>= fun s => pure (true, s)) = _
    rw [hs', pure_bind]

theorem makeAllUsable_spec (hs : s.Sound T limit) {cs : List α}
    (hcs : ∀ c ∈ cs, c ∈ s.store.terminating.keys) :
    ∃ b s', makeAllUsable ask cs s = (pure (b, s') : m _) ∧ s.Advances T limit b s' ∧
      s.Adapts s' ∧ (∀ c ∈ cs, s'.Usable c) ∧ (b = false → s' = s) := by
  induction cs generalizing s with
  | nil => exact ⟨false, s, rfl, .refl hs, .refl s, by rintro _ ⟨⟩, fun _ => rfl⟩
  | cons c cs ih =>
    obtain ⟨b₁, s₁, h₁, hadvances₁, hadapts₁, husable₁, hsame₁⟩ :=
      makeUsable_spec hask hT hlimit hs (hcs c List.mem_cons_self)
    obtain ⟨b₂, s₂, h₂, hadvances₂, hadapts₂, husable₂, hsame₂⟩ :=
      ih hadvances₁.sound fun d hd => hadapts₁.store ▸ hcs d (List.mem_cons_of_mem _ hd)
    refine ⟨b₁ || b₂, s₂, ?_, hadvances₁.trans hadvances₂, hadapts₁.trans hadapts₂,
      fun d hd => ?_, fun h => ?_⟩
    · rw [makeAllUsable, h₁, pure_bind]
      change (makeAllUsable ask cs s₁ >>= _) = _
      rw [h₂, pure_bind]
    · rcases List.mem_cons.1 hd with rfl | hd
      · exact hadapts₂.usable d husable₁
      · exact husable₂ d hd
    · rw [Bool.or_eq_false_iff] at h
      exact (hsame₂ h.2).trans (hsame₁ h.1)

end

/-! ## New learners -/

/-- The calls `cs` have got learners. If the calls with terminating sequences were usable before, they
are usable now. -/
structure Discovers (T : System α β) (limit : Nat) (s : TableSession α) (cs : List α)
    (s' : TableSession α) : Prop where
  sound : s'.Sound T limit
  grows : s.Grows s'
  initialCall : s'.initialCall = s.initialCall
  access : s'.store.access = s.store.access
  keys : ∀ c, c ∈ s'.learners.keys ↔ c ∈ s.learners.keys ∨ c ∈ cs
  usable : (∀ c ∈ s.store.terminating.keys, s.Usable c) →
    ∀ c ∈ s'.store.terminating.keys, s'.Usable c
  eq_of_nil : cs = [] → s' = s

namespace Discovers

theorem refl (hs : s.Sound T limit) : s.Discovers T limit [] s where
  sound := hs
  grows := .refl s
  initialCall := rfl
  access := rfl
  keys c := by simp
  usable h := h
  eq_of_nil _ := rfl

theorem cons {c : α} {cs : List α} (h : s.Discovers T limit [c] s')
    (h' : s'.Discovers T limit cs s'') : s.Discovers T limit (c :: cs) s'' where
  sound := h'.sound
  grows := h.grows.trans h'.grows
  initialCall := h'.initialCall.trans h.initialCall
  access := h'.access.trans h.access
  keys e := by rw [h'.keys, h.keys, List.mem_singleton, List.mem_cons, or_assoc]
  usable hall := h'.usable (h.usable hall)
  eq_of_nil heq := by cases heq

end Discovers

/-- The session in which the procedure of `c` has got its first learner. -/
def withNewLearner (s : TableSession α) (c : α) (l : ObservationTable (LocalSymbol α)) :
    TableSession α :=
  { s with learners := s.learners.insert c l, events := s.events ++ [.discovered c] }

theorem grows_withNewLearner {c : α} (hnew : c ∉ s.learners.keys)
    (l : ObservationTable (LocalSymbol α)) : s.Grows (s.withNewLearner c l) where
  usable d hd := hd
  learners d k hk := by
    refine ⟨k, ?_, .refl k⟩
    rw [withNewLearner, AssocMap.get?_insert, if_neg]
    · exact hk
    · rintro rfl
      exact hnew (AssocMap.mem_keys_iff.2 ⟨k, hk⟩)

variable (hask : ∀ v, ask v = pure (T.accepts v)) (hT : T.EntriesAccept)
  (hlimit : LimitSuffices T limit)

include hask hT hlimit

theorem discover_spec (hs : s.Sound T limit) (hi : s.initialCall = T.initialCall) {c : α}
    (hc : c ∈ s.store.access.keys) :
    ∃ l, discover ask (firstTable limit) s c = (pure (s.withNewLearner c l) : m _) ∧
      Learns T s.store limit c l ∧ (s.withNewLearner c l).Sound T limit := by
  obtain ⟨l, hl, hlearns, hcurrent⟩ := exists_start hask hT hlimit hs.store hc hs.askable
  refine ⟨l, ?_, hlearns, ?_⟩
  · change (LocalLearning.start (s.store.askLocal ask c)
      (firstTable limit c s.localAlphabet.symbols) >>= _) = _
    rw [hl, pure_bind]
    rfl
  · exact hs.insert hi hlearns (fun a x hx => hcurrent x (AssocMap.mem_values_of_get? hx)) _

/-- A procedure gets a learner. If its first table shows a terminating sequence, its call becomes
usable. -/
theorem discoverAndSearch_spec (hs : s.Sound T limit) (hi : s.initialCall = T.initialCall) {c : α}
    (hc : c ∈ s.store.access.keys) (hnew : c ∉ s.learners.keys) :
    ∃ s', discoverAndSearch ask (firstTable limit) s c = (pure s' : m _) ∧
      s.Discovers T limit [c] s' := by
  obtain ⟨l, hl, hlearns, hsound₁⟩ := discover_spec hask hT hlimit hs hi hc
  have hget : (s.withNewLearner c l).learners.get? c = some l := by
    rw [withNewLearner, AssocMap.get?_insert, if_pos rfl]
  rcases hx : (s.withNewLearner c l).store.scanHypotheses [(c, LocalLearner.hypothesis l)]
    (fun d => ((s.withNewLearner c l).learners.get? d).map LocalLearner.representative)
    (LocalLearner.inputs l) with ⟨out, S⟩
  have hS := SequenceStore.scanHypotheses_genuine hs.store hlearns (by rw [hget]; rfl) hx
  obtain ⟨used, himproves, hout⟩ := SequenceStore.scanHypotheses_improves hx
  have hsound₂ : ((s.withNewLearner c l).withStore S s.initialCall).Sound T limit :=
    hsound₁.withStore hS (fun d hd => himproves.access ▸ hd)
      (fun d hd => (himproves.terminating d).2 (.inl hd)) hi
  have hknown : ∀ d ∈ out, d ∈ S.terminating.keys := by
    intro d hd
    rw [hout] at hd
    split at hd
    · next hused => exact (himproves.terminating d).2 (.inr ⟨hused, List.mem_singleton.1 hd⟩)
    · exact absurd hd List.not_mem_nil
  obtain ⟨b, s', h', hadvances, hadapts, husable, _⟩ :=
    makeAllUsable_spec hask hT hlimit hsound₂ hknown
  refine ⟨s', ?_, hadvances.sound, ?_, hadapts.initialCall, ?_, fun e => ?_, fun hall d hd => ?_,
    by rintro ⟨⟩⟩
  · rw [discoverAndSearch, hl, pure_bind]
    simp only [hget, hx]
    change (makeAllUsable ask out ((s.withNewLearner c l).withStore S s.initialCall) >>= _) = _
    rw [h', pure_bind]
  · exact ((grows_withNewLearner hnew l).trans (grows_withStore _ S _)).trans hadapts.toGrows
  · rw [hadapts.store]
    exact himproves.access
  · rw [hadapts.keys, List.mem_singleton]
    exact AssocMap.mem_keys_insert.trans or_comm
  · rw [hadapts.store] at hd
    rcases (himproves.terminating d).1 hd with hd | ⟨hused, rfl⟩
    · exact hadapts.usable d (hall d hd)
    · exact husable d (by rw [hout, if_pos hused]; exact List.mem_singleton.2 rfl)

/-- New calls get learners one after the other. -/
theorem discoverAll_spec (hs : s.Sound T limit) (hi : s.initialCall = T.initialCall) {cs : List α}
    (hnodup : cs.Nodup) (hcs : ∀ c ∈ cs, c ∈ s.store.access.keys)
    (hnew : ∀ c ∈ cs, c ∉ s.learners.keys) :
    ∃ s', cs.foldlM (discoverAndSearch ask (firstTable limit)) s = (pure s' : m _) ∧
      s.Discovers T limit cs s' := by
  induction cs generalizing s with
  | nil => exact ⟨s, rfl, .refl hs⟩
  | cons c cs ih =>
    obtain ⟨hc, hnodup⟩ := List.nodup_cons.1 hnodup
    obtain ⟨s₁, h₁, hdisc₁⟩ := discoverAndSearch_spec hask hT hlimit hs hi
      (hcs c List.mem_cons_self) (hnew c List.mem_cons_self)
    have hcs₁ : ∀ d ∈ cs, d ∈ s₁.store.access.keys := fun d hd =>
      hdisc₁.access ▸ hcs d (List.mem_cons_of_mem c hd)
    have hnew₁ : ∀ d ∈ cs, d ∉ s₁.learners.keys := by
      intro d hd
      rw [hdisc₁.keys, List.mem_singleton, not_or]
      exact ⟨hnew d (List.mem_cons_of_mem c hd), fun hdc => hc (hdc ▸ hd)⟩
    obtain ⟨s₂, h₂, hdisc₂⟩ :=
      ih hdisc₁.sound (hdisc₁.initialCall.trans hi) hnodup hcs₁ hnew₁
    refine ⟨s₂, ?_, hdisc₁.cons hdisc₂⟩
    rw [List.foldlM_cons, h₁, pure_bind, h₂]

end Session

end BehavioralAutomata
