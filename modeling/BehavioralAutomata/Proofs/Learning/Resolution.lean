import BehavioralAutomata.Proofs.Learning.Attribution
import BehavioralAutomata.Proofs.Learning.Extraction

/-!
# Refining until the hypothesis agrees with a word

* `Session.resolve_accepted`: an accepted word whose calls and invocations are known is resolved. No
  position of it is blamed twice, because the local word has become an experiment.
* `Session.Attempt.resolve_eq`, `Session.resolve_eq_error`: a rejected word is resolved by one
  refinement or not at all.
-/

namespace BehavioralAutomata

variable {α : Type} {β : Type} [DecidableEq α] [DecidableEq β] {T : System α β} {limit : Nat}
  {m : Type → Type} [Monad m] [LawfulMonad m] [MonadExceptOf (LearningError α) m]
  {ask : List α → m Bool}

namespace Session

/-- The session in which the procedure of `c` has the learner `l`. -/
def withLearner (s : TableSession α) (c : α) (l : ObservationTable (LocalSymbol α)) :
    TableSession α :=
  { s with learners := s.learners.insert c l }

variable {s : TableSession α} {c : α} {l l' : ObservationTable (LocalSymbol α)}

theorem get?_withLearner (s : TableSession α) (c d : α) (l : ObservationTable (LocalSymbol α)) :
    (s.withLearner c l).learners.get? d = if d = c then some l else s.learners.get? d :=
  AssocMap.get?_insert s.learners c d l

theorem adapts_withLearner (hl : s.learners.get? c = some l) (hgrows : l.Grows l') :
    s.Adapts (s.withLearner c l') where
  usable d h := h
  learners d k hk := by
    rw [get?_withLearner]
    split
    · next hdc =>
      rw [hdc, hl] at hk
      cases hk
      exact ⟨l', rfl, hgrows⟩
    · exact ⟨k, hk, .refl k⟩
  store := rfl
  initialCall := rfl
  keys := by
    have hc : c ∈ s.learners.keys := AssocMap.mem_keys_iff.2 ⟨l, hl⟩
    exact (AssocMap.keys_insert s.learners c l').trans (if_pos hc)

/-- A session stays sound if one table is replaced by a larger one for the same procedure. -/
theorem Sound.withLearner (hs : s.Sound T limit) (hl : s.learners.get? c = some l)
    (hlearns : Learns T s.store limit c l') (hgrows : l.Grows l') :
    (s.withLearner c l').Sound T limit := by
  have hi := hs.initialCall (List.ne_nil_of_mem (AssocMap.mem_keys_iff.2 ⟨l, hl⟩))
  exact hs.insert hi hlearns (fun a x hx => hgrows.alphabet.subset (hs.current c l a x hl hx)) _

theorem advances_withLearner (hs : s.Sound T limit) (hl : s.learners.get? c = some l)
    (hlearns : Learns T s.store limit c l') (hgrows : l.Grows l')
    (hlt : l.base.length < l'.base.length) : s.Advances T limit true (s.withLearner c l') :=
  (adapts_withLearner hl hgrows).advances (hs.withLearner hl hlearns hgrows) fun _ =>
    .base c hl (by rw [get?_withLearner, if_pos rfl]) hlt

/-- If the table has no new base words, the hypothesis judges every word as before. -/
theorem accepts_withLearner (hs : s.Sound T limit) (hT : T.EntriesAccept)
    (hl : s.learners.get? c = some l) (hlearns : Learns T s.store limit c l')
    (hgrows : l.Grows l') (hA : l'.alphabet = l.alphabet) (hbase : l'.base = l.base) (w : List α) :
    (s.withLearner c l').hypothesis.accepts w = s.hypothesis.accepts w := by
  have hclosed := (hs.learns c l hl).closed
  have hs' := hs.withLearner hl hlearns hgrows
  have hadapts := adapts_withLearner hl hgrows
  have hne : s.learners.keys ≠ [] := List.ne_nil_of_mem (AssocMap.mem_keys_iff.2 ⟨l, hl⟩)
  refine accepts_hypothesis_congr hs' hs hT ?_ (fun d => by rw [hadapts.keys]) ?_ w
  · rw [initialCall_hypothesis hne, initialCall_hypothesis (hadapts.keys ▸ hne)]
    rfl
  · intro f a
    apply Option.ext
    intro g
    rw [advance_hypothesis, advance_hypothesis]
    by_cases hf : f.procedure = c
    · have hget : (s.withLearner c l').learners.get? f.procedure = some l' := by
        rw [get?_withLearner, if_pos hf]
      have hsucc := hclosed.successor_eq hlearns.closed hgrows hA hbase f.state
      have hacc := hclosed.isAccepting_eq hlearns.closed hbase g.state
      rw [hget, hf, hl]
      constructor
      · intro h
        obtain ⟨_, x, ⟨⟩, hx, hstep, hg, hp⟩ := h
        exact ⟨l, x, rfl, hx, hsucc x ▸ hstep, hacc ▸ hg, hp⟩
      · intro h
        obtain ⟨_, x, ⟨⟩, hx, hstep, hg, hp⟩ := h
        exact ⟨l', x, rfl, hx, (hsucc x).symm ▸ hstep, hacc.symm ▸ hg, hp⟩
    · rw [get?_withLearner, if_neg hf]
      rfl

/-! ## One refinement -/

/-- One refinement with a word that is blamed on a procedure. -/
theorem refineLocal_eq {q : LabelledWord α} {v : List (LocalSymbol α)} {used : Bool}
    (hblames : s.Blames q.word (mismatch s.hypothesis.toSystem q) c v)
    (hl : s.learners.get? c = some l)
    (hrefine : LocalLearning.refine (s.store.askLocal ask c) ⟨v, q.accepted⟩ l =
      (pure (used, l') : m _)) :
    s.refineLocal ask q =
      if used then pure (s.withLearner c l')
      else throw (.unusedCounterexample c ⟨v, q.accepted⟩ : LearningError α) := by
  rw [refineLocal, hblames.localCounterexample_eq]
  simp only [hl]
  rw [hrefine, pure_bind]
  rfl

omit [LawfulMonad m] in
theorem resolve_of_agrees {q : LabelledWord α} (h : s.agrees q = true) (n : Nat) :
    resolve ask q n s = (pure (false, s) : m _) := by
  cases n <;> rw [resolve, if_pos h]

/-! ## Accepted words -/

/-- The position has been blamed on a procedure, and its local word is an experiment now. -/
def Resolved (s : TableSession α) (w : List α) (i : Nat) : Prop :=
  ∃ c v l, s.Blames w i c v ∧ s.learners.get? c = some l ∧ v ∈ l.experiments

theorem Resolved.adapts {s' : TableSession α} {w : List α} {i : Nat} (h : s.Resolved w i)
    (hadapts : s.Adapts s') (hA : s'.alphabet = s.alphabet)
    (hB : s'.localAlphabet = s.localAlphabet) : s'.Resolved w i := by
  obtain ⟨c, v, l, hblames, hl, hv⟩ := h
  obtain ⟨l', hl', hgrows⟩ := hadapts.learners c l hl
  exact ⟨c, v, l', hblames.congr hA hB, hl', hgrows.experiments.subset hv⟩

/-- The positions of `done` are different and have been resolved. -/
structure AllResolved (s : TableSession α) (w : List α) (done : List Nat) : Prop where
  nodup : done.Nodup
  lt : ∀ i ∈ done, i < w.length
  resolved : ∀ i ∈ done, s.Resolved w i

namespace AllResolved

variable {w : List α} {done : List Nat} {i : Nat}

theorem nil (s : TableSession α) (w : List α) : s.AllResolved w [] :=
  ⟨List.nodup_nil, List.forall_mem_nil _, List.forall_mem_nil _⟩

variable (h : s.AllResolved w done) (hi : i < w.length) (hnew : ¬ s.Resolved w i)

include h hi hnew

/-- There is a further position only as long as not all have been resolved. -/
theorem length_lt : done.length < w.length := by
  have hnodup : (i :: done).Nodup := List.nodup_cons.2 ⟨fun hmem => hnew (h.resolved i hmem), h.nodup⟩
  have hsub : i :: done ⊆ List.range w.length :=
    List.cons_subset.2 ⟨List.mem_range.2 hi, fun j hj => List.mem_range.2 (h.lt j hj)⟩
  have hlen := hnodup.length_le_of_subset hsub
  rwa [List.length_cons, List.length_range] at hlen

theorem cons {s' : TableSession α} (hadapts : s.Adapts s') (hA : s'.alphabet = s.alphabet)
    (hB : s'.localAlphabet = s.localAlphabet) (hres : s'.Resolved w i) :
    s'.AllResolved w (i :: done) where
  nodup := List.nodup_cons.2 ⟨fun hmem => hnew (h.resolved i hmem), h.nodup⟩
  lt := List.forall_mem_cons.2 ⟨hi, h.lt⟩
  resolved := List.forall_mem_cons.2 ⟨hres, fun j hj => (h.resolved j hj).adapts hadapts hA hB⟩

end AllResolved

section

variable (hask : ∀ v, ask v = pure (T.accepts v)) (hT : T.EntriesAccept)
  (hlimit : LimitSuffices T limit)

include hask hT hlimit

/-- A table that is wrong about the local word of its procedure can use it. -/
theorem exists_refineLocal (hs : s.Sound T limit) {q : LabelledWord α}
    {v : List (LocalSymbol α)}
    (hblames : s.Blames q.word (mismatch s.hypothesis.toSystem q) c v)
    (hl : s.learners.get? c = some l) (hv : v ⊆ l.alphabet)
    (hlang : T.localLanguage c v = q.accepted) (hne : l.hypothesis.accepts v ≠ q.accepted) :
    ∃ l', s.refineLocal ask q = (pure (s.withLearner c l') : m _) ∧
      Learns T s.store limit c l' ∧ l.Grows l' ∧ l.base.length < l'.base.length ∧
      v ∈ l'.experiments := by
  have hlearns := hs.learns c l hl
  obtain ⟨l', _, hrefine, hlearns', hgrows, hA, hE⟩ :=
    hlearns.exists_refine (q := ⟨v, q.accepted⟩) hask hT hlimit hs.store hv hne
  have hmem : v ∈ l'.experiments := (hE v).2 (.inr List.suffix_rfl)
  have hlt : l.base.length < l'.base.length :=
    hlearns.closed.length_base_lt hlearns'.closed hgrows hA hmem hv (hlang ▸ hne)
  refine ⟨l', ?_, hlearns', hgrows, hlt, hmem⟩
  rw [refineLocal_eq hblames hl hrefine, decide_eq_true hlt, if_pos rfl]

variable {q : LabelledWord α} (hw : T.accepts q.word = true) (hq : q.accepted = true)
  (hne : q.word ≠ [])

include hw hq hne

omit hask hlimit in
/-- As long as an accepted word is rejected, a position is blamed that has not been blamed before. -/
theorem exists_unresolved (hs : s.Sound T limit)
    (hcalls : ∀ c ∈ q.word, T.alphabet.kind? c = some .call → c ∈ s.learners.keys)
    (hinvokes : ∀ c, T.alphabet.kind? c = some .call → T.alphabet.Invokes q.word c → s.Usable c)
    (hno : s.agrees q = false) :
    mismatch s.hypothesis.toSystem q < q.word.length ∧
      ¬ s.Resolved q.word (mismatch s.hypothesis.toSystem q) ∧
      ∃ c v l, s.Blames q.word (mismatch s.hypothesis.toSystem q) c v ∧
        s.learners.get? c = some l ∧ v ⊆ l.alphabet ∧ T.localLanguage c v = true ∧
        l.hypothesis.accepts v = false := by
  have hrej : s.hypothesis.accepts q.word = false := by
    rw [agrees, hq, decide_eq_false_iff_not, Bool.not_eq_true] at hno
    exact hno
  obtain ⟨hi, hacc, hrej'⟩ := mismatch_of_accepted hq hne hrej
  obtain ⟨c, v, l, hblames, hl, hv, hlang, hwrong⟩ :=
    hs.blames_of_accepted hT hw hcalls hinvokes hi hacc hrej'
  refine ⟨hi, fun h => ?_, c, v, l, hblames, hl, hv, hlang, hwrong⟩
  -- the table would know the verdict on the local word
  obtain ⟨d, u, k, hblames', hk, hu⟩ := h
  obtain ⟨rfl, rfl⟩ := hblames.unique hblames'
  cases hl.symm.trans hk
  rw [(hs.learns c l hl).closed.accepts_experiment hu hv, hlang] at hwrong
  cases hwrong

/-- The position that is blamed can be resolved. -/
theorem exists_resolved (hs : s.Sound T limit)
    (hcalls : ∀ c ∈ q.word, T.alphabet.kind? c = some .call → c ∈ s.learners.keys)
    (hinvokes : ∀ c, T.alphabet.kind? c = some .call → T.alphabet.Invokes q.word c → s.Usable c)
    (hno : s.agrees q = false) :
    ∃ i s', i < q.word.length ∧ ¬ s.Resolved q.word i ∧
      s.refineLocal ask q = (pure s' : m _) ∧ s.Advances T limit true s' ∧ s.Adapts s' ∧
      s'.localAlphabet = s.localAlphabet ∧ s'.Resolved q.word i := by
  obtain ⟨hi, hnew, c, v, l, hblames, hl, hv, hlang, hwrong⟩ :=
    exists_unresolved hT hw hq hne hs hcalls hinvokes hno
  obtain ⟨l', hrefine, hlearns, hgrows, hlt, hmem⟩ :=
    exists_refineLocal hask hT hlimit hs hblames hl hv (hlang.trans hq.symm) (by simp [hwrong, hq])
  refine ⟨_, s.withLearner c l', hi, hnew, hrefine, advances_withLearner hs hl hlearns hgrows hlt,
    adapts_withLearner hl hgrows, rfl, c, v, l', hblames.congr rfl rfl, ?_, hmem⟩
  rw [get?_withLearner, if_pos rfl]

/-- The budget of one refinement for every position suffices for an accepted word. -/
theorem resolve_accepted (hs : s.Sound T limit)
    (hcalls : ∀ c ∈ q.word, T.alphabet.kind? c = some .call → c ∈ s.learners.keys)
    (hinvokes : ∀ c, T.alphabet.kind? c = some .call → T.alphabet.Invokes q.word c → s.Usable c)
    {done : List Nat} (hdone : s.AllResolved q.word done) {n : Nat}
    (hn : q.word.length ≤ n + done.length) :
    ∃ b s', resolve ask q n s = (pure (b, s') : m _) ∧ s.Advances T limit b s' ∧
      (s.agrees q = false → b = true) := by
  induction n generalizing s done with
  | zero =>
    cases hno : s.agrees q with
    | true => exact ⟨false, s, resolve_of_agrees hno _, .refl hs, by rintro ⟨⟩⟩
    | false =>
      obtain ⟨i, _, hi, hnew, _⟩ := exists_resolved hask hT hlimit hw hq hne hs hcalls hinvokes hno
      have hlt := hdone.length_lt hi hnew
      omega
  | succ n ih =>
    cases hno : s.agrees q with
    | true => exact ⟨false, s, resolve_of_agrees hno _, .refl hs, by rintro ⟨⟩⟩
    | false =>
      obtain ⟨i, s₁, hi, hnew, hrefine, hadvances, hadapts, hB, hres⟩ :=
        exists_resolved hask hT hlimit hw hq hne hs hcalls hinvokes hno
      have hA : s₁.alphabet = s.alphabet := hadvances.sound.alphabet.trans hs.alphabet.symm
      obtain ⟨b, s', hresolve, hadvances', _⟩ := ih hadvances.sound
        (fun d hd hk => hadapts.keys ▸ hcalls d hd hk)
        (fun d hk hinv => hadapts.usable d (hinvokes d hk hinv))
        (hdone.cons hi hnew hadapts hA hB hres) (by rw [List.length_cons]; omega)
      refine ⟨true, s', ?_, hadvances.trans hadvances', fun _ => rfl⟩
      rw [resolve, hno, if_neg Bool.false_ne_true, hrefine, pure_bind, hresolve, pure_bind]

end

/-! ## Rejected words -/

/-- The learner of the blamed procedure goes from `l` to `l'` when the local word `v` becomes an
experiment. -/
structure Attempt (T : System α β) (limit : Nat) (ask : List α → m Bool) (s : TableSession α)
    (q : LabelledWord α) (c : α) (v : List (LocalSymbol α))
    (l l' : ObservationTable (LocalSymbol α)) : Prop where
  blames : s.Blames q.word (q.word.length - 1) c v
  learner : s.learners.get? c = some l
  close : (l.addExperiments v).close (s.store.askLocal ask c) = pure l'
  refine : LocalLearning.refine (s.store.askLocal ask c) ⟨v, q.accepted⟩ l =
    (pure (decide (l.base.length < l'.base.length), l') : m _)
  learns : Learns T s.store limit c l'
  grows : l.Grows l'
  alphabet : l'.alphabet = l.alphabet
  experiments : ∀ e, e ∈ l'.experiments ↔ e ∈ l.experiments ∨ e <:+ v

section

variable (hT : T.EntriesAccept) {q : LabelledWord α} (hw : T.accepts q.word = false)

include hT hw

omit [LawfulMonad m] [MonadExceptOf (LearningError α) m] in
/-- At the last position of a rejected word that the hypothesis accepts, a table accepts the local
word. -/
theorem exists_blames_of_rejected (hs : s.Sound T limit)
    (hacc : s.hypothesis.accepts q.word = true) :
    ∃ c v l, s.Blames q.word (q.word.length - 1) c v ∧
      s.learners.get? c = some l ∧ v ⊆ l.alphabet ∧ l.hypothesis.accepts v = true ∧
      (T.accepts q.word.dropLast = true → T.localLanguage c v = false) := by
  have hpos : 0 < q.word.length := List.length_pos_of_ne_nil (System.ne_nil_of_rejected hw)
  have htake : q.word.take (q.word.length - 1 + 1) = q.word := by
    rw [Nat.sub_add_cancel hpos, List.take_length]
  rw [List.dropLast_eq_take]
  exact hs.blames_of_rejected hT (by omega) (htake.symm ▸ hw) (htake.symm ▸ hacc)

variable (hq : q.accepted = false) (hask : ∀ v, ask v = pure (T.accepts v))
  (hlimit : LimitSuffices T limit)

include hq hask hlimit in
theorem exists_attempt (hs : s.Sound T limit) (hacc : s.hypothesis.accepts q.word = true) :
    ∃ c v l l', Attempt T limit ask s q c v l l' := by
  obtain ⟨c, v, l, hblames, hl, hv, haccepts, _⟩ := exists_blames_of_rejected hT hw hs hacc
  have hne : l.hypothesis.accepts v ≠ q.accepted := by
    rw [haccepts, hq]
    exact Bool.false_ne_true.symm
  obtain ⟨l', hclose, hrefine, hlearns, hgrows, hA, hE⟩ :=
    (hs.learns c l hl).exists_refine (q := ⟨v, q.accepted⟩) hask hT hlimit hs.store hv hne
  exact ⟨c, v, l, l', hblames, hl, hclose, hrefine, hlearns, hgrows, hA, hE⟩

variable {v : List (LocalSymbol α)} (h : Attempt T limit ask s q c v l l')

include h

namespace Attempt

omit [LawfulMonad m] hT hw in
theorem sound (hs : s.Sound T limit) : (s.withLearner c l').Sound T limit :=
  hs.withLearner h.learner h.learns h.grows

omit [LawfulMonad m] hw in
/-- If the hypothesis rejects the word now, the table has more base words. -/
theorem length_base_lt (hs : s.Sound T limit) (hacc : s.hypothesis.accepts q.word = true)
    (hrej : (s.withLearner c l').hypothesis.accepts q.word = false) :
    l.base.length < l'.base.length := by
  apply Nat.lt_of_le_of_ne h.grows.base.length_le
  intro hlen
  have hbase := (h.grows.base.eq_of_length hlen).symm
  rw [accepts_withLearner hs hT h.learner h.learns h.grows h.alphabet hbase, hacc] at hrej
  cases hrej

omit [LawfulMonad m] in
/-- If the hypothesis still accepts the word, so does the table the local word. -/
theorem accepts_local (hs : s.Sound T limit)
    (hstill : (s.withLearner c l').hypothesis.accepts q.word = true) :
    v ⊆ l'.alphabet ∧ l'.hypothesis.accepts v = true := by
  obtain ⟨d, u, k, hblames, hk, hu, haccepts, _⟩ :=
    exists_blames_of_rejected hT hw (h.sound hs) hstill
  have hcongr : (s.withLearner c l').Blames q.word (q.word.length - 1) c v :=
    h.blames.congr rfl rfl
  obtain ⟨rfl, rfl⟩ := hcongr.unique hblames
  rw [get?_withLearner, if_pos rfl] at hk
  cases hk
  exact ⟨hu, haccepts⟩

omit [LawfulMonad m] in
/-- If only the last symbol makes the system reject, the hypothesis rejects the word now. -/
theorem accepts_eq_false (hs : s.Sound T limit) (hacc : s.hypothesis.accepts q.word = true)
    (hbefore : T.accepts q.word.dropLast = true) :
    (s.withLearner c l').hypothesis.accepts q.word = false := by
  obtain ⟨d, u, k, hblames, hk, _, _, hlang⟩ := exists_blames_of_rejected hT hw hs hacc
  obtain ⟨rfl, rfl⟩ := h.blames.unique hblames
  by_contra hstill
  rw [Bool.not_eq_false] at hstill
  obtain ⟨hsub, haccepts⟩ := h.accepts_local hT hw hs hstill
  have hmem : v ∈ l'.experiments := (h.experiments v).2 (.inr List.suffix_rfl)
  rw [h.learns.closed.accepts_experiment hmem hsub, hlang hbefore] at haccepts
  cases haccepts

omit hT hw in
theorem refineLocal_eq (hq : q.accepted = false) : s.refineLocal ask q =
    if l.base.length < l'.base.length then (pure (s.withLearner c l') : m _)
    else throw (.unusedCounterexample c ⟨v, false⟩ : LearningError α) := by
  rw [Session.refineLocal_eq (h.blames.at_mismatch hq) h.learner h.refine, hq]
  simp only [decide_eq_true_eq]

include hq hask hlimit in
/-- A second refinement with the word does not add to the base. -/
theorem refineLocal_eq_throw (hs : s.Sound T limit)
    (hstill : (s.withLearner c l').hypothesis.accepts q.word = true) :
    (s.withLearner c l').refineLocal ask q =
      (throw (.unusedCounterexample c ⟨v, false⟩ : LearningError α) : m _) := by
  have hs' := h.sound hs
  have hget : (s.withLearner c l').learners.get? c = some l' := by
    rw [get?_withLearner, if_pos rfl]
  obtain ⟨hv, haccepts⟩ := h.accepts_local hT hw hs hstill
  have hne : l'.hypothesis.accepts v ≠ q.accepted := by
    rw [haccepts, hq]
    exact Bool.false_ne_true.symm
  obtain ⟨l'', hclose, hrefine, hlearns, hgrows, hA, hE⟩ :=
    h.learns.exists_refine (q := ⟨v, q.accepted⟩) hask hT hlimit hs'.store hv hne
  have hsub : l''.experiments ⊆ l'.experiments := by
    intro e he
    rcases (hE e).1 he with he | he
    · exact he
    · exact (h.experiments e).2 (.inr he)
  have hlen := h.learns.closed.length_base_eq hlearns.closed hgrows hA hsub
  have hagain : Attempt T limit ask (s.withLearner c l') q c v l' l'' :=
    ⟨h.blames.congr rfl rfl, hget, hclose, hrefine, hlearns, hgrows, hA, hE⟩
  rw [hagain.refineLocal_eq hq, if_neg (by omega)]

omit [LawfulMonad m] hT hw in
theorem localCounterexample_eq (hq : q.accepted = false) :
    s.localCounterexample q = .ok (c, ⟨v, false⟩) := by
  rw [(h.blames.at_mismatch hq).localCounterexample_eq, hq]

omit hw in
include hq in
/-- If one refinement suffices, the word is resolved by it. -/
theorem resolve_eq (hs : s.Sound T limit) (hacc : s.hypothesis.accepts q.word = true)
    (hrej : (s.withLearner c l').hypothesis.accepts q.word = false) (n : Nat) :
    resolve ask q (n + 1) s = (pure (true, s.withLearner c l') : m _) := by
  have hno : s.agrees q = false := by
    rw [agrees, hacc, hq]
    rfl
  have hyes : (s.withLearner c l').agrees q = true := by
    rw [agrees, hrej, hq]
    rfl
  rw [resolve, hno, if_neg Bool.false_ne_true, h.refineLocal_eq hq,
    if_pos (h.length_base_lt hT hs hacc hrej), pure_bind, resolve_of_agrees hyes, pure_bind]

end Attempt

end

/-- If one refinement does not suffice, learning fails. -/
theorem resolve_eq_error {ask : List α → Except (LearningError α) Bool}
    (hask : ∀ v, ask v = pure (T.accepts v)) (hT : T.EntriesAccept) (hlimit : LimitSuffices T limit)
    {q : LabelledWord α} (hw : T.accepts q.word = false) (hq : q.accepted = false)
    {v : List (LocalSymbol α)} (h : Attempt T limit ask s q c v l l') (hs : s.Sound T limit)
    (hacc : s.hypothesis.accepts q.word = true)
    (hstill : (s.withLearner c l').hypothesis.accepts q.word = true) (n : Nat) :
    resolve ask q n s = .error (.unusedCounterexample c ⟨v, false⟩) := by
  have hno : s.agrees q = false := by
    rw [agrees, hacc, hq]
    rfl
  have hno' : (s.withLearner c l').agrees q = false := by
    rw [agrees, hstill, hq]
    rfl
  have hlocal := h.localCounterexample_eq hq
  have hlocal' : (s.withLearner c l').localCounterexample q = .ok (c, ⟨v, false⟩) := by
    have hblames : (s.withLearner c l').Blames q.word (q.word.length - 1) c v :=
      h.blames.congr rfl rfl
    rw [(hblames.at_mismatch hq).localCounterexample_eq, hq]
  have hthrow := h.refineLocal_eq_throw hT hw hq hask hlimit hs hstill
  cases n with
  | zero =>
    rw [resolve, hno, if_neg Bool.false_ne_true, hlocal]
    rfl
  | succ n =>
    rw [resolve, hno, if_neg Bool.false_ne_true, h.refineLocal_eq hq]
    split
    · rw [pure_bind]
      cases n with
      | zero =>
        rw [resolve, hno', if_neg Bool.false_ne_true, hlocal']
        rfl
      | succ n =>
        rw [resolve, hno', if_neg Bool.false_ne_true, hthrow]
        rfl
    · rfl

end Session

end BehavioralAutomata
