import BehavioralAutomata.Proofs.Learning.Hypotheses

/-!
# Attributing counterexamples

* `System.localState_of_follow`, `System.follow_of_localState`: local words of usable symbols are read
  as the symbols that they stand for.
* `Session.Blames`: what a session makes of a position of a word, a procedure and its local word.
* `Session.Sound.blames_of_accepted`: where the hypothesis first rejects an accepted word, the table of
  the blamed procedure rejects a local word that the procedure accepts.
* `Session.Sound.blames_of_rejected`: at the end of a rejected word, the table accepts a local word,
  which the procedure rejects if the word was accepted up to there.
-/

namespace BehavioralAutomata

variable {α : Type} {β : Type} [DecidableEq α] [DecidableEq β] {T : System α β} {limit : Nat}

/-! ## Local words and the symbols that they stand for -/

namespace System

variable {B : LocalAlphabet α}

theorem localState_of_follow (hB : B.Fits T.alphabet) {f g : Frame α} {u : List α}
    {v : List (LocalSymbol α)} (hv : B.localWord? u = some v)
    (husable : ∀ a ∈ u, T.alphabet.kind? a = some .internal ∨ B.get? a = some (.call a true))
    (h : T.follow f u = some g) : T.localState f v = .running g := by
  induction u generalizing f v with
  | nil =>
    cases h
    cases hv
    rfl
  | cons a u ih =>
    obtain ⟨x, v, hx, hv', rfl⟩ := LocalAlphabet.localWord?_cons_eq_some_iff.1 hv
    obtain ⟨k, hk, h⟩ := Option.bind_eq_some_iff.1 h
    have hrest := ih hv' (fun b hb => husable b (List.mem_cons_of_mem _ hb)) h
    rcases husable a List.mem_cons_self with ha | ha
    · cases hx.symm.trans (hB.internal a ha)
      rw [localState, hk]
      exact hrest
    · cases hx.symm.trans ha
      rw [localState, hk]
      exact hrest

theorem follow_of_localState (hB : B.Fits T.alphabet) {f g : Frame α} {u : List α}
    {v : List (LocalSymbol α)} (hv : B.localWord? u = some v)
    (h : T.localState f v = .running g) : T.follow f u = some g := by
  induction u generalizing f v with
  | nil =>
    cases hv
    cases h
    rfl
  | cons a u ih =>
    obtain ⟨x, v, hx, hv', rfl⟩ := LocalAlphabet.localWord?_cons_eq_some_iff.1 hv
    obtain ⟨rfl, _⟩ := hB.symbol_eq hx
    have moved : ∀ b, (T.advance f b).elim .dead (T.localState · v) = .running g →
        T.follow f (b :: u) = some g := by
      intro b hb
      rw [follow]
      cases hm : T.advance f b with
      | none =>
        rw [hm] at hb
        cases hb
      | some k =>
        rw [hm] at hb
        exact ih hv' hb
    have stopped : ∀ b : Bool, (if b then (LocalState.ended : LocalState α) else .dead) ≠
        .running g := by
      intro b
      cases b <;> rintro ⟨⟩
    cases x with
    | internal b => exact moved b h
    | call c usable =>
      cases usable with
      | true => exact moved c h
      | false => exact absurd h (stopped _)
    | ret b => exact absurd h (stopped _)

/-- A single local symbol is accepted if its symbol does not kill the run. -/
theorem localVerdict_singleton (hB : B.Fits T.alphabet) (hT : T.EntriesAccept) {a : α}
    {x : LocalSymbol α} (hx : B.get? a = some x)
    (husable : B.get? a = some (.call a true) → ∃ q, T.entry? a = some q) (f : Frame α)
    (fs : List (Frame α)) :
    T.localVerdict f [x] = true ↔ T.step (.active f fs) a ≠ .dead := by
  obtain ⟨rfl, hproper⟩ := hB.symbol_eq hx
  rw [localVerdict_last, step_ne_dead_iff hproper]
  refine and_congr_right fun _ => ⟨fun h hk => ?_, ?_⟩
  · cases x with
    | internal b => cases hk
    | ret b => cases hk
    | call c usable =>
      cases usable with
      | true => exact husable hx
      | false =>
        obtain ⟨q, hq, _⟩ := h c rfl
        exact ⟨q, hq⟩
  · rintro h d rfl
    obtain ⟨q, hq⟩ := h rfl
    exact ⟨q, hq, hT d q hq⟩

section

variable (hB : B.Fits T.alphabet) (hT : T.EntriesAccept) {x u : List α} {c a : α} {top : Frame α}
  {fs : List (Frame α)} (h : T.Reads x c u top fs) {v : List (LocalSymbol α)} {y : LocalSymbol α}
  (hv : B.localWord? (T.alphabet.normalize u) = some v) (hy : B.get? a = some y)
  (hentry : B.get? a = some (.call a true) → ∃ q, T.entry? a = some q)

include hB hT h hv hy hentry

/-- If the run can go on, the procedure accepts what stands for all that it has read. -/
theorem localLanguage_of_step
    (husable : ∀ b, T.alphabet.kind? b = some .call → T.alphabet.Invokes u b →
      B.get? b = some (.call b true))
    (hstep : T.step (.active top fs) a ≠ .dead) : T.localLanguage c (v ++ [y]) = true := by
  obtain ⟨q, hq, _, hrun⟩ := h.run
  obtain ⟨hfollow, hsymbols⟩ := follow_normalize hrun
  have hlocal : T.localState ⟨c, q⟩ v = .running top :=
    localState_of_follow hB hv (fun b hb => (hsymbols b hb).imp_right fun hc => husable b hc.1 hc.2)
      hfollow
  rw [localLanguage_eq hq, localVerdict_append, hlocal]
  exact (localVerdict_singleton hB hT hy hentry top fs).2 hstep

/-- If the procedure accepts it, the run can go on. -/
theorem step_of_localLanguage (hlang : T.localLanguage c (v ++ [y]) = true) :
    T.step (.active top fs) a ≠ .dead := by
  obtain ⟨q, hq, _, hrun⟩ := h.run
  rw [localLanguage_eq hq, localVerdict_append] at hlang
  cases hstate : T.localState ⟨c, q⟩ v with
  | dead =>
    rw [hstate] at hlang
    cases hlang
  | ended =>
    rw [hstate] at hlang
    cases hlang
  | running f =>
    rw [hstate] at hlang
    have hfollow := follow_of_localState hB hv hstate
    rw [(follow_normalize hrun).1] at hfollow
    cases hfollow
    exact (localVerdict_singleton hB hT hy hentry top fs).1 hlang

end

end System

namespace Session

/-! ## Positions -/

section

variable {S : System α β}

theorem firstRejection?_eq_some {c : Configuration α} {w : List α} {i : Nat}
    (h : firstRejection? S c w = some i) :
    i < w.length ∧ (0 < i → S.isAccepting (S.run c (w.take i)) = true) ∧
      S.isAccepting (S.run c (w.take (i + 1))) = false := by
  induction w generalizing c i with
  | nil => cases h
  | cons a w ih =>
    rw [firstRejection?] at h
    split at h
    · next hacc =>
      obtain ⟨j, hj, rfl⟩ := Option.map_eq_some_iff.1 h
      obtain ⟨hlt, hbefore, hafter⟩ := ih hj
      refine ⟨Nat.succ_lt_succ hlt, fun _ => ?_, hafter⟩
      cases j with
      | zero => exact hacc
      | succ j => exact hbefore (Nat.succ_pos j)
    · next hrej =>
      cases h
      exact ⟨Nat.succ_pos _, fun h => absurd h (Nat.lt_irrefl 0), Bool.eq_false_iff.2 hrej⟩

theorem isAccepting_of_firstRejection?_eq_none {c : Configuration α} {w : List α} (hne : w ≠ [])
    (h : firstRejection? S c w = none) : S.isAccepting (S.run c w) = true := by
  induction w generalizing c with
  | nil => exact absurd rfl hne
  | cons a w ih =>
    rw [firstRejection?] at h
    split at h
    · next hacc =>
      cases w with
      | nil => exact hacc
      | cons b w => exact ih (by rintro ⟨⟩) (Option.map_eq_none_iff.1 h)
    · cases h

/-- On a word that should be accepted, a system goes wrong where it first rejects. -/
theorem mismatch_of_accepted {q : LabelledWord α} (hq : q.accepted = true) (hne : q.word ≠ [])
    (hrej : S.accepts q.word = false) :
    mismatch S q < q.word.length ∧ S.accepts (q.word.take (mismatch S q)) = true ∧
      S.accepts (q.word.take (mismatch S q + 1)) = false := by
  cases hi : firstRejection? S .initial q.word with
  | none =>
    have hacc : S.accepts q.word = true := isAccepting_of_firstRejection?_eq_none hne hi
    rw [hrej] at hacc
    cases hacc
  | some i =>
    have hmis : mismatch S q = i := by rw [mismatch, if_pos hq, hi]; rfl
    rw [hmis]
    obtain ⟨hlt, hbefore, hafter⟩ := firstRejection?_eq_some hi
    refine ⟨hlt, ?_, hafter⟩
    cases i with
    | zero => rfl
    | succ i => exact hbefore (Nat.succ_pos i)

theorem mismatch_of_rejected {q : LabelledWord α} (hq : q.accepted = false) :
    mismatch S q = q.word.length - 1 := by
  rw [mismatch, hq, if_neg Bool.false_ne_true]

end

/-- The session blames position `i` of `w` on the procedure of `c`, whose local word up to there is
`v`. -/
def Blames (s : TableSession α) (w : List α) (i : Nat) (c : α) (v : List (LocalSymbol α)) : Prop :=
  ∃ j, s.alphabet.findCall? w i = some j ∧ w[j]? = some c ∧
    s.localAlphabet.localWord?
      (s.alphabet.normalize ((w.take i).drop (j + 1)) ++ (w.drop i).take 1) = some v

namespace Blames

variable {s s' : TableSession α} {w : List α} {i : Nat} {c : α} {v : List (LocalSymbol α)}

theorem unique {c' : α} {v' : List (LocalSymbol α)} (h : s.Blames w i c v)
    (h' : s.Blames w i c' v') : c = c' ∧ v = v' := by
  obtain ⟨j, hj, hc, hv⟩ := h
  obtain ⟨j', hj', hc', hv'⟩ := h'
  cases hj.symm.trans hj'
  exact ⟨Option.some.inj (hc.symm.trans hc'), Option.some.inj (hv.symm.trans hv')⟩

theorem congr (h : s.Blames w i c v) (hA : s'.alphabet = s.alphabet)
    (hB : s'.localAlphabet = s.localAlphabet) : s'.Blames w i c v := by
  rw [Blames, hA, hB]
  exact h

theorem localCounterexample_eq {q : LabelledWord α}
    (h : s.Blames q.word (mismatch s.hypothesis.toSystem q) c v) :
    s.localCounterexample q = .ok (c, ⟨v, q.accepted⟩) := by
  obtain ⟨j, hj, hc, hv⟩ := h
  simp only [localCounterexample, hj, Option.bind_some, hc, Option.map_some, hv]

/-- What a session passes on is the local word of the procedure that it blames. -/
theorem of_localCounterexample {q : LabelledWord α} {v : LabelledWord (LocalSymbol α)}
    (h : s.localCounterexample q = .ok (c, v)) :
    s.Blames q.word (mismatch s.hypothesis.toSystem q) c v.word ∧ v.accepted = q.accepted := by
  rw [localCounterexample] at h
  dsimp only at h
  split at h
  · cases h
  · next j d hj =>
    obtain ⟨i, hi, hd⟩ := Option.bind_eq_some_iff.1 hj
    obtain ⟨e, he, heq⟩ := Option.map_eq_some_iff.1 hd
    cases heq
    split at h
    · cases h
    · next u hu =>
      cases h
      exact ⟨⟨j, hi, he, hu⟩, rfl⟩

/-- Rejected words are blamed on their last position. -/
theorem at_mismatch {q : LabelledWord α} (hq : q.accepted = false)
    (h : s.Blames q.word (q.word.length - 1) c v) :
    s.Blames q.word (mismatch s.hypothesis.toSystem q) c v := by
  rw [mismatch_of_rejected hq]
  exact h

/-- A position is blamed on the call that is pending there. -/
theorem of_take {x u : List α} {a : α} (ha : w[i]? = some a) (hw : w.take i = x ++ c :: u)
    (hc : s.alphabet.kind? c = some .call) (hu : s.alphabet.Balanced u)
    (hv : s.localAlphabet.localWord? (s.alphabet.normalize u ++ [a]) = some v) :
    s.Blames w i c v := by
  obtain ⟨hi, rfl⟩ := List.getElem?_eq_some_iff.1 ha
  have hdrop : (w.take i).drop (x.length + 1) = u := by
    rw [hw, ← List.drop_drop]
    simp
  have hone : (w.drop i).take 1 = [w[i]] := by
    rw [List.drop_eq_getElem_cons hi]
    rfl
  have hget : w[x.length]? = some c := by
    have hlt : x.length < i := by
      have := congrArg List.length hw
      simp at this
      omega
    rw [← List.getElem?_take_of_lt hlt, hw]
    simp
  refine ⟨x.length, Alphabet.findCall?_of_balanced hw hc hu, hget, ?_⟩
  rw [hdrop, hone]
  exact hv

end Blames

/-! ## Accepted and rejected words -/

namespace Sound

variable {s : TableSession α}

/-- The hypothesis and the system agree on the initial procedure. -/
theorem reached_singleton_iff (hs : s.Sound T limit) {a : α} (ha : a ∈ s.learners.keys) :
    s.hypothesis.toSystem.reached [a] ≠ .dead ↔ T.reached [a] ≠ .dead := by
  have hne : s.learners.keys ≠ [] := List.ne_nil_of_mem ha
  obtain ⟨l, hl⟩ := AssocMap.mem_keys_iff.1 ha
  have hentry : ∃ q, T.entry? a = some q := (hs.store.entry (hs.learns a l hl).access).2
  have hentry' : ∃ q, s.hypothesis.toSystem.entry? a = some q :=
    ⟨0, hs.entry?_eq_some_iff.2 ⟨ha, rfl⟩⟩
  rw [System.reached_singleton_ne_dead_iff, System.reached_singleton_ne_dead_iff,
    hs.alphabet_hypothesis, initialCall_hypothesis hne, hs.initialCall hne]
  exact and_congr_right fun _ => and_congr_right fun _ => ⟨fun _ => hentry, fun _ => hentry'⟩

/-- What the hypothesis has read in front of a position belongs to one procedure, on which the position is
blamed. Its table accepts the local word if the hypothesis can go on. -/
theorem exists_blames (hs : s.Sound T limit) {w x u : List α} {c : α} {top : Frame α}
    {fs : List (Frame α)} (hreads : s.hypothesis.toSystem.Reads x c u top fs) {i : Nat}
    (hi : i < w.length) (hsplit : w.take i = x ++ c :: u) {k : SymbolKind}
    (hk : T.alphabet.kind? w[i] = some k) :
    ∃ l v y, s.learners.get? c = some l ∧ s.localAlphabet.get? w[i] = some y ∧
      s.localAlphabet.localWord? (T.alphabet.normalize u) = some v ∧ s.Blames w i c (v ++ [y]) ∧
      v ++ [y] ⊆ l.alphabet ∧ (l.hypothesis.accepts (v ++ [y]) = true ↔
        ∃ g, s.hypothesis.toSystem.advance top w[i] = some g) := by
  obtain ⟨l, v, hl, rfl, hv, hreach⟩ := hs.exists_localWord hreads
  obtain ⟨y, hy⟩ := hs.fits.exists_get? hk
  have hvy := LocalAlphabet.localWord?_append_singleton hv hy
  have hblames : s.Blames w i top.procedure (v ++ [y]) := by
    have hc := hreads.call
    have hu := hreads.balanced
    rw [hs.alphabet_hypothesis, ← hs.alphabet] at hc hu
    rw [← hs.alphabet] at hvy
    exact Blames.of_take (List.getElem?_eq_getElem hi) hsplit hc hu hvy
  exact ⟨l, v, y, hl, hy, hv, hblames, hs.localWord_subset hl hvy,
    hs.accepts_append_singleton_iff hl hreach hy⟩

/-- If all calls and invocations of an accepted word are known, then the table of the procedure that is
active at the first rejection is wrong about its local word. -/
theorem blames_of_accepted (hs : s.Sound T limit) (hT : T.EntriesAccept) {w : List α}
    (hw : T.accepts w = true)
    (hcalls : ∀ c ∈ w, T.alphabet.kind? c = some .call → c ∈ s.learners.keys)
    (hinvokes : ∀ c, T.alphabet.kind? c = some .call → T.alphabet.Invokes w c → s.Usable c)
    {i : Nat} (hi : i < w.length) (hacc : s.hypothesis.accepts (w.take i) = true)
    (hrej : s.hypothesis.accepts (w.take (i + 1)) = false) :
    ∃ c v l, s.Blames w i c v ∧ s.learners.get? c = some l ∧ v ⊆ l.alphabet ∧
      T.localLanguage c v = true ∧ l.hypothesis.accepts v = false := by
  have hH := hs.entriesAccept hT
  have hA := hs.alphabet_hypothesis
  have htake : w.take (i + 1) = w.take i ++ [w[i]] := List.take_succ_eq_append_getElem hi
  have halive : T.reached (w.take i ++ [w[i]]) ≠ .dead := by
    rw [← htake, ← System.accepts_iff_of_entriesAccept hT]
    apply System.accepts_of_append hT (v := w.drop (i + 1))
    rw [List.take_append_drop]
    exact hw
  have hdead : s.hypothesis.toSystem.reached (w.take i ++ [w[i]]) = .dead := by
    rwa [← htake, ← System.accepts_eq_false_iff_of_entriesAccept hH]
  have hmem : w[i] ∈ w := List.getElem_mem hi
  have hne : w.take i ≠ [] := by
    intro hnil
    rw [hnil] at halive hdead
    have hk := (System.reached_singleton_ne_dead_iff.1 halive).1
    exact (hs.reached_singleton_iff (hcalls _ hmem hk)).2 halive hdead
  obtain ⟨top, fs, htop, hstep⟩ := System.exists_active_of_reached hne halive
  obtain ⟨x, c, u, hsplit, hreads⟩ := System.exists_reads htop
  rw [System.accepts_iff_of_entriesAccept hH, hsplit] at hacc
  obtain ⟨top', fs', hreads'⟩ :=
    System.Reads.of_balanced (hA.symm ▸ hreads.call) (hA.symm ▸ hreads.balanced) hacc
  obtain ⟨k, hk⟩ := System.exists_kind_of_step hstep
  obtain ⟨l, v, y, hl, hy, hv, hblames, hsubset, haccepts⟩ := hs.exists_blames hreads' hi hsplit hk
  have hinv : ∀ b, T.alphabet.Invokes u b → T.alphabet.Invokes w b := by
    intro b hb
    have hb' := (hb.append_left (x ++ [c])).append_right (w.drop i)
    rw [List.append_assoc x, List.singleton_append, ← hsplit, List.take_append_drop] at hb'
    exact hb'
  refine ⟨c, v ++ [y], l, hblames, hl, hsubset, ?_, ?_⟩
  · exact System.localLanguage_of_step hs.fits hT hreads hv hy hs.exists_entry
      (fun b hcall hb => hinvokes b hcall (hinv b hb)) hstep
  · -- otherwise the hypothesis could go on
    by_contra hwrong
    rw [Bool.not_eq_false, haccepts] at hwrong
    have hstep' : s.hypothesis.toSystem.step (.active top' fs') w[i] ≠ .dead := by
      rw [System.step_ne_dead_iff (hA.symm ▸ hk)]
      refine ⟨hwrong, fun hcall => ⟨0, hs.entry?_eq_some_iff.2 ⟨?_, rfl⟩⟩⟩
      exact hcalls _ hmem (hcall ▸ hk)
    rw [System.reached_append, hsplit, hreads'.reached] at hdead
    exact hstep' hdead

/-- The table of the procedure that is active in front of the last symbol of a rejected word accepts its
local word. It is wrong about it, unless the system already rejects before the last symbol. -/
theorem blames_of_rejected (hs : s.Sound T limit) (hT : T.EntriesAccept) {w : List α} {i : Nat}
    (hi : i < w.length) (hw : T.accepts (w.take (i + 1)) = false)
    (hacc : s.hypothesis.accepts (w.take (i + 1)) = true) :
    ∃ c v l, s.Blames w i c v ∧ s.learners.get? c = some l ∧ v ⊆ l.alphabet ∧
      l.hypothesis.accepts v = true ∧
      (T.accepts (w.take i) = true → T.localLanguage c v = false) := by
  have hH := hs.entriesAccept hT
  have hA := hs.alphabet_hypothesis
  have htake : w.take (i + 1) = w.take i ++ [w[i]] := List.take_succ_eq_append_getElem hi
  rw [htake] at hw hacc
  have halive := (System.accepts_iff_of_entriesAccept hH).1 hacc
  have hdead := (System.accepts_eq_false_iff_of_entriesAccept hT).1 hw
  have hne : w.take i ≠ [] := by
    intro hnil
    rw [hnil] at halive hdead
    obtain ⟨_, _, p, hp⟩ := System.reached_singleton_ne_dead_iff.1 halive
    have hkeys := (hs.entry?_eq_some_iff.1 hp).1
    exact (hs.reached_singleton_iff hkeys).1 halive hdead
  obtain ⟨top, fs, htop, hstep⟩ := System.exists_active_of_reached hne halive
  obtain ⟨x, c, u, hsplit, hreads⟩ := System.exists_reads htop
  obtain ⟨k, hk⟩ := System.exists_kind_of_step hstep
  obtain ⟨l, v, y, hl, hy, hv, hblames, hsubset, haccepts⟩ :=
    hs.exists_blames hreads hi hsplit (hA ▸ hk)
  refine ⟨c, v ++ [y], l, hblames, hl, hsubset, ?_, fun hbefore => ?_⟩
  · exact haccepts.2 ((System.step_ne_dead_iff hk).1 hstep).1
  · rw [System.accepts_iff_of_entriesAccept hT, hsplit] at hbefore
    obtain ⟨top', fs', hreads'⟩ :=
      System.Reads.of_balanced (hA ▸ hreads.call) (hA ▸ hreads.balanced) hbefore
    rw [System.reached_append, hsplit, hreads'.reached] at hdead
    by_contra hlang
    rw [Bool.not_eq_false] at hlang
    exact System.step_of_localLanguage hs.fits hT hreads' hv hy hs.exists_entry hlang hdead

end Sound

end Session

end BehavioralAutomata
