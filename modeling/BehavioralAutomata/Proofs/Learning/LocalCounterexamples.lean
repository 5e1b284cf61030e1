import BehavioralAutomata.Proofs.Learning.Genuineness

/-!
# Counterexamples of single procedures

* `Session.LocalCounterexample`: a session finds a learner that is wrong about a local word, and the
  oracle for local words says so.
* `Session.Sound.exists_wrong_learner`: it does if its hypothesis is wrong about a word, unless the
  system already rejects in front of the last symbol.
* `Session.LocalCounterexample.refineLocal_cases`: the learner changes then, if its table has room.
-/

namespace BehavioralAutomata.Session

open Relation (ReflTransGen)

variable {α : Type} {β : Type} [DecidableEq α] [DecidableEq β] {T : System α β} {limit : Nat}
  {s s' : TableSession α} {q : LabelledWord α} {c : α} {v : List (LocalSymbol α)}
  {l : ObservationTable (LocalSymbol α)}

/-- The word `q` is cut down to the local word `v` of the procedure of `c`. It is a word over the symbols
of the learner `l` of this procedure, whose hypothesis does not give it the label that the oracle gives
it. -/
structure LocalCounterexample (T : System α β) (s : TableSession α) (q : LabelledWord α) (c : α)
    (v : List (LocalSymbol α)) (l : ObservationTable (LocalSymbol α)) : Prop where
  blamed : s.localCounterexample q = .ok (c, ⟨v, q.accepted⟩)
  learner : s.learners.get? c = some l
  subset : v ⊆ l.alphabet
  wrong : l.hypothesis.accepts v ≠ q.accepted
  answer : s.store.askLocal T.oracle c v = .ok q.accepted

/-- What the oracle says to a word over the symbols of a learner. -/
theorem Sound.askLocal_eq (hs : s.Sound T limit) (hl : s.learners.get? c = some l)
    (hv : v ⊆ l.alphabet) : s.store.askLocal T.oracle c v = .ok (T.localLanguage c v) := by
  have hlearns := hs.learns c l hl
  exact SequenceStore.askLocal_eq T.oracle_eq hs.store hlearns.access (hlearns.askable.mono hv)

/-- A wrong hypothesis is wrong about a local word. -/
theorem Sound.exists_wrong_learner (hs : s.Sound T limit) (hT : T.EntriesAccept)
    (hq : q.accepted = T.accepts q.word)
    (hcalls : q.accepted = true → ∀ c ∈ q.word, T.alphabet.kind? c = some .call →
      c ∈ s.learners.keys)
    (hinvokes : q.accepted = true → ∀ c, T.alphabet.kind? c = some .call →
      T.alphabet.Invokes q.word c → s.Usable c)
    (hbefore : q.accepted = true ∨ T.accepts q.word.dropLast = true) (hno : s.agrees q = false) :
    ∃ c v l, LocalCounterexample T s q c v l := by
  rw [agrees, decide_eq_false_iff_not] at hno
  cases hacc : q.accepted with
  | true =>
    rw [hacc, Bool.not_eq_true] at hno
    have hne : q.word ≠ [] := by
      intro hnil
      rw [hnil] at hno
      cases hno
    obtain ⟨hi, hbelow, habove⟩ := mismatch_of_accepted hacc hne hno
    obtain ⟨c, v, l, hblames, hl, hv, hlang, hwrong⟩ :=
      hs.blames_of_accepted hT (hq.symm.trans hacc) (hcalls hacc) (hinvokes hacc) hi hbelow habove
    refine ⟨c, v, l, hblames.localCounterexample_eq, hl, hv, ?_, ?_⟩
    · rw [hwrong, hacc]
      exact Bool.false_ne_true
    · rw [hs.askLocal_eq hl hv, hlang, hacc]
  | false =>
    rw [hacc, Bool.not_eq_false] at hno
    rw [hacc, or_iff_right Bool.false_ne_true] at hbefore
    obtain ⟨c, v, l, hblames, hl, hv, haccepts, hlang⟩ :=
      exists_blames_of_rejected hT (hq.symm.trans hacc) hs hno
    refine ⟨c, v, l, (hblames.at_mismatch hacc).localCounterexample_eq, hl, hv, ?_, ?_⟩
    · rw [haccepts, hacc]
      exact Bool.false_ne_true.symm
    · rw [hs.askLocal_eq hl hv, hlang hbefore, hacc]

/-- A learner uses a local counterexample, or its table exceeds the limit. -/
theorem LocalCounterexample.refineLocal_cases (h : LocalCounterexample T s q c v l)
    (hs : s.Sound T limit) (hT : T.EntriesAccept) :
    (∃ l', LocalLearning.refine (s.store.askLocal T.oracle c) ⟨v, q.accepted⟩ l =
        Except.ok (true, l') ∧ s.refineLocal T.oracle q = .ok (s.withLearner c l')) ∨
      ¬ LimitSuffices T limit ∧ s.refineLocal T.oracle q = .error (.limitExceeded limit) := by
  have hlearns := hs.learns c l h.learner
  have hlang : T.localLanguage c v = q.accepted :=
    Except.ok.inj ((hs.askLocal_eq h.learner h.subset).symm.trans h.answer)
  rcases hlearns.refine_cases (q := ⟨v, q.accepted⟩) T.oracle_eq hs.store h.subset h.wrong with
    ⟨l', _, hrefine, hlearns', hgrows, hA, hE⟩ | ⟨hthrow, hbounded⟩
  · have hlt : l.base.length < l'.base.length :=
      hlearns.closed.length_base_lt hlearns'.closed hgrows hA ((hE v).2 (.inr List.suffix_rfl))
        h.subset (hlang ▸ h.wrong)
    rw [decide_eq_true hlt] at hrefine
    refine .inl ⟨l', hrefine, ?_⟩
    rw [refineLocal, h.blamed]
    simp only [h.learner, hrefine]
    rfl
  · refine .inr ⟨fun hlimit => hbounded (hlimit.bounded hT hs.store hlearns.access), ?_⟩
    rw [refineLocal, h.blamed]
    simp only [h.learner, hthrow]
    rfl

/-- The session `s'` has a larger table than `s` for the procedure that `s` blames, and the suffixes of
the local word are experiments of it. -/
structure Refinement (T : System α β) (limit : Nat) (q : LabelledWord α) (s s' : TableSession α) (c : α)
    (v : List (LocalSymbol α)) (l l' : ObservationTable (LocalSymbol α)) : Prop where
  blames : s.Blames q.word (mismatch s.hypothesis.toSystem q) c v
  learner : s.learners.get? c = some l
  subset : v ⊆ l.alphabet
  result : s' = s.withLearner c l'
  learns : Learns T s.store limit c l'
  grows : l.Grows l'
  alphabet : l'.alphabet = l.alphabet
  base : l.base.length < l'.base.length
  experiments : ∀ e, e ∈ l'.experiments ↔ e ∈ l.experiments ∨ e <:+ v

theorem Sound.exists_refinement (hs : s.Sound T limit) (h : s.refineLocal T.oracle q = .ok s') :
    ∃ c v l l', Refinement T limit q s s' c v l l' := by
  obtain ⟨c, v, l, l', hlocal, hl, hrefine, hs'⟩ := exists_of_refineLocal h
  have hsub := hs.localCounterexample_subset hl hlocal
  obtain ⟨hlearns, hgrows, hA, hlt, hE⟩ := (hs.learns c l hl).of_refine hs.store hsub hrefine
  exact ⟨c, v.word, l, l', (Blames.of_localCounterexample hlocal).1, hl, hsub, hs', hlearns, hgrows, hA,
    hlt, hE⟩

namespace Refinement

variable {l' : ObservationTable (LocalSymbol α)} (h : Refinement T limit q s s' c v l l')

include h

theorem sound (hs : s.Sound T limit) : s'.Sound T limit :=
  h.result ▸ hs.withLearner h.learner h.learns h.grows

theorem adapts : s.Adapts s' := h.result ▸ adapts_withLearner h.learner h.grows

theorem get?_learners : s'.learners.get? c = some l' := by
  rw [h.result, get?_withLearner, if_pos rfl]

/-- What the new session makes of a position is what the old one did. -/
theorem blames_iff {w : List α} {i : Nat} {d : α} {u : List (LocalSymbol α)} :
    s'.Blames w i d u ↔ s.Blames w i d u := by
  rw [h.result]
  exact Iff.rfl

/-- The position that was blamed is resolved. -/
theorem resolved : s'.Resolved q.word (mismatch s.hypothesis.toSystem q) :=
  ⟨c, v, l', h.blames_iff.2 h.blames, h.get?_learners, (h.experiments v).2 (.inr List.suffix_rfl)⟩

theorem allResolved {done : List Nat} (hdone : s.AllResolved q.word done)
    (hi : mismatch s.hypothesis.toSystem q < q.word.length)
    (hnew : ¬ s.Resolved q.word (mismatch s.hypothesis.toSystem q)) :
    s'.AllResolved q.word (mismatch s.hypothesis.toSystem q :: done) :=
  hdone.cons hi hnew h.adapts (h.result ▸ rfl) (h.result ▸ rfl) h.resolved

end Refinement

/-- One more refinement with a word keeps what is known of the calls. -/
theorem Sound.refineLocal (hs : s.Sound T limit) (h : s.refineLocal T.oracle q = .ok s') :
    s'.Sound T limit ∧ s.Adapts s' := by
  obtain ⟨c, v, l, l', hrefinement⟩ := hs.exists_refinement h
  exact ⟨hrefinement.sound hs, hrefinement.adapts⟩

/-- The session has refined one of its learners with the word, as long as it did not agree with it. -/
def Retries (T : System α β) (q : LabelledWord α) (s s' : TableSession α) : Prop :=
  s.agrees q = false ∧ s.refineLocal T.oracle q = .ok s'

theorem Sound.retries (hs : s.Sound T limit) (h : ReflTransGen (Retries T q) s s') :
    s'.Sound T limit ∧ s.Adapts s' := by
  induction h with
  | refl => exact ⟨hs, .refl s⟩
  | tail _ hstep ih =>
    obtain ⟨hs', hadapts⟩ := ih.1.refineLocal hstep.2
    exact ⟨hs', ih.2.trans hadapts⟩

/-- While a reachable session refines its learners with a truthful word, it finds a local counterexample
as long as its hypothesis is wrong about the word, and the learner changes. Only tables that are too small
can make it fail. A rejected word has to be one of which the system accepts all proper prefixes. -/
theorem Reachable.exists_localCounterexample {preference : Preference} {s₁ s₂ : TableSession α}
    {b : Bool} (hT : T.EntriesAccept) (hs : Reachable T limit preference s)
    (hq : q.accepted = T.accepts q.word)
    (hbefore : q.accepted = true ∨ ∀ u, u <+: q.word → u ≠ q.word → T.accepts u = true)
    (hextract : s.extract T.oracle (firstTable limit) q = .ok (b, s₁))
    (hsteps : ReflTransGen (Retries T q) s₁ s₂) (hno : s₂.agrees q = false) :
    ∃ c v l, LocalCounterexample T s₂ q c v l ∧
      ((∃ l', LocalLearning.refine (s₂.store.askLocal T.oracle c) ⟨v, q.accepted⟩ l =
          Except.ok (true, l') ∧ s₂.refineLocal T.oracle q = .ok (s₂.withLearner c l')) ∨
        ¬ LimitSuffices T limit ∧ s₂.refineLocal T.oracle q = .error (.limitExceeded limit)) := by
  obtain ⟨hs₀, hi, hout⟩ := hs.invariant
  have hne : q.word ≠ [] := by
    intro hnil
    rw [agrees, hq, hnil] at hno
    cases hno
  obtain ⟨hsteps₁, _, hseen⟩ := changes_of_extract hout hne hextract
  rw [hs₀.alphabet] at hseen
  obtain ⟨hs₁, _⟩ := sound_of_changes hsteps₁ hq hs₀ hi
  obtain ⟨hs₂, hadapts⟩ := hs₁.retries hsteps
  have hdropLast : q.accepted = true ∨ T.accepts q.word.dropLast = true := by
    refine hbefore.imp_right fun h => h _ (List.dropLast_prefix q.word) fun heq => ?_
    have hlen := congrArg List.length heq
    rw [List.length_dropLast] at hlen
    have hpos := List.length_pos_of_ne_nil hne
    omega
  obtain ⟨c, v, l, hlocal⟩ := hs₂.exists_wrong_learner hT hq
    (fun hacc d hd hk => hadapts.keys ▸ (hseen hacc).1 d hd hk)
    (fun hacc d hk hinv => hadapts.usable d ((hseen hacc).2 d hk hinv)) hdropLast hno
  exact ⟨c, v, l, hlocal, hlocal.refineLocal_cases hs₂ hT⟩

/-- The first tables do not know yet that `S` can return behind a call of `T`. -/
theorem exists_localCounterexample_returningSystem : ∃ s₁ c v l,
    (start returningSystem.alphabet .first : TableSession Char).extract returningSystem.oracle
      (firstTable 5) ⟨['S', 'T', 'b', 'R', 'R'], true⟩ = .ok (true, s₁) ∧
    LocalCounterexample returningSystem.toSystem s₁ ⟨['S', 'T', 'b', 'R', 'R'], true⟩ c v l := by
  have hrun : ((start returningSystem.alphabet .first : TableSession Char).extract
      returningSystem.oracle (firstTable 5) ⟨['S', 'T', 'b', 'R', 'R'], true⟩).map
        (fun r => (r.1, r.2.agrees ⟨['S', 'T', 'b', 'R', 'R'], true⟩)) = .ok (true, false) := by
    decide +kernel
  obtain ⟨⟨b, s₁⟩, hextract, heq⟩ := exists_of_map_eq_ok hrun
  obtain ⟨rfl, hno⟩ := Prod.mk.inj heq
  have hstart : Reachable returningSystem.toSystem 5 .first (start returningSystem.alphabet .first) :=
    .start
  obtain ⟨c, v, l, hlocal, _⟩ :=
    hstart.exists_localCounterexample (by decide) rfl (.inl rfl) hextract .refl hno
  exact ⟨s₁, c, v, l, hextract, hlocal⟩

end BehavioralAutomata.Session
