import BehavioralAutomata.Proofs.Learning.Availability
import BehavioralAutomata.Proofs.Learning.Replay

/-!
# What a session has found, it keeps

The oracle and the words that a session learns from are arbitrary.

* `SequenceStore.Retains`: no sequence is lost, and only a terminating one is ever replaced, by a shorter
  one.
* `Session.Retains`: neither are procedures, usable calls, states of hypotheses or answers.
* `Session.Change.retains`: every single change is of that kind.
* `Session.Taught.discovery_monotone`: so of two sessions the later one has all that the earlier one has.
-/

namespace BehavioralAutomata

open Relation (ReflTransGen)
open ObservationTable (Faithful Underlies)

variable {α : Type} [DecidableEq α]

/-! ## Sequences -/

namespace SequenceStore

/-- Nothing is lost. Only a store that prefers short terminating sequences replaces one, and only by a
shorter one. -/
structure Retains (S S' : SequenceStore α) : Prop where
  preference : S'.preference = S.preference
  access : ∀ c u, S.access.get? c = some u → S'.access.get? c = some u
  terminating : ∀ c t, S.terminating.get? c = some t → ∃ t', S'.terminating.get? c = some t' ∧
    (t' = t ∨ S.preference = .shortest ∧ t'.length < t.length)

variable {S S' S'' : SequenceStore α} {c : α}

namespace Retains

theorem refl (S : SequenceStore α) : S.Retains S := ⟨rfl, fun _ _ h => h, fun _ t h => ⟨t, h, .inl rfl⟩⟩

theorem trans (h : S.Retains S') (h' : S'.Retains S'') : S.Retains S'' where
  preference := h'.preference.trans h.preference
  access c u hu := h'.access c u (h.access c u hu)
  terminating c t ht := by
    obtain ⟨t', ht', hshorter⟩ := h.terminating c t ht
    obtain ⟨t'', ht'', hshorter'⟩ := h'.terminating c t' ht'
    rw [h.preference] at hshorter'
    refine ⟨t'', ht'', ?_⟩
    rcases hshorter' with rfl | ⟨hp, hlt'⟩
    · exact hshorter
    · rcases hshorter with rfl | ⟨_, hlt⟩
      · exact .inr ⟨hp, hlt'⟩
      · exact .inr ⟨hp, Nat.lt_trans hlt' hlt⟩

end Retains

/-- A terminating sequence is recorded where there is none, or a longer one that is not preferred. -/
theorem retains_insert_terminating {t : List α}
    (h : c ∉ S.terminating.keys ∨ S.preference = .shortest ∧ S.improves c t.length = true) :
    S.Retains { S with terminating := S.terminating.insert c t } where
  preference := rfl
  access _ _ hu := hu
  terminating d v hv := by
    rw [AssocMap.get?_insert]
    split
    · next hdc =>
      subst hdc
      rcases h with hnew | ⟨hp, himproves⟩
      · exact absurd (AssocMap.mem_keys_iff.2 ⟨v, hv⟩) hnew
      · rw [improves, hv, Option.all_some, decide_eq_true_eq] at himproves
        exact ⟨t, rfl, .inr ⟨hp, himproves⟩⟩
    · exact ⟨v, hv, .inl rfl⟩

theorem Shown.retains {w : List α} (h : Shown w S S') : S.Retains S' := by
  cases h with
  | access _ _ fresh =>
    refine ⟨rfl, fun d v hv => ?_, fun _ t ht => ⟨t, ht, .inl rfl⟩⟩
    rw [AssocMap.get?_insert, if_neg, hv]
    rintro rfl
    exact fresh (AssocMap.mem_keys_iff.2 ⟨v, hv⟩)
  | terminating _ _ _ better => exact retains_insert_terminating better

theorem retains_of_shown {w : List α} (h : ReflTransGen (Shown w) S S') : S.Retains S' := by
  induction h with
  | refl => exact .refl S
  | tail _ hstep ih => exact ih.trans hstep.retains

theorem scan_retains {w : List α} {d : Discoveries α} (h : S.scan w = (d, S')) : S.Retains S' := by
  have hshown := S.scan_shown w
  rw [h] at hshown
  exact retains_of_shown hshown

theorem Betters.retains {changed : α → Prop} (hp : S.preference = .shortest)
    (h : Betters S S' changed) : S.Retains S' where
  preference := by rw [h.rest]
  access c u hu := by rwa [h.access]
  terminating c t ht := by
    by_cases hc : changed c
    · obtain ⟨t', ht', hshorter⟩ := h.bettered c hc
      exact ⟨t', ht', .inr ⟨hp, hshorter t ht⟩⟩
    · exact ⟨t, (h.kept c hc).trans ht, .inl rfl⟩

theorem scanHypotheses_retains {hypotheses : List (α × Acceptor (LocalSymbol α))}
    {representative? : α → Option (List (LocalSymbol α) → List (LocalSymbol α))}
    {inputs : List (LocalSymbol α)} {out : List α}
    (h : S.scanHypotheses hypotheses representative? inputs = (out, S')) : S.Retains S' := by
  cases hp : S.preference with
  | first =>
    rw [scanHypotheses.eq_def, hp] at h
    cases h
    exact .refl S
  | shortest =>
    have hbetters := (S.scanHypotheses_betters hypotheses representative? inputs).2
    rw [h] at hbetters
    exact hbetters.retains hp

end SequenceStore

/-! ## Learners -/

section

variable {limit : Nat} {c : α} {l l' : ObservationTable (LocalSymbol α)}

omit [DecidableEq α] in
theorem yields_of_withinLimit {δ : Type} {x : ExceptT LimitExceeded (Except (LearningError α)) δ}
    {d : δ} (h : withinLimit α x = Except.ok d) : Yielding.Yields x.run (.ok d) := by
  rw [withinLimit] at h
  obtain ⟨r, hr, h⟩ := exists_of_bind_eq_ok h
  cases r with
  | ok a =>
    cases h
    exact hr
  | error e => cases h

variable {ask : List (LocalSymbol α) → Except (LearningError α) Bool}

theorem Faithful.of_start {symbols : List (LocalSymbol α)}
    (h : LocalLearning.start ask (firstTable limit c symbols) = Except.ok l) : l.Faithful :=
  ObservationTable.faithful_of_start (yields_of_withinLimit h)

theorem Faithful.of_refine (hl : l.Faithful) {v : LabelledWord (LocalSymbol α)} {used : Bool}
    (h : LocalLearning.refine ask v l = Except.ok (used, l')) :
    l'.Faithful ∧ l.Underlies l' ∧ (used = true → l.base.length < l'.base.length) :=
  hl.refine (yields_of_withinLimit h)

theorem Faithful.of_grow (hl : l.Faithful) {x : LocalSymbol α}
    (h : LocalLearning.grow ask x l = Except.ok l') : l'.Faithful ∧ l.Underlies l' :=
  hl.grow (yields_of_withinLimit h)

end

namespace Session

variable {ask : List α → Except (LearningError α) Bool} {limit : Nat} {q : LabelledWord α}
  {s s' s'' : TableSession α} {c : α} {l l' : ObservationTable (LocalSymbol α)}
  {M M' M'' : AssocMap α (ObservationTable (LocalSymbol α))}

/-- All tables are faithful. -/
def TablesFaithful (M : AssocMap α (ObservationTable (LocalSymbol α))) : Prop :=
  ∀ c l, M.get? c = some l → l.Faithful

/-- The same procedures have tables, and the tables have lost nothing. -/
structure TablesKept (M M' : AssocMap α (ObservationTable (LocalSymbol α))) : Prop where
  keys : M'.keys = M.keys
  tables : ∀ c l, M.get? c = some l → ∃ l', M'.get? c = some l' ∧ l.Underlies l'

theorem TablesKept.refl (M : AssocMap α (ObservationTable (LocalSymbol α))) : TablesKept M M :=
  ⟨rfl, fun _ l hl => ⟨l, hl, .refl l⟩⟩

theorem TablesKept.trans (h : TablesKept M M') (h' : TablesKept M' M'') : TablesKept M M'' where
  keys := h'.keys.trans h.keys
  tables c l hl := by
    obtain ⟨l', hl', hunder⟩ := h.tables c l hl
    obtain ⟨l'', hl'', hunder'⟩ := h'.tables c l' hl'
    exact ⟨l'', hl'', hunder.trans hunder'⟩

theorem TablesFaithful.insert (hM : TablesFaithful M) (hl' : l'.Faithful) :
    TablesFaithful (M.insert c l') := by
  intro d k hk
  rw [AssocMap.get?_insert] at hk
  split at hk
  · cases hk
    exact hl'
  · exact hM d k hk

theorem tablesKept_insert (hl : M.get? c = some l) (hunder : l.Underlies l') :
    TablesKept M (M.insert c l') where
  keys := (AssocMap.keys_insert M c l').trans (if_pos (AssocMap.mem_keys_iff.2 ⟨l, hl⟩))
  tables d k hk := by
    rw [AssocMap.get?_insert]
    split
    · next hdc =>
      subst hdc
      cases hl.symm.trans hk
      exact ⟨l', rfl, hunder⟩
    · exact ⟨k, hk, .refl k⟩

theorem tablesKept_growLearner {S : SequenceStore α} {x : LocalSymbol α} (hM : TablesFaithful M)
    (h : growLearner ask S x M c = .ok M') : TablesFaithful M' ∧ TablesKept M M' := by
  rw [growLearner] at h
  cases hl : M.get? c with
  | none =>
    rw [hl] at h
    cases h
    exact ⟨hM, .refl _⟩
  | some l =>
    rw [hl] at h
    obtain ⟨l', hgrow, h⟩ := exists_of_bind_eq_ok h
    cases h
    obtain ⟨hl', hunder⟩ := Faithful.of_grow (hM c l hl) hgrow
    exact ⟨hM.insert hl', tablesKept_insert hl hunder⟩

theorem tablesKept_growLearners {S : SequenceStore α} {x : LocalSymbol α} {cs : List α}
    (hM : TablesFaithful M) (h : cs.foldlM (growLearner ask S x) M = .ok M') :
    TablesFaithful M' ∧ TablesKept M M' := by
  induction cs generalizing M with
  | nil =>
    cases h
    exact ⟨hM, .refl _⟩
  | cons c cs ih =>
    rw [List.foldlM_cons] at h
    obtain ⟨M₁, h₁, h⟩ := exists_of_bind_eq_ok h
    obtain ⟨hM₁, hkept₁⟩ := tablesKept_growLearner hM h₁
    obtain ⟨hM', hkept⟩ := ih hM₁ h
    exact ⟨hM', hkept₁.trans hkept⟩

/-! ## Sessions -/

/-- Nothing that was found is lost. -/
structure Retains (s s' : TableSession α) : Prop where
  discovered : s.discovered <+: s'.discovered
  usable : ∀ c, s.Usable c → s'.Usable c
  store : s.store.Retains s'.store
  tables : ∀ c l, s.learners.get? c = some l → ∃ l', s'.learners.get? c = some l' ∧ l.Underlies l'

namespace Retains

theorem refl (s : TableSession α) : s.Retains s :=
  ⟨List.prefix_rfl, fun _ h => h, .refl _, fun _ l hl => ⟨l, hl, .refl l⟩⟩

theorem trans (h : s.Retains s') (h' : s'.Retains s'') : s.Retains s'' where
  discovered := h.discovered.trans h'.discovered
  usable c hc := h'.usable c (h.usable c hc)
  store := h.store.trans h'.store
  tables c l hl := by
    obtain ⟨l', hl', hunder⟩ := h.tables c l hl
    obtain ⟨l'', hl'', hunder'⟩ := h'.tables c l' hl'
    exact ⟨l'', hl'', hunder.trans hunder'⟩

theorem grows (h : s.Retains s') : s.Grows s' where
  usable := h.usable
  learners c l hl := by
    obtain ⟨l', hl', hunder⟩ := h.tables c l hl
    exact ⟨l', hl', hunder.toGrows⟩

theorem withStore {S : SequenceStore α} (h : s.store.Retains S) (i : Option α) :
    s.Retains (s.withStore S i) where
  __ := refl s
  store := h

theorem of_tablesKept (h : TablesKept s.learners M) (B : LocalAlphabet α)
    (events : List (SessionEvent α))
    (husable : ∀ d, s.localAlphabet.get? d = some (.call d true) → B.get? d = some (.call d true)) :
    s.Retains { s with learners := M, localAlphabet := B, events } where
  discovered := by
    have hkeys : M.keys = s.learners.keys := h.keys
    simp only [Session.discovered, hkeys, List.prefix_rfl]
  usable := husable
  store := .refl _
  tables := h.tables

end Retains

/-- Every change keeps the tables faithful and all that was found. -/
theorem Change.retains (h : Change ask limit q s s') (hs : TablesFaithful s.learners) :
    TablesFaithful s'.learners ∧ s.Retains s' := by
  cases h with
  | shown _ _ hscan =>
    exact ⟨hs, .withStore (SequenceStore.scan_retains hscan) _⟩
  | searched _ hsearch =>
    exact ⟨hs, .withStore (SequenceStore.scanHypotheses_retains hsearch) _⟩
  | @grown c M _ _ hgrow =>
    obtain ⟨hM, hkept⟩ := tablesKept_growLearners hs hgrow
    refine ⟨hM, .of_tablesKept hkept _ _ fun d hd => ?_⟩
    rw [LocalAlphabet.Fits.get?_set]
    split
    · next hdc => rw [hdc]
    · exact hd
  | @discovered c l _ hfresh hstart =>
    refine ⟨hs.insert (Faithful.of_start hstart), ⟨?_, fun _ h => h, .refl _, fun d k hk => ?_⟩⟩
    · rw [Session.discovered, Session.discovered, withNewLearner, AssocMap.keys_insert,
        if_neg hfresh]
      exact List.prefix_append ..
    · refine ⟨k, ?_, .refl k⟩
      rw [withNewLearner, AssocMap.get?_insert, if_neg, hk]
      rintro rfl
      exact hfresh (AssocMap.mem_keys_iff.2 ⟨k, hk⟩)
  | resolved _ _ hl hrefine | repaired hl _ hrefine =>
    obtain ⟨hl', hunder, _⟩ := Faithful.of_refine (hs _ _ hl) hrefine
    exact ⟨hs.insert hl', .of_tablesKept (tablesKept_insert hl hunder) _ _ fun _ h => h⟩

theorem retains_of_changes (h : ReflTransGen (Change ask limit q) s s')
    (hs : TablesFaithful s.learners) : TablesFaithful s'.learners ∧ s.Retains s' := by
  induction h with
  | refl => exact ⟨hs, .refl s⟩
  | tail _ hstep ih =>
    obtain ⟨hs', hretains⟩ := hstep.retains ih.1
    exact ⟨hs', ih.2.trans hretains⟩

/-! ## Sessions that any words lead to -/

variable {f : List α → Bool} {A : Alphabet α} {preference : Preference}

/-- The session `s'` has learned from one more word. -/
def LearnsFrom (f : List α → Bool) (limit : Nat) (s s' : TableSession α) : Prop :=
  ∃ q changed, s.refine (answering f) (firstTable limit) q = .ok (changed, s')

namespace Taught

theorem tablesFaithful (h : Taught f A limit preference s) :
    TablesFaithful s.learners ∧ s.store.preference = preference := by
  induction h with
  | start => exact ⟨fun c l hl => by simp [Session.start] at hl, rfl⟩
  | refine hprev hrefine ih =>
    obtain ⟨_, _, hout⟩ := hprev.invariant
    obtain ⟨hs', hretains⟩ := retains_of_changes (changes_of_refine hout hrefine).1 ih.1
    exact ⟨hs', hretains.store.preference.trans ih.2⟩

theorem retains (h : Taught f A limit preference s) (hlater : ReflTransGen (LearnsFrom f limit) s s') :
    Taught f A limit preference s' ∧ s.Retains s' := by
  induction hlater with
  | refl => exact ⟨h, .refl s⟩
  | tail _ hstep ih =>
    obtain ⟨htaught, hretains⟩ := ih
    obtain ⟨q, changed, hrefine⟩ := hstep
    obtain ⟨_, _, hout⟩ := htaught.invariant
    obtain ⟨hs, _⟩ := htaught.tablesFaithful
    have hretains' := (retains_of_changes (changes_of_refine hout hrefine).1 hs).2
    exact ⟨htaught.refine hrefine, hretains.trans hretains'⟩

/-- Whatever a session learns from, what it has found stays: the procedures, the usable calls and the
access sequences, and the terminating sequences up to shorter ones, if those are preferred. The states
of every hypothesis keep their numbers, their base words and what they accept. -/
theorem discovery_monotone (h : Taught f A limit preference s)
    (hlater : ReflTransGen (LearnsFrom f limit) s s') :
    s.discovered <+: s'.discovered ∧
    (∀ c, s.Usable c → s'.Usable c) ∧
    (∀ c u, s.store.access.get? c = some u → s'.store.access.get? c = some u) ∧
    (∀ c t, s.store.terminating.get? c = some t → ∃ t', s'.store.terminating.get? c = some t' ∧
      (t' = t ∨ preference = .shortest ∧ t'.length < t.length)) ∧
    ∀ c l, s.learners.get? c = some l → ∃ l', s'.learners.get? c = some l' ∧
      l.hypothesis.size ≤ l'.hypothesis.size ∧ ∀ i b, l.base[i]? = some b →
        l'.base[i]? = some b ∧ l'.representative b = b ∧
        l.hypothesis.reached b = some i ∧ l'.hypothesis.reached b = some i ∧
        l'.hypothesis.isAccepting i = l.hypothesis.isAccepting i := by
  obtain ⟨hs, rfl⟩ := h.tablesFaithful
  obtain ⟨htaught, hretains⟩ := h.retains hlater
  obtain ⟨hs', _⟩ := htaught.tablesFaithful
  refine ⟨hretains.discovered, hretains.usable, hretains.store.access, hretains.store.terminating,
    fun c l hl => ?_⟩
  obtain ⟨l', hl', hunder⟩ := hretains.tables c l hl
  exact ⟨l', hl', (hs c l hl).keeps_states (hs' c l' hl') hunder⟩

end Taught

/-- Says no to the words in which `T` returns at once. -/
def staysInT (w : List Char) : Bool := (w.zip w.tail).all (· ≠ ('T', 'R'))

/-- The terminating sequence of `T` is replaced when the second word is learned from, and the procedure
of `T` still has its hypothesis. -/
theorem discovery_monotone_staysInT : ∃ (s s' : TableSession Char)
    (l l' : ObservationTable (LocalSymbol Char)),
    Taught staysInT ⟨['b'], ['S', 'T'], 'R', by decide⟩ 20 .shortest s ∧
      s.store.terminating.get? 'T' = some ['b', 'b'] ∧
      s'.store.terminating.get? 'T' = some ['b'] ∧ s.learners.get? 'T' = some l ∧
      s'.learners.get? 'T' = some l' ∧ l.hypothesis.size ≤ l'.hypothesis.size := by
  have hrun : (do
      let r ← (start ⟨['b'], ['S', 'T'], 'R', by decide⟩ .shortest : TableSession Char).refine
        (answering staysInT) (firstTable 20) ⟨['S', 'T', 'b', 'b', 'R'], true⟩
      let r' ← r.2.refine (answering staysInT) (firstTable 20) ⟨['S', 'T', 'b', 'R'], true⟩
      return (r.2.learners.keys, r.2.store.terminating.get? 'T', r'.2.store.terminating.get? 'T') :
        Except (LearningError Char) _) = .ok (['S', 'T'], some ['b', 'b'], some ['b']) := by
    decide +kernel
  obtain ⟨r, hr, hrun⟩ := exists_of_bind_eq_ok hrun
  obtain ⟨r', hr', hrun⟩ := exists_of_bind_eq_ok hrun
  obtain ⟨hkeys, hsequences⟩ := Prod.mk.inj (Except.ok.inj hrun)
  obtain ⟨hbefore, hafter⟩ := Prod.mk.inj hsequences
  have htaught : Taught staysInT ⟨['b'], ['S', 'T'], 'R', by decide⟩ 20 .shortest r.2 :=
    .refine .start hr
  obtain ⟨_, _, _, _, hlearners⟩ := htaught.discovery_monotone (.single ⟨_, _, hr'⟩)
  obtain ⟨l, hl⟩ := AssocMap.mem_keys_iff.1 (show 'T' ∈ r.2.learners.keys by rw [hkeys]; decide)
  obtain ⟨l', hl', hsize, _⟩ := hlearners 'T' l hl
  exact ⟨r.2, r'.2, l, l', htaught, hbefore, hafter, hl, hl', hsize⟩

end Session

end BehavioralAutomata
