import BehavioralAutomata.Proofs.Learning.Changes
import BehavioralAutomata.Proofs.Learning.Repair
import BehavioralAutomata.Proofs.Learning.Verdicts

/-!
# Truthful sessions

A session is truthful if the answers and the labels that it learns from are those of one system. Nothing
is assumed here of the system and of the limit of the tables, because only learning that does not fail is
looked at.

* `Session.Change.sound`: with true answers every single change keeps a session sound.
* `Session.Reachable`: the sessions that truthful words lead to.
* `Session.Reachable.genuine_sequences`: all their access and terminating sequences are what they are
  meant to be.
-/

namespace BehavioralAutomata

open Relation (ReflTransGen)

variable {α : Type} {β : Type} [DecidableEq α] [DecidableEq β] {T : System α β} {limit : Nat}

theorem System.reached_ne_dead_of_accepts {w : List α} (h : T.accepts w = true) :
    T.reached w ≠ .dead := by
  intro hd
  rw [accepts, hd] at h
  cases h

/-- A refinement that changes something keeps what a table learns, and it adds to the base. -/
theorem Learns.of_refine {S : SequenceStore α} {c : α} {l l' : ObservationTable (LocalSymbol α)}
    (hS : S.Genuine T) (hl : Learns T S limit c l) {v : LabelledWord (LocalSymbol α)}
    (hv : v.word ⊆ l.alphabet)
    (h : LocalLearning.refine (S.askLocal T.oracle c) v l = Except.ok (true, l')) :
    Learns T S limit c l' ∧ l.Grows l' ∧ l'.alphabet = l.alphabet ∧
      l.base.length < l'.base.length ∧
      ∀ e, e ∈ l'.experiments ↔ e ∈ l.experiments ∨ e <:+ v.word := by
  have hne : l.hypothesis.accepts v.word ≠ v.accepted := by
    intro heq
    change withinLimit α (l.refine (S.askLocal T.oracle c) v) = _ at h
    rw [ObservationTable.refine_of_accepts_eq heq] at h
    cases h
  rcases hl.refine_cases T.oracle_eq hS hv hne with
    ⟨k, _, hk, hlearns, hgrows, hA, hE⟩ | ⟨hthrow, _⟩
  · obtain ⟨hlt, rfl⟩ := Prod.mk.inj (Except.ok.inj (hk.symm.trans h))
    exact ⟨hlearns, hgrows, hA, of_decide_eq_true hlt, hE⟩
  · cases hthrow.symm.trans h

namespace Session

variable {s s' : TableSession α} {q : LabelledWord α}

/-! ## Single changes -/

/-- A loop that gives learners a symbol keeps what they learn. -/
theorem Grown.of_foldlM (hs : s.Sound T limit) {x : LocalSymbol α} (hx : s.store.Askable [x])
    {M : AssocMap α (ObservationTable (LocalSymbol α))}
    (h : s.learners.keys.foldlM (Session.growLearner T.oracle s.store x) s.learners = .ok M) :
    Grown T limit s x s.learners.keys M := by
  have houtcome : Outcome (Grown T limit s x s.learners.keys) (fun _ => True)
      (s.learners.keys.foldlM (Session.growLearner T.oracle s.store x) s.learners) := by
    refine Outcome.foldlM (fun done c M hc hM => ?_) (.start hs x)
    refine .intro (fun M' hM' => ?_) fun _ _ => trivial
    obtain ⟨l₀, hl₀⟩ := AssocMap.mem_keys_iff.1 hc
    obtain ⟨l, hl, hlearns, _⟩ := hM.learners c l₀ hl₀
    rw [Session.growLearner, hl] at hM'
    obtain ⟨l', hl', hM'⟩ := exists_of_bind_eq_ok hM'
    cases hM'
    rcases hlearns.grow_cases T.oracle_eq hs.store hx with ⟨k, hk, hlearns', hgrows, hmem⟩ | ⟨hthrow, _⟩
    · cases Except.ok.inj (hk.symm.trans hl')
      exact hM.insert hl hlearns' hgrows hmem
    · cases hthrow.symm.trans hl'
  exact houtcome.of_eq_ok h

/-- Of the initial call the system has told as soon as an access sequence is known. -/
def KnowsInitialCall (T : System α β) (s : TableSession α) : Prop :=
  s.store.access.keys ≠ [] → s.initialCall = T.initialCall

/-- A learner that is refined with a word over its symbols leaves the session sound. -/
theorem Sound.of_refine (hs : s.Sound T limit) {c : α} {l l' : ObservationTable (LocalSymbol α)}
    (hl : s.learners.get? c = some l) {v : LabelledWord (LocalSymbol α)} (hv : v.word ⊆ l.alphabet)
    (h : LocalLearning.refine (s.store.askLocal T.oracle c) v l = Except.ok (true, l')) :
    (s.withLearner c l').Sound T limit := by
  obtain ⟨hlearns, hgrows, _⟩ := (hs.learns c l hl).of_refine hs.store hv h
  exact hs.withLearner hl hlearns hgrows

/-- A local counterexample is a word over the symbols of its learner. -/
theorem Sound.localCounterexample_subset (hs : s.Sound T limit) {c : α}
    {l : ObservationTable (LocalSymbol α)} (hl : s.learners.get? c = some l)
    {v : LabelledWord (LocalSymbol α)} (hv : s.localCounterexample q = .ok (c, v)) :
    v.word ⊆ l.alphabet := by
  obtain ⟨⟨_, _, _, hword⟩, _⟩ := Blames.of_localCounterexample hv
  exact hs.localWord_subset hl hword

/-- Every change keeps what is known of the system true. -/
theorem Change.sound (h : Change T.oracle limit q s s') (hq : q.accepted = T.accepts q.word)
    (hs : s.Sound T limit) (hi : s.KnowsInitialCall T) :
    s'.Sound T limit ∧ s'.KnowsInitialCall T := by
  cases h with
  | @shown found S hacc hne hscan =>
    have hreached := System.reached_ne_dead_of_accepts (hq.symm.trans hacc)
    obtain ⟨hS, hrecords, _⟩ := SequenceStore.scan_spec hs.store hreached hscan
    have hhead := head?_eq_initialCall hreached hne
    exact ⟨hs.withStore hS (fun _ => hrecords.access_mono) (fun _ => hrecords.terminating_mono)
      hhead, fun _ => hhead⟩
  | @grown c M hknown _ hgrow =>
    obtain ⟨hk, hx⟩ := hs.store.askable_call hknown
    exact ⟨(Grown.of_foldlM hs hx hgrow).sound hs hknown hk, hi⟩
  | @discovered c l hknown _ hstart =>
    rcases start_cases T.oracle_eq hs.store hknown hs.askable with
      ⟨k, hk, hlearns, hcurrent⟩ | ⟨hthrow, _⟩
    · cases Except.ok.inj (hk.symm.trans hstart)
      have hinitial := hi (List.ne_nil_of_mem hknown)
      exact ⟨hs.insert hinitial hlearns (fun a x hx => hcurrent x (AssocMap.mem_values_of_get? hx)) _,
        fun _ => hinitial⟩
    · cases hthrow.symm.trans hstart
  | @searched c l out S hl hsearch =>
    have hlearns := hs.learns c l hl
    have hS := SequenceStore.scanHypotheses_genuine hs.store hlearns (by rw [hl]; rfl) hsearch
    obtain ⟨_, himproves, _⟩ := SequenceStore.scanHypotheses_improves hsearch
    have hinitial := hi (List.ne_nil_of_mem hlearns.access)
    exact ⟨hs.withStore hS (fun _ hd => himproves.access ▸ hd)
      (fun d hd => (himproves.terminating d).2 (.inl hd)) hinitial, fun _ => hinitial⟩
  | @resolved c l l' v _ hlocal hl hrefine =>
    exact ⟨hs.of_refine hl (hs.localCounterexample_subset hl hlocal) hrefine, hi⟩
  | @repaired c l l' v hl hviolation hrefine =>
    obtain ⟨x, hx⟩ := (hs.learns c l hl).violation_spec hs.store hviolation
    exact ⟨hs.of_refine hl hx.subset hrefine, hi⟩

theorem sound_of_changes (h : ReflTransGen (Change T.oracle limit q) s s')
    (hq : q.accepted = T.accepts q.word) (hs : s.Sound T limit) (hi : s.KnowsInitialCall T) :
    s'.Sound T limit ∧ s'.KnowsInitialCall T := by
  induction h with
  | refl => exact ⟨hs, hi⟩
  | tail _ hstep ih => exact hstep.sound hq ih.1 ih.2

/-! ## Sessions that truthful words lead to -/

/-- The sessions that can be reached from the beginning by learning from truthful words. -/
inductive Reachable (T : System α β) (limit : Nat) (preference : Preference) :
    TableSession α → Prop where
  | start : Reachable T limit preference (start T.alphabet preference)
  | refine {s s' : TableSession α} {q : LabelledWord α} {changed : Bool} :
      Reachable T limit preference s → q.accepted = T.accepts q.word →
      s.refine T.oracle (firstTable limit) q = .ok (changed, s') →
      Reachable T limit preference s'

namespace Reachable

variable {preference : Preference}

theorem invariant (h : Reachable T limit preference s) :
    s.Sound T limit ∧ s.KnowsInitialCall T ∧ s.Outstanding [] [] := by
  induction h with
  | start =>
    exact ⟨sound_start T limit preference, fun h => absurd rfl h,
      outstanding_start T.alphabet preference⟩
  | refine _ hq hrefine ih =>
    obtain ⟨hs, hi, hout⟩ := ih
    obtain ⟨hsteps, hout'⟩ := changes_of_refine hout hrefine
    obtain ⟨hs', hi'⟩ := sound_of_changes hsteps hq hs hi
    exact ⟨hs', hi', hout'⟩

theorem sound (h : Reachable T limit preference s) : s.Sound T limit ∧ s.Complete := by
  obtain ⟨hs, _, hout⟩ := h.invariant
  exact ⟨hs, fun c hc => ((hout.learners c).1 hc).resolve_right List.not_mem_nil,
    fun c hc => ((hout.usable c).1 hc).resolve_right List.not_mem_nil⟩

/-- Whatever a session records of a system while it learns from truthful words can be read there: behind
an access sequence its call enters the procedure, and a terminating sequence and a return end it. -/
theorem genuine_sequences (h : Reachable T limit preference s) :
    (∀ c u, s.store.access.get? c = some u → T.Accesses c u) ∧
      ∀ c t, s.store.terminating.get? c = some t → T.Terminates c t := by
  have hS := h.sound.1.store
  refine ⟨fun c u hu => ?_, fun c t ht => ?_⟩
  · obtain ⟨_, q, fs, hq, hreached⟩ := hS.access c u hu
    exact ⟨q, fs, hq, hreached⟩
  · exact System.terminates_iff_returns.2 (hS.terminating c t ht).2

end Reachable

/-- The terminating sequence of `T` that is kept is not in the word: the first table of `T` has shown
it. -/
theorem genuine_returningSystem : ∃ s, Reachable returningSystem.toSystem 5 .shortest s ∧
    s.store.terminating.get? 'T' = some [] ∧ returningSystem.Terminates 'T' [] := by
  have hrun : ((start returningSystem.alphabet .shortest : TableSession Char).refine
      returningSystem.oracle (firstTable 5) ⟨['S', 'T', 'b', 'R'], true⟩).map
        (fun r => r.2.store.terminating.get? 'T') = .ok (some []) := by decide +kernel
  obtain ⟨r, hr, ht⟩ := exists_of_map_eq_ok hrun
  have hreachable : Reachable returningSystem.toSystem 5 .shortest r.2 := .refine .start rfl hr
  exact ⟨r.2, hreachable, ht, hreachable.genuine_sequences.2 'T' [] ht⟩

end Session

end BehavioralAutomata
