import BehavioralAutomata.Proofs.Learning.Availability

/-!
# The events of a session are its history

The oracle is any function here as well.

* `discoveries`, `growths`: the two kinds of events, each in the order in which they were logged.
* `LocalAlphabet.replay`: what a local alphabet becomes by the events.
* `Session.Change.logged_cases`: a change logs nothing, a growth or a discovery.
* `Session.Logged`: the local alphabet, the learners and their alphabets are those that the events tell.
* `Session.Taught.events_tell`: so it is whatever the session was taught.
-/

namespace BehavioralAutomata

open Relation (ReflTransGen)

variable {α : Type} [DecidableEq α]

/-! ## Replaying events -/

section

variable {events events' : List (SessionEvent α)}

omit [DecidableEq α] in
/-- The procedures that were discovered, in order. -/
def discoveries (events : List (SessionEvent α)) : List α :=
  events.filterMap fun
    | .discovered c => some c
    | .grown _ => none

omit [DecidableEq α] in
/-- The local symbols that became current, in order. -/
def growths (events : List (SessionEvent α)) : List (LocalSymbol α) :=
  events.filterMap fun
    | .discovered _ => none
    | .grown x => some x

/-- The local alphabet behind the events. -/
def LocalAlphabet.replay (B : LocalAlphabet α) (events : List (SessionEvent α)) : LocalAlphabet α :=
  (growths events).foldl .set B

omit [DecidableEq α] in
theorem discoveries_append :
    discoveries (events ++ events') = discoveries events ++ discoveries events' :=
  List.filterMap_append

omit [DecidableEq α] in
theorem growths_append : growths (events ++ events') = growths events ++ growths events' :=
  List.filterMap_append

theorem LocalAlphabet.replay_append (B : LocalAlphabet α) :
    B.replay (events ++ events') = (B.replay events).replay events' := by
  rw [replay, growths_append, List.foldl_append, replay, replay]

end

theorem eraseDups_eq_of_nodup {β : Type} [DecidableEq β] {l : List β} (h : l.Nodup) :
    l.eraseDups = l := by
  induction l with
  | nil => rfl
  | cons a l ih =>
    obtain ⟨ha, hl⟩ := List.nodup_cons.1 h
    have hfilter : l.filter (fun b => !b == a) = l := by
      refine List.filter_eq_self.2 fun b hb => ?_
      have hne : b ≠ a := fun heq => ha (heq ▸ hb)
      simp [hne]
    rw [List.eraseDups_cons, hfilter, ih hl]

namespace Session

variable {f : List α → Bool} {limit : Nat} {s s' : TableSession α} {q : LabelledWord α}
  {A : Alphabet α}

/-! ## Single changes -/

/-- No two symbols have the same local symbol. -/
theorem Equipped.nodup_symbols (hs : s.Equipped) : s.localAlphabet.symbols.Nodup := by
  have hkeys : s.localAlphabet.symbols.map LocalSymbol.symbol = s.localAlphabet.entries.keys := by
    rw [LocalAlphabet.symbols, AssocMap.values, AssocMap.keys, List.map_map]
    exact List.map_congr_left fun e he => hs.own e.1 e.2 (AssocMap.get?_eq_some_iff.2 he)
  exact List.Nodup.of_map LocalSymbol.symbol (hkeys ▸ s.localAlphabet.entries.nodup_keys)

/-- The procedures that have learners in `s'` had ones in `s`, whose alphabets have been continued by
`new`. -/
structure Continues (s s' : TableSession α) (new : List (LocalSymbol α)) : Prop where
  keys : s'.learners.keys = s.learners.keys
  alphabet : ∀ c l', s'.learners.get? c = some l' →
    ∃ l, s.learners.get? c = some l ∧ l'.alphabet = l.alphabet ++ new

theorem Continues.of_learners_eq (h : s'.learners = s.learners) : s.Continues s' [] where
  keys := by rw [h]
  alphabet c l hl := ⟨l, h ▸ hl, (List.append_nil _).symm⟩

theorem Continues.withLearner {c : α} {l l' : ObservationTable (LocalSymbol α)}
    (hl : s.learners.get? c = some l) (hA : l'.alphabet = l.alphabet) :
    s.Continues (s.withLearner c l') [] where
  keys := (AssocMap.keys_insert s.learners c l').trans (if_pos (AssocMap.mem_keys_iff.2 ⟨l, hl⟩))
  alphabet d k hk := by
    rw [get?_withLearner] at hk
    split at hk
    · next hdc =>
      cases hk
      exact ⟨l, hdc ▸ hl, by rw [hA, List.append_nil]⟩
    · exact ⟨k, hk, (List.append_nil _).symm⟩

/-- What a change does to the log, and to what the log is about. -/
theorem Change.logged_cases (h : Change (answering f) limit q s s') (hs : s.Equipped) :
    (s'.events = s.events ∧ s'.localAlphabet = s.localAlphabet ∧ s.Continues s' []) ∨
    (∃ c, ¬ s.Usable c ∧ s'.events = s.events ++ [.grown (.call c true)] ∧
      s'.localAlphabet = s.localAlphabet.set (.call c true) ∧
      s.Continues s' [.call c true]) ∨
    ∃ c l, c ∉ s.learners.keys ∧ s'.events = s.events ++ [.discovered c] ∧
      s'.localAlphabet = s.localAlphabet ∧ s'.learners = s.learners.insert c l ∧
      l.alphabet = s.localAlphabet.symbols := by
  cases h with
  | shown => exact .inl ⟨rfl, rfl, .of_learners_eq rfl⟩
  | searched => exact .inl ⟨rfl, rfl, .of_learners_eq rfl⟩
  | @grown c M hknown hnot hgrow =>
    have hM := (hs.growLearners_outcome hknown).of_eq_ok hgrow
    refine .inr (.inl ⟨c, hnot, rfl, rfl, hM.keys, fun d l' hl' => ?_⟩)
    obtain ⟨l, hl, _, _, hA⟩ := hM.exists_of_get? hl'
    -- a call that was not usable is new to all tables
    rw [if_neg fun hmem => hnot (hs.usable d l c hl hmem)] at hA
    exact ⟨l, hl, hA⟩
  | @discovered c l hknown hfresh hstart =>
    obtain ⟨_, hA⟩ := (start_outcome c ((hs.serves_symbols hknown).responds f)).of_eq_ok hstart
    rw [eraseDups_eq_of_nodup hs.nodup_symbols] at hA
    exact .inr (.inr ⟨c, l, hfresh, rfl, rfl, rfl, hA⟩)
  | @resolved c l l' v _ hlocal hl hrefine =>
    obtain ⟨_, _, hA⟩ :=
      (hs.refine_outcome hl (hs.localCounterexample_subset hl hlocal)).of_eq_ok hrefine
    exact .inl ⟨rfl, rfl, .withLearner hl hA⟩
  | @repaired c l l' v hl hviolation hrefine =>
    obtain ⟨_, _, hA⟩ :=
      (hs.refine_outcome hl ((hs.spelled c l hl).violation_subset hviolation)).of_eq_ok hrefine
    exact .inl ⟨rfl, rfl, .withLearner hl hA⟩

/-- The events tell how the local alphabet, the learners and their alphabets came about. -/
structure Logged (A : Alphabet α) (s : TableSession α) : Prop where
  localAlphabet : (LocalAlphabet.ofAlphabet A).replay s.events = s.localAlphabet
  keys : s.learners.keys = discoveries s.events
  usable : ∀ x ∈ growths s.events, ∃ c, x = .call c true ∧ s.Usable c
  nodup : ((growths s.events).map LocalSymbol.symbol).Nodup
  learners : ∀ c l, s.learners.get? c = some l → ∃ before after,
    s.events = before ++ .discovered c :: after ∧
      l.alphabet = ((LocalAlphabet.ofAlphabet A).replay before).symbols ++
        growths after

theorem logged_start (A : Alphabet α) (preference : Preference) :
    (start A preference : TableSession α).Logged A where
  localAlphabet := rfl
  keys := rfl
  usable := List.forall_mem_nil _
  nodup := .nil
  learners c l h := by simp [start] at h

namespace Logged

/-- What is logged stays so if nothing is logged. -/
theorem idle (h : s.Logged A) (hevents : s'.events = s.events)
    (hlocal : s'.localAlphabet = s.localAlphabet) (hcontinues : s.Continues s' []) :
    s'.Logged A := by
  refine ⟨?_, ?_, fun x hx => ?_, ?_, fun c l' hl' => ?_⟩
  · rw [hevents, hlocal]
    exact h.localAlphabet
  · rw [hevents, hcontinues.keys]
    exact h.keys
  · rw [hevents] at hx
    obtain ⟨d, rfl, hd⟩ := h.usable x hx
    rw [Usable, ← hlocal] at hd
    exact ⟨d, rfl, hd⟩
  · rw [hevents]
    exact h.nodup
  · obtain ⟨l, hl, hA⟩ := hcontinues.alphabet c l' hl'
    rw [hevents, hA, List.append_nil]
    exact h.learners c l hl

theorem grown (h : s.Logged A) {c : α} (hnot : ¬ s.Usable c)
    (hevents : s'.events = s.events ++ [.grown (.call c true)])
    (hlocal : s'.localAlphabet = s.localAlphabet.set (.call c true))
    (hcontinues : s.Continues s' [.call c true]) : s'.Logged A := by
  have hgrowths : growths s'.events =
      growths s.events ++ [.call c true] := by
    rw [hevents, growths_append]
    rfl
  have hget : ∀ d, s'.localAlphabet.get? d =
      if d = c then some (.call c true) else s.localAlphabet.get? d := fun d => by
    rw [hlocal, LocalAlphabet.Fits.get?_set]
  refine ⟨?_, ?_, fun x hx => ?_, ?_, fun d l' hl' => ?_⟩
  · rw [hevents, LocalAlphabet.replay_append, h.localAlphabet, hlocal]
    rfl
  · rw [hevents, discoveries_append, hcontinues.keys, h.keys]
    exact (List.append_nil _).symm
  · rw [hgrowths] at hx
    rcases List.mem_append.1 hx with hx | hx
    · obtain ⟨d, rfl, hd⟩ := h.usable x hx
      refine ⟨d, rfl, (hget d).trans ?_⟩
      split
      · next hdc => rw [hdc]
      · exact hd
    · exact ⟨c, List.mem_singleton.1 hx, (hget c).trans (if_pos rfl)⟩
  · rw [hgrowths, List.map_append]
    refine List.nodup_append.2 ⟨h.nodup, List.nodup_singleton _, fun a ha b hb heq => hnot ?_⟩
    obtain ⟨x, hx, rfl⟩ := List.mem_map.1 ha
    obtain ⟨d, rfl, hd⟩ := h.usable x hx
    have hdc : d = c := heq.trans (List.mem_singleton.1 hb)
    exact hdc ▸ hd
  · obtain ⟨l, hl, hA⟩ := hcontinues.alphabet d l' hl'
    obtain ⟨before, after, hsplit, hl⟩ := h.learners d l hl
    refine ⟨before, after ++ [.grown (.call c true)], ?_, ?_⟩
    · rw [hevents, hsplit, List.append_assoc, List.cons_append]
    · rw [hA, hl, List.append_assoc, growths_append]
      rfl

theorem discovered (h : s.Logged A) {c : α} {l : ObservationTable (LocalSymbol α)}
    (hfresh : c ∉ s.learners.keys) (hevents : s'.events = s.events ++ [.discovered c])
    (hlocal : s'.localAlphabet = s.localAlphabet) (hlearners : s'.learners = s.learners.insert c l)
    (hA : l.alphabet = s.localAlphabet.symbols) : s'.Logged A := by
  have hgrowths : growths s'.events = growths s.events := by
    rw [hevents, growths_append]
    exact List.append_nil _
  refine ⟨?_, ?_, fun x hx => ?_, ?_, fun d k hk => ?_⟩
  · rw [hevents, LocalAlphabet.replay_append, h.localAlphabet, hlocal]
    rfl
  · rw [hevents, discoveries_append, hlearners, AssocMap.keys_insert, if_neg hfresh, h.keys]
    rfl
  · rw [hgrowths] at hx
    obtain ⟨d, rfl, hd⟩ := h.usable x hx
    rw [Usable, ← hlocal] at hd
    exact ⟨d, rfl, hd⟩
  · rw [hgrowths]
    exact h.nodup
  · rw [hlearners, AssocMap.get?_insert] at hk
    split at hk
    · next hdc =>
      subst hdc
      cases hk
      refine ⟨s.events, [], hevents, ?_⟩
      rw [h.localAlphabet, hA]
      exact (List.append_nil _).symm
    · obtain ⟨before, after, hsplit, hk⟩ := h.learners d k hk
      refine ⟨before, after ++ [.discovered c], ?_, ?_⟩
      · rw [hevents, hsplit, List.append_assoc, List.cons_append]
      · rw [hk, growths_append]
        exact congrArg _ (List.append_nil _).symm

end Logged

/-- Every change keeps the events a history, and it adds to their end at most. -/
theorem Change.logged (h : Change (answering f) limit q s s') (hs : s.Equipped) (hA : s.Logged A) :
    s'.Logged A ∧ s.events <+: s'.events := by
  rcases h.logged_cases hs with ⟨hevents, hlocal, hcontinues⟩ |
    ⟨c, hnot, hevents, hlocal, hcontinues⟩ | ⟨c, l, hfresh, hevents, hlocal, hlearners, hl⟩
  · exact ⟨hA.idle hevents hlocal hcontinues, hevents ▸ List.prefix_rfl⟩
  · exact ⟨hA.grown hnot hevents hlocal hcontinues, hevents ▸ List.prefix_append ..⟩
  · exact ⟨hA.discovered hfresh hevents hlocal hlearners hl, hevents ▸ List.prefix_append ..⟩

theorem logged_of_changes (h : ReflTransGen (Change (answering f) limit q) s s') (hs : s.Equipped)
    (hA : s.Logged A) : s'.Logged A ∧ s.events <+: s'.events := by
  induction h with
  | refl => exact ⟨hA, List.prefix_rfl⟩
  | tail hsteps hstep ih =>
    obtain ⟨hlogged, hprefix⟩ := ih
    obtain ⟨hlogged', hprefix'⟩ := hstep.logged (equipped_of_changes hsteps hs).1 hlogged
    exact ⟨hlogged', hprefix.trans hprefix'⟩

namespace Taught

variable {preference : Preference}

theorem logged (h : Taught f A limit preference s) : s.Logged A := by
  induction h with
  | start => exact logged_start A preference
  | refine hprev hrefine ih =>
    obtain ⟨_, hs, hout⟩ := hprev.invariant
    exact (logged_of_changes (changes_of_refine hout hrefine).1 hs ih).1

/-- Whatever a session learns from, its events only ever get more behind those that are there. Every
procedure is discovered once and every call grows once at most, to a usable one. The events tell which
procedures have learners, what the local alphabet is, and the alphabet of each learner, in its order:
the local alphabet that there was when its procedure was discovered, and all growths since then. -/
theorem events_tell (h : Taught f A limit preference s) :
    (∀ q b s', s.refine (answering f) (firstTable limit) q = .ok (b, s') → s.events <+: s'.events) ∧
    (discoveries s.events).Nodup ∧
    ((growths s.events).map LocalSymbol.symbol).Nodup ∧
    (∀ x ∈ growths s.events, ∃ c, A.kind? c = some .call ∧ x = .call c true) ∧
    s.discovered = discoveries s.events ∧
    (LocalAlphabet.ofAlphabet A).replay s.events = s.localAlphabet ∧
    ∀ c l, s.learners.get? c = some l → ∃ before after,
      s.events = before ++ .discovered c :: after ∧
        l.alphabet = ((LocalAlphabet.ofAlphabet A).replay before).symbols ++ growths after := by
  obtain ⟨hA, hs, hout⟩ := h.invariant
  have hlogged := h.logged
  refine ⟨fun q b s' hrun => ?_, ?_, hlogged.nodup, fun x hx => ?_, hlogged.keys,
    hlogged.localAlphabet, hlogged.learners⟩
  · exact (logged_of_changes (changes_of_refine hout hrun).1 hs hlogged).2
  · exact hlogged.keys ▸ s.learners.nodup_keys
  · obtain ⟨c, rfl, hc⟩ := hlogged.usable x hx
    exact ⟨c, hA ▸ (hout.fits.symbol_eq hc).2, rfl⟩

end Taught

/-- The procedure of `S` is discovered between the two growths, of which the second is due to its own
hypothesis. -/
theorem events_tell_rejectsTwo : ∃ s l before after,
    Taught rejectsTwo ⟨['b'], ['S', 'T'], 'R', by decide⟩ 20 .shortest s ∧
      s.events = [.grown (.call 'T' true), .discovered 'S', .grown (.call 'S' true),
        .discovered 'T'] ∧
      s.learners.get? 'S' = some l ∧ s.events = before ++ .discovered 'S' :: after ∧
      l.alphabet = ((LocalAlphabet.ofAlphabet ⟨['b'], ['S', 'T'], 'R', by decide⟩).replay
        before).symbols ++ growths after := by
  have hrun : ((start ⟨['b'], ['S', 'T'], 'R', by decide⟩ .shortest : TableSession Char).refine
      (answering rejectsTwo) (firstTable 20) ⟨['S', 'T', 'b', 'R'], true⟩).map
        (fun r => r.2.events) = .ok [.grown (.call 'T' true), .discovered 'S',
          .grown (.call 'S' true), .discovered 'T'] := by decide +kernel
  obtain ⟨r, hr, hevents⟩ := exists_of_map_eq_ok hrun
  have htaught : Taught rejectsTwo ⟨['b'], ['S', 'T'], 'R', by decide⟩ 20 .shortest r.2 :=
    .refine .start hr
  obtain ⟨_, _, _, _, hdiscovered, _, hlearners⟩ := htaught.events_tell
  have hS : 'S' ∈ r.2.learners.keys := by
    change 'S' ∈ r.2.discovered
    rw [hdiscovered, hevents]
    decide
  obtain ⟨l, hl⟩ := AssocMap.mem_keys_iff.1 hS
  obtain ⟨before, after, hsplit, hA⟩ := hlearners 'S' l hl
  exact ⟨r.2, l, before, after, htaught, hevents, hl, hsplit, hA⟩

end Session

end BehavioralAutomata
