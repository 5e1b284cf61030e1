import BehavioralAutomata.Proofs.Learning.LocalCounterexamples
import BehavioralAutomata.Proofs.Learning.Refinement

/-!
# The budgets of learning suffice

The loops of learning have budgets, after which they fail. Here they are compared with the loops that have
none and go on until their own test ends them. The limit of the tables may be too small, so that learning
fails; then both loops fail alike.

* `Session.Refines`: learning from a word without budgets.
* `Session.Unblamed.stops`, `Untouched.stops`: resolving a word ends by itself. Of an accepted word no
  position is blamed twice, and on a rejected one at most one refinement succeeds.
* `Session.Untried.stops`: so does repairing a procedure, because every symbol is tried once behind a
  return.
* `Session.Reachable.refines`: so does learning from a word as a whole.
-/

namespace BehavioralAutomata.Session

variable {α : Type} [DecidableEq α]

/-! ## Loops without budgets -/

section

variable (ask : List α → Except (LearningError α) Bool)

/-- The procedures are repaired one after the other until all are or one can not be. -/
inductive RepairsAll : List α → TableSession α → Except (LearningError α) (TableSession α) → Prop where
  | nil {s : TableSession α} : RepairsAll [] s (.ok s)
  | cons {c : α} {cs : List α} {s s' : TableSession α}
      {r : Except (LearningError α) (TableSession α)} :
      Stops (repairStep ask c) s (.ok s') → RepairsAll cs s' r → RepairsAll (c :: cs) s r
  | error {c : α} {cs : List α} {s : TableSession α} {e : LearningError α} :
      Stops (repairStep ask c) s (.error e) → RepairsAll (c :: cs) s (.error e)

/-- Learning from a word ends, and with this result. -/
inductive Refines (create : α → List (LocalSymbol α) → ObservationTable (LocalSymbol α))
    (q : LabelledWord α) (s : TableSession α) : Except (LearningError α) (TableSession α) → Prop where
  | empty : q.word = [] → Refines create q s (.ok s)
  | unextracted {e : LearningError α} :
      q.word ≠ [] → s.extract ask create q = .error e → Refines create q s (.error e)
  | unresolved {b : Bool} {s₁ : TableSession α} {e : LearningError α} :
      q.word ≠ [] → s.extract ask create q = .ok (b, s₁) →
      Stops (resolveStep ask q) s₁ (.error e) → Refines create q s (.error e)
  | resolved {b : Bool} {s₁ s₂ : TableSession α} {r : Except (LearningError α) (TableSession α)} :
      q.word ≠ [] → s.extract ask create q = .ok (b, s₁) → Stops (resolveStep ask q) s₁ (.ok s₂) →
      RepairsAll ask s₂.discovered s₂ r → Refines create q s r

end

variable {ask : List α → Except (LearningError α) Bool} {q : LabelledWord α} {c : α}
  {s s' : TableSession α}

/-! ## Accepted words -/

section

variable {β : Type} [DecidableEq β] {T : System α β} {limit n : Nat}

/-- At most `n` positions of an accepted word have not been blamed. -/
structure Unblamed (T : System α β) (limit : Nat) (q : LabelledWord α) (n : Nat)
    (s : TableSession α) : Prop where
  sound : s.Sound T limit
  calls : ∀ c ∈ q.word, T.alphabet.kind? c = some .call → c ∈ s.learners.keys
  invokes : ∀ c, T.alphabet.kind? c = some .call → T.alphabet.Invokes q.word c → s.Usable c
  blamed : ∃ done, s.AllResolved q.word done ∧ q.word.length ≤ n + done.length

namespace Unblamed

variable (hT : T.EntriesAccept) (hw : T.accepts q.word = true) (hq : q.accepted = true)
  (hne : q.word ≠ [])

include hT hw hq hne

/-- When all positions have been blamed, the hypothesis agrees with the word. -/
theorem agrees (h : Unblamed T limit q 0 s) : s.agrees q = true := by
  by_contra hno
  rw [Bool.not_eq_true] at hno
  obtain ⟨hi, hnew, _⟩ := exists_unresolved hT hw hq hne h.sound h.calls h.invokes hno
  obtain ⟨done, hdone, hlen⟩ := h.blamed
  have hlt := hdone.length_lt hi hnew
  omega

theorem step (h : Unblamed T limit q (n + 1) s) (hstep : resolveStep T.oracle q s = .inl s') :
    Unblamed T limit q n s' := by
  obtain ⟨hno, hrefine⟩ := exists_of_resolveStep hstep
  obtain ⟨hi, hnew, _⟩ := exists_unresolved hT hw hq hne h.sound h.calls h.invokes hno
  obtain ⟨d, v, l, l', hrefinement⟩ := h.sound.exists_refinement hrefine
  have hadapts := hrefinement.adapts
  obtain ⟨done, hdone, hlen⟩ := h.blamed
  refine ⟨hrefinement.sound h.sound, fun c hc hk => hadapts.keys ▸ h.calls c hc hk,
    fun c hk hinv => hadapts.usable c (h.invokes c hk hinv), _, hrefinement.allResolved hdone hi hnew, ?_⟩
  rw [List.length_cons]
  omega

/-- The budget of one refinement for every position suffices for an accepted word. -/
theorem stops (h : Unblamed T limit q n s) :
    Stops (resolveStep T.oracle q) s ((resolve T.oracle q n s).map Prod.snd) := by
  apply Stops.of_budget (fun n s => (resolve T.oracle q n s).map Prod.snd) (Unblamed T limit q) _
    resolve_succ _ h
  · intro s hs
    have hagrees := hs.agrees hT hw hq hne
    simp only [resolveStep_of_agrees hagrees, resolve_of_agrees hagrees]
    rfl
  · intro n s t hs ht
    exact hs.step hT hw hq hne ht

end Unblamed

/-! ## Rejected words -/

section

variable {v : List (LocalSymbol α)} {l l' : ObservationTable (LocalSymbol α)}

/-- A word that is blamed on its last position has a call in front of it. -/
theorem Refinement.two_le_length (h : Refinement T limit q s s' c v l l') (hq : q.accepted = false) :
    2 ≤ q.word.length := by
  obtain ⟨j, hj, _⟩ := h.blames
  rw [mismatch_of_rejected hq] at hj
  have hlt := (Alphabet.findCall?_lt hj).1
  omega

/-- All refinements with a rejected word have the same experiments, so that only the first one adds to
the base of a table. -/
theorem Sound.not_refined_twice {s'' : TableSession α} (hs : s.Sound T limit) (hq : q.accepted = false)
    (h : s.refineLocal T.oracle q = .ok s') : s'.refineLocal T.oracle q ≠ .ok s'' := by
  intro h'
  obtain ⟨c, v, l, l', hfirst⟩ := hs.exists_refinement h
  obtain ⟨d, u, k, k', hsecond⟩ := (hfirst.sound hs).exists_refinement h'
  have hblames := hfirst.blames
  have hblames' := hfirst.blames_iff.1 hsecond.blames
  rw [mismatch_of_rejected hq] at hblames hblames'
  obtain ⟨rfl, rfl⟩ := hblames.unique hblames'
  cases hfirst.get?_learners.symm.trans hsecond.learner
  -- the suffixes of the local word have been experiments since the first refinement
  have hE : k'.experiments ⊆ l'.experiments := by
    intro e he
    rcases (hsecond.experiments e).1 he with he | he
    · exact he
    · exact (hfirst.experiments e).2 (.inr he)
  have hlen := hfirst.learns.closed.length_base_eq hsecond.learns.closed hsecond.grows
    hsecond.alphabet hE
  have hlt := hsecond.base
  omega

/-- One refinement and the test behind it fit into `n` rounds, or the test alone if there is no
refinement. -/
structure Untouched (T : System α β) (limit : Nat) (q : LabelledWord α) (n : Nat)
    (s : TableSession α) : Prop where
  sound : s.Sound T limit
  pos : 1 ≤ n
  room : ∀ s', s.refineLocal T.oracle q = .ok s' → 2 ≤ n

/-- The budget suffices for a rejected word, because one refinement succeeds at most. -/
theorem Untouched.stops (hq : q.accepted = false) (h : Untouched T limit q n s) :
    Stops (resolveStep T.oracle q) s ((resolve T.oracle q n s).map Prod.snd) := by
  apply Stops.of_budget (fun n s => (resolve T.oracle q n s).map Prod.snd) (Untouched T limit q) _
    resolve_succ _ h
  · intro s hs
    have hpos := hs.pos
    omega
  · intro n s t hs ht
    obtain ⟨_, hrefine⟩ := exists_of_resolveStep ht
    have hroom := hs.room t hrefine
    refine ⟨(hs.sound.refineLocal hrefine).1, by omega, fun u hu => ?_⟩
    exact absurd hu (hs.sound.not_refined_twice hq hrefine)

end

/-! ## Procedures -/

/-- At most `n` symbols have not been tried behind a return of the procedure of `c`. -/
structure Untried (T : System α β) (limit : Nat) (c : α) (n : Nat) (s : TableSession α) : Prop where
  sound : s.Sound T limit
  tried : ∀ l, s.learners.get? c = some l →
    ∃ done, Tried T l done ∧ l.alphabet.length ≤ n + done.length

namespace Untried

/-- When all symbols have been tried, the procedure does not go on behind a return. -/
theorem violation?_eq_none (h : Untried T limit c 0 s) : s.violation? c = none := by
  cases hl : s.learners.get? c with
  | none =>
    rw [violation?, hl]
    rfl
  | some l =>
    rw [violation?_eq hl]
    cases hv : LocalLearner.violation? l with
    | none => rfl
    | some v =>
      obtain ⟨done, hdone, hlen⟩ := h.tried l hl
      obtain ⟨x, hx⟩ := (h.sound.learns c l hl).violation_spec h.sound.store hv
      have hlt := hx.length_lt hdone
      omega

theorem step (h : Untried T limit c (n + 1) s) (hstep : repairStep T.oracle c s = .inl s') :
    Untried T limit c n s' := by
  obtain ⟨l, v, l', hl, hv, hrefine, rfl⟩ := exists_of_repairStep hstep
  have hlearns := h.sound.learns c l hl
  obtain ⟨x, hx⟩ := hlearns.violation_spec h.sound.store hv
  obtain ⟨_, _, hA, _, hE⟩ := hlearns.of_refine h.sound.store hx.subset hrefine
  refine ⟨h.sound.of_refine hl hx.subset hrefine, fun k hk => ?_⟩
  rw [get?_withLearner, if_pos rfl] at hk
  cases hk
  obtain ⟨done, hdone, hlen⟩ := h.tried l hl
  refine ⟨x :: done, hx.tried hdone hA hE, ?_⟩
  rw [hA, List.length_cons]
  omega

/-- The budget of one refinement for every symbol suffices. -/
theorem stops (h : Untried T limit c n s) :
    Stops (repairStep T.oracle c) s ((repair T.oracle c n s).map Prod.snd) := by
  apply Stops.of_budget (fun n s => (repair T.oracle c n s).map Prod.snd) (Untried T limit c) _
    repair_succ _ h
  · intro s hs
    have hnone := hs.violation?_eq_none
    simp only [repairStep_of_violation? hnone, repair, hnone]
    rfl
  · intro n s t hs ht
    exact hs.step ht

end Untried

/-! ## Learning from words -/

/-- A round keeps a session sound. -/
theorem Sound.of_resolveStep (hs : s.Sound T limit) (h : resolveStep T.oracle q s = .inl s') :
    s'.Sound T limit :=
  (hs.refineLocal (exists_of_resolveStep h).2).1

theorem Sound.of_repairStep (hs : s.Sound T limit) (h : repairStep T.oracle c s = .inl s') :
    s'.Sound T limit := by
  obtain ⟨l, v, l', hl, hv, hrefine, rfl⟩ := exists_of_repairStep h
  obtain ⟨x, hx⟩ := (hs.learns c l hl).violation_spec hs.store hv
  exact hs.of_refine hl hx.subset hrefine

theorem Sound.stops_repair (hs : s.Sound T limit) (c : α) :
    Stops (repairStep T.oracle c) s ((repair T.oracle c (s.repairBudget c) s).map Prod.snd) := by
  refine Untried.stops ⟨hs, fun l hl => ⟨[], .nil, ?_⟩⟩
  have hbudget : s.repairBudget c = l.alphabet.length := by
    rw [repairBudget, hl]
    rfl
  rw [hbudget]
  exact Nat.le_add_right ..

theorem map_repairAll (c : α) (cs : List α) (s : TableSession α) :
    (repairAll ask (c :: cs) s).map Prod.snd =
      (repair ask c (s.repairBudget c) s).map Prod.snd >>= fun s =>
        (repairAll ask cs s).map Prod.snd := by
  rw [repairAll]
  cases repair ask c (s.repairBudget c) s with
  | error e => rfl
  | ok r =>
    change (repairAll ask cs r.2 >>= _).map Prod.snd = (repairAll ask cs r.2).map Prod.snd
    cases repairAll ask cs r.2 <;> rfl

theorem Sound.repairsAll (hs : s.Sound T limit) (cs : List α) :
    RepairsAll T.oracle cs s ((repairAll T.oracle cs s).map Prod.snd) := by
  induction cs generalizing s with
  | nil => exact .nil
  | cons c cs ih =>
    have hstops := hs.stops_repair c
    rw [map_repairAll]
    generalize (repair T.oracle c (s.repairBudget c) s).map Prod.snd = x at hstops ⊢
    cases x with
    | error e => exact .error hstops
    | ok s' =>
      have hs' := hstops.keeps (fun _ _ hs => hs.of_repairStep) (fun _ _ => eq_of_repairStep) hs
      exact .cons hstops (ih hs')

theorem map_refine {create : α → List (LocalSymbol α) → ObservationTable (LocalSymbol α)}
    (hne : q.word ≠ []) {b : Bool} {s₁ : TableSession α}
    (hextract : s.extract ask create q = .ok (b, s₁)) :
    (s.refine ask create q).map Prod.snd =
      (resolve ask q (s₁.resolveBudget q) s₁).map Prod.snd >>= fun s₂ =>
        (repairAll ask s₂.discovered s₂).map Prod.snd := by
  rw [Session.refine, if_neg hne, hextract]
  change (resolve ask q (s₁.resolveBudget q) s₁ >>= _).map Prod.snd = _
  cases resolve ask q (s₁.resolveBudget q) s₁ with
  | error e => rfl
  | ok r =>
    change (repairAll ask r.2.discovered r.2 >>= _).map Prod.snd =
      (repairAll ask r.2.discovered r.2).map Prod.snd
    cases repairAll ask r.2.discovered r.2 <;> rfl

namespace Reachable

variable {preference : Preference} (h : Reachable T limit preference s)
  (hq : q.accepted = true → T.accepts q.word = true) (hne : q.word ≠ []) {b : Bool}
  {s₁ : TableSession α} (hextract : s.extract T.oracle (firstTable limit) q = .ok (b, s₁))

include h hq hne hextract

/-- Nothing is taken from a word that is labelled as rejected, even if the label is wrong. -/
theorem sound_of_extract : s₁.Sound T limit := by
  obtain ⟨hs, hi, hout⟩ := h.invariant
  cases hacc : q.accepted with
  | true =>
    have htrue : q.accepted = T.accepts q.word := hacc.trans (hq hacc).symm
    exact (sound_of_changes (changes_of_extract hout hne hextract).1 htrue hs hi).1
  | false =>
    rw [extract, hacc, if_neg Bool.false_ne_true] at hextract
    cases hextract
    exact hs

/-- Resolving the word ends within its budget. -/
theorem stops_resolve (hT : T.EntriesAccept) : Stops (resolveStep T.oracle q) s₁
    ((resolve T.oracle q (s₁.resolveBudget q) s₁).map Prod.snd) := by
  have hs₁ := h.sound_of_extract hq hne hextract
  rw [resolveBudget_eq]
  cases hacc : q.accepted with
  | true =>
    obtain ⟨hs, _, hout⟩ := h.invariant
    obtain ⟨_, _, hseen⟩ := changes_of_extract hout hne hextract
    rw [hs.alphabet] at hseen
    obtain ⟨hcalls, hinvokes⟩ := hseen hacc
    exact Unblamed.stops hT (hq hacc) hacc hne
      ⟨hs₁, hcalls, hinvokes, [], .nil s₁ q.word, Nat.le_add_right ..⟩
  | false =>
    refine Untouched.stops hacc ⟨hs₁, List.length_pos_of_ne_nil hne, fun s₂ hs₂ => ?_⟩
    obtain ⟨c, v, l, l', hrefinement⟩ := hs₁.exists_refinement hs₂
    exact hrefinement.two_le_length hacc

omit hne hextract in
/-- Learning from a word ends by itself, and what it ends with is the result within the budgets. Only
words that are labelled as accepted although the system rejects them are left out. -/
theorem refines (hT : T.EntriesAccept) : Refines T.oracle (firstTable limit) q s
    ((s.refine T.oracle (firstTable limit) q).map Prod.snd) := by
  by_cases hne : q.word = []
  · rw [Session.refine, if_pos hne]
    exact .empty hne
  cases hextract : s.extract T.oracle (firstTable limit) q with
  | error e =>
    rw [Session.refine, if_neg hne, hextract]
    exact .unextracted hne hextract
  | ok r =>
    have hstops := h.stops_resolve hq hne hextract hT
    rw [map_refine hne hextract]
    generalize (resolve T.oracle q (r.2.resolveBudget q) r.2).map Prod.snd = x at hstops ⊢
    cases x with
    | error e => exact .unresolved hne hextract hstops
    | ok s₂ =>
      have hs₂ := hstops.keeps (fun _ _ hs => hs.of_resolveStep) (fun _ _ => eq_of_resolveStep)
        (h.sound_of_extract hq hne hextract)
      exact .resolved hne hextract hstops (hs₂.repairsAll s₂.discovered)

end Reachable

end

end BehavioralAutomata.Session
