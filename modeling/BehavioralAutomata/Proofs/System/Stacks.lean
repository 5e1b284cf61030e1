import BehavioralAutomata.System.Basic
import Mathlib.Data.List.Basic

/-!
# Runs above a stack

A procedure can not see the frames that wait for it, so a run does not depend on what lies below the
frames that it starts with.

* `System.run_above`: frames can be put below a run that stays alive.
* `System.Returns`: a word that a procedure can read before it returns; `System.run_call_return` says
  that such a word is one step of the caller.
* `System.Settled`: the frames that wait are in accepting states. Every configuration that a word leads
  to is settled, so a run that is alive accepts unless its top frame has just been entered.
-/

namespace BehavioralAutomata

namespace Configuration

variable {α : Type u}

/-- The configuration with more frames below its stack. The end of the lowest procedure wakes the first
of them. -/
def above (c : Configuration α) (fs : List (Frame α)) : Configuration α :=
  match c, fs with
  | .active top below, fs => .active top (below ++ fs)
  | .finished, f :: fs => .active f fs
  | c, _ => c

@[simp] theorem above_active (top : Frame α) (below fs : List (Frame α)) :
    (active top below).above fs = active top (below ++ fs) := rfl

@[simp] theorem above_finished_cons (f : Frame α) (fs : List (Frame α)) :
    (finished : Configuration α).above (f :: fs) = active f fs := rfl

@[simp] theorem above_finished_nil : (finished : Configuration α).above [] = finished := rfl

@[simp] theorem above_dead (fs : List (Frame α)) : (dead : Configuration α).above fs = dead := by
  cases fs <;> rfl

end Configuration

namespace System

variable {α : Type u} {β : Type v} [DecidableEq α] [DecidableEq β] {S : System α β}

/-! ## Frames below a run -/

theorem step_above (S : System α β) (top : Frame α) (below fs : List (Frame α)) (a : α) :
    S.step (.active top (below ++ fs)) a = (S.step (.active top below) a).above fs := by
  simp only [step]
  cases S.alphabet.kind? a with
  | none => simp
  | some k =>
    cases k with
    | internal => cases S.advance top a <;> simp
    | call => cases S.entry? a <;> cases S.advance top a <;> simp
    | ret =>
      cases S.advance top a with
      | none => simp
      | some f => cases below <;> cases fs <;> simp

theorem step_active_ne_initial (top : Frame α) (below : List (Frame α)) (a : α) :
    S.step (.active top below) a ≠ .initial := by
  simp only [step]
  repeat' split
  all_goals rintro ⟨⟩

@[simp] theorem run_finished_cons (a : α) (w : List α) : S.run .finished (a :: w) = .dead :=
  S.run_dead w

theorem run_finished_ne_active {f : Frame α} {fs : List (Frame α)} (w : List α) :
    S.run .finished w ≠ .active f fs := by
  intro h
  cases w with
  | nil => cases h
  | cons a w =>
    rw [run_finished_cons] at h
    cases h

/-- A run that stays alive goes the same way with more frames below it. -/
theorem run_above {top : Frame α} {below : List (Frame α)} {w : List α}
    (h : S.run (.active top below) w ≠ .dead) (fs : List (Frame α)) :
    S.run (.active top (below ++ fs)) w = (S.run (.active top below) w).above fs := by
  induction w generalizing top below with
  | nil => rfl
  | cons a w ih =>
    rw [run_cons, run_cons, step_above]
    rw [run_cons] at h
    cases hs : S.step (.active top below) a with
    | initial => exact absurd hs (step_active_ne_initial top below a)
    | dead => simp
    | active top' below' =>
      rw [hs] at h
      exact ih h
    | finished =>
      rw [hs] at h
      cases w with
      | nil => rfl
      | cons b w => exact absurd (run_finished_cons b w) h

theorem run_above_active {f g : Frame α} {bs gs : List (Frame α)} {w : List α}
    (h : S.run (.active f bs) w = .active g gs) (fs : List (Frame α)) :
    S.run (.active f (bs ++ fs)) w = .active g (gs ++ fs) := by
  rw [run_above (by simp [h]), h, Configuration.above_active]

theorem run_alone {f g : Frame α} {gs : List (Frame α)} {w : List α}
    (h : S.run (.active f []) w = .active g gs) (fs : List (Frame α)) :
    S.run (.active f fs) w = .active g (gs ++ fs) :=
  run_above_active h fs

/-! ## Single steps -/

omit [DecidableEq β] in
/-- Only a procedure can be entered. -/
theorem exists_procedure {c : α} {q : Nat} (h : S.entry? c = some q) :
    ∃ A, S.procedures.get? c = some A ∧ A.start = some q := by
  obtain ⟨P, hP, hq⟩ := Option.bind_eq_some_iff.1 h
  obtain ⟨A, hA, rfl⟩ := Option.map_eq_some_iff.1 hP
  exact ⟨A, hA, hq⟩

omit [DecidableEq β] in
theorem procedure?_of_mem {c : α} {A : Acceptor β} (h : (c, A) ∈ S.procedures.entries) :
    S.procedure? c = some ⟨A, S.read⟩ := by
  rw [procedure?, AssocMap.get?_eq_some_iff.2 h]
  rfl

omit [DecidableEq β] in
theorem entry?_of_mem {c : α} {A : Acceptor β} (h : (c, A) ∈ S.procedures.entries) :
    S.entry? c = A.start := by
  rw [System.entry?, procedure?_of_mem h]
  rfl

theorem advance_eq_some_iff {f g : Frame α} {a : α} :
    S.advance f a = some g ↔ ∃ P q, S.procedure? f.procedure = some P ∧
      P.liveSuccessor f.state a = some q ∧ g = ⟨f.procedure, q⟩ := by
  rw [advance, Option.bind_eq_some_iff]
  constructor
  · intro h
    obtain ⟨P, hP, h⟩ := h
    obtain ⟨q, hq, rfl⟩ := Option.map_eq_some_iff.1 h
    exact ⟨P, q, hP, hq, rfl⟩
  · intro h
    obtain ⟨P, q, hP, hq, rfl⟩ := h
    exact ⟨P, hP, by rw [hq]; rfl⟩

theorem procedure_advance {f g : Frame α} {a : α} (h : S.advance f a = some g) :
    g.procedure = f.procedure := by
  obtain ⟨P, q, _, _, rfl⟩ := advance_eq_some_iff.1 h
  rfl

theorem step_internal {f g : Frame α} {a : α} (ha : S.alphabet.kind? a = some .internal)
    (h : S.advance f a = some g) (fs : List (Frame α)) :
    S.step (.active f fs) a = .active g fs := by
  simp [step, ha, h]

theorem step_call {f g : Frame α} {a : α} {q : Nat} (ha : S.alphabet.kind? a = some .call)
    (he : S.entry? a = some q) (h : S.advance f a = some g) (fs : List (Frame α)) :
    S.step (.active f fs) a = .active ⟨a, q⟩ (g :: fs) := by
  simp [step, ha, he, h]

theorem step_ret {f g : Frame α} (h : S.advance f S.alphabet.ret = some g)
    (fs : List (Frame α)) :
    S.step (.active f fs) S.alphabet.ret = Configuration.finished.above fs := by
  cases fs <;> simp [step, Alphabet.kind?_eq_ret_iff.2 rfl, h]

/-- What becomes of the top frame `f` and the frames `fs` below it when a symbol does not kill the
run. -/
inductive Survives (S : System α β) (f : Frame α) (fs : List (Frame α)) (a : α) :
    Configuration α → Prop where
  | internal {g : Frame α} (kind : S.alphabet.kind? a = some .internal)
      (moved : S.advance f a = some g) : Survives S f fs a (.active g fs)
  | call {g : Frame α} {q : Nat} (kind : S.alphabet.kind? a = some .call)
      (entry : S.entry? a = some q) (moved : S.advance f a = some g) :
      Survives S f fs a (.active ⟨a, q⟩ (g :: fs))
  | ret {g : Frame α} (kind : a = S.alphabet.ret) (moved : S.advance f a = some g) :
      Survives S f fs a (Configuration.finished.above fs)

theorem survives {f : Frame α} {fs : List (Frame α)} {a : α} {c : Configuration α}
    (h : S.step (.active f fs) a = c) (hc : c ≠ .dead) : S.Survives f fs a c := by
  subst h
  simp only [step] at hc ⊢
  cases hk : S.alphabet.kind? a with
  | none => simp [hk] at hc
  | some k =>
    cases hm : S.advance f a with
    | none => cases k <;> cases S.entry? a <;> simp [hk, hm] at hc
    | some g =>
      cases k with
      | internal => exact .internal hk hm
      | ret => cases fs <;> exact .ret (Alphabet.kind?_eq_ret_iff.1 hk) hm
      | call =>
        cases he : S.entry? a with
        | none => simp [hk, he] at hc
        | some q => exact .call hk he hm

/-- The first step of a run that stays alive. -/
theorem exists_survives {f : Frame α} {fs : List (Frame α)} {a : α} {w : List α}
    {d : Configuration α} (h : S.run (.active f fs) (a :: w) = d) (hd : d ≠ .dead) :
    ∃ c, S.Survives f fs a c ∧ S.run c w = d := by
  rw [run_cons] at h
  refine ⟨_, survives rfl fun hs => hd ?_, h⟩
  rw [← h, hs, run_dead]

/-- A symbol that the top frame can not read kills the run. -/
theorem step_eq_dead {f : Frame α} {a : α} (h : S.advance f a = none) (fs : List (Frame α)) :
    S.step (.active f fs) a = .dead := by
  by_contra hc
  generalize hs : S.step (.active f fs) a = c at hc
  cases survives hs hc <;> simp_all

/-- When a symbol does not kill a run. -/
theorem step_ne_dead_iff {f : Frame α} {fs : List (Frame α)} {a : α} {k : SymbolKind}
    (hk : S.alphabet.kind? a = some k) :
    S.step (.active f fs) a ≠ .dead ↔
      (∃ g, S.advance f a = some g) ∧ (k = .call → ∃ q, S.entry? a = some q) := by
  constructor
  · intro h
    generalize hs : S.step (.active f fs) a = c at h
    cases survives hs h with
    | internal hk' hm => exact ⟨⟨_, hm⟩, fun hc => absurd (hk.symm.trans hk') (by simp [hc])⟩
    | call _ he hm => exact ⟨⟨_, hm⟩, fun _ => ⟨_, he⟩⟩
    | ret hr hm =>
      refine ⟨⟨_, hm⟩, fun hc => ?_⟩
      rw [Alphabet.kind?_eq_ret_iff.2 hr, hc] at hk
      cases hk
  · intro h
    obtain ⟨⟨g, hm⟩, he⟩ := h
    cases k with
    | internal =>
      rw [step_internal hk hm]
      intro heq
      cases heq
    | call =>
      obtain ⟨q, hq⟩ := he rfl
      rw [step_call hk hq hm]
      intro heq
      cases heq
    | ret =>
      obtain rfl := Alphabet.kind?_eq_ret_iff.1 hk
      rw [step_ret hm]
      cases fs <;> rintro ⟨⟩

theorem exists_kind_of_step {f : Frame α} {fs : List (Frame α)} {a : α}
    (h : S.step (.active f fs) a ≠ .dead) : ∃ k, S.alphabet.kind? a = some k := by
  cases hk : S.alphabet.kind? a with
  | none => simp [step, hk] at h
  | some k => exact ⟨k, rfl⟩

/-- What every surviving step keeps holds at the end of a run that is alive. -/
theorem run_preserves {P : Configuration α → Prop}
    (step : ∀ f fs a c, P (.active f fs) → S.Survives f fs a c → P c) {f : Frame α}
    {fs : List (Frame α)} (h : P (.active f fs)) {w : List α}
    (hw : S.run (.active f fs) w ≠ .dead) : P (S.run (.active f fs) w) := by
  induction w generalizing f fs with
  | nil => exact h
  | cons a w ih =>
    obtain ⟨c, hc, hrun⟩ := exists_survives rfl hw
    have hP := step f fs a c h hc
    rw [← hrun] at hw ⊢
    cases hc with
    | internal _ _ => exact ih hP hw
    | call _ _ _ => exact ih hP hw
    | ret _ _ =>
      cases fs with
      | cons g gs => exact ih hP hw
      | nil =>
        cases w with
        | nil => exact hP
        | cons b w => exact absurd (run_finished_cons b w) hw

theorem run_active_ne_initial (f : Frame α) (fs : List (Frame α)) (w : List α) :
    S.run (.active f fs) w ≠ .initial := by
  intro h
  have step : ∀ g gs a c, Configuration.active g gs ≠ .initial → S.Survives g gs a c →
      c ≠ .initial := by
    intro g gs a c _ hc
    cases hc with
    | internal | call => rintro ⟨⟩
    | ret => cases gs <;> rintro ⟨⟩
  exact run_preserves (P := (· ≠ .initial)) step (by rintro ⟨⟩) (by simp [h]) h

/-- A run that is still active was active all the time. -/
theorem exists_active_of_prefix {f g : Frame α} {fs gs : List (Frame α)} {u w : List α}
    (h : S.run (.active f fs) w = .active g gs) (hu : u <+: w) :
    ∃ k ks, S.run (.active f fs) u = .active k ks := by
  obtain ⟨v, rfl⟩ := hu
  rw [run_append] at h
  cases hc : S.run (.active f fs) u with
  | active k ks => exact ⟨k, ks, rfl⟩
  | initial => exact absurd hc (run_active_ne_initial f fs u)
  | dead =>
    rw [hc, run_dead] at h
    cases h
  | finished =>
    rw [hc] at h
    exact absurd h (run_finished_ne_active v)

/-! ## Invocations -/

/-- The lowest frame, if there is one, belongs to the procedure of `c`. -/
def RootedIn (c : α) (d : Configuration α) : Prop :=
  ∀ k ∈ d.frames.getLast?, k.procedure = c

theorem RootedIn.of_survives {c a : α} {f : Frame α} {fs : List (Frame α)} {d : Configuration α}
    (h : RootedIn c (.active f fs)) (hd : S.Survives f fs a d) : RootedIn c d := by
  cases hd with
  | internal _ hm => cases fs <;> simp_all [RootedIn, Configuration.frames, procedure_advance hm]
  | call _ _ hm => cases fs <;> simp_all [RootedIn, Configuration.frames, procedure_advance hm]
  | ret _ _ => cases fs <;> simp_all [RootedIn, Configuration.frames]

/-- The lowest frame stays with its procedure as long as it is there. -/
theorem procedure_of_run {f g : Frame α} {w : List α}
    (h : S.run (.active f []) w = .active g []) : g.procedure = f.procedure := by
  have start : RootedIn f.procedure (.active f []) := by simp [RootedIn, Configuration.frames]
  have alive : S.run (.active f []) w ≠ .dead := by simp [h]
  have hrooted := run_preserves (fun _ _ _ _ => RootedIn.of_survives) start alive
  rw [h] at hrooted
  exact hrooted g rfl

/-- The procedure of `c` reads `t` from its entry and can return then. -/
def Returns (S : System α β) (c : α) (t : List α) : Prop :=
  ∃ q, S.entry? c = some q ∧ S.run (.active ⟨c, q⟩ []) (t ++ [S.alphabet.ret]) = .finished

/-- A whole invocation is one step of the caller. -/
theorem run_call_return {c : α} {t : List α} {f g : Frame α}
    (hc : S.alphabet.kind? c = some .call) (ht : S.Returns c t) (h : S.advance f c = some g)
    (fs : List (Frame α)) :
    S.run (.active f fs) (c :: t ++ [S.alphabet.ret]) = .active g fs := by
  obtain ⟨q, hq, hr⟩ := ht
  rw [List.cons_append, run_cons, step_call hc hq h]
  rw [← List.nil_append (g :: fs), run_above (by simp [hr]), hr]
  rfl

/-- In front of its return a procedure has no other one above it. -/
theorem run_of_run_ret {f : Frame α} {w : List α}
    (h : S.run (.active f []) (w ++ [S.alphabet.ret]) = .finished) :
    ∃ g k, g.procedure = f.procedure ∧ S.run (.active f []) w = .active g [] ∧
      S.advance g S.alphabet.ret = some k := by
  rw [run_append, run_cons, run_nil] at h
  cases hc : S.run (.active f []) w with
  | initial => exact absurd hc (run_active_ne_initial f [] w)
  | dead => simp [hc] at h
  | finished => rw [hc] at h; cases h
  | active g gs =>
    rw [hc] at h
    generalize hd : Configuration.finished = d at h
    cases survives h (by simp [← hd]) with
    | internal _ _ => cases hd
    | call _ _ _ => cases hd
    | ret _ hm =>
      cases gs with
      | nil => exact ⟨g, _, procedure_of_run hc, rfl, hm⟩
      | cons k ks => cases hd

/-! ## Frames that wait -/

/-- The state of the frame accepts. -/
def frameAccepts (S : System α β) (f : Frame α) : Bool :=
  (S.procedure? f.procedure).any (·.isAccepting f.state)

omit [DecidableEq β] in
theorem isAccepting_active (f : Frame α) (fs : List (Frame α)) :
    S.isAccepting (.active f fs) = S.frameAccepts f := rfl

theorem frameAccepts_advance {f g : Frame α} {a : α} (h : S.advance f a = some g) :
    S.frameAccepts g = true := by
  obtain ⟨P, q, hP, hq, rfl⟩ := advance_eq_some_iff.1 h
  simp [frameAccepts, hP, (Option.filter_eq_some_iff.1 hq).2]

/-- All frames that wait are in accepting states. -/
def Settled (S : System α β) (c : Configuration α) : Prop :=
  ∀ f ∈ c.frames.tail, S.frameAccepts f = true

omit [DecidableEq β] in
theorem settled_active_nil (f : Frame α) : S.Settled (.active f []) := by
  simp [Settled, Configuration.frames]

theorem settled_of_survives {f : Frame α} {fs : List (Frame α)} {a : α} {c : Configuration α}
    (h : S.Settled (.active f fs)) (hc : S.Survives f fs a c) : S.Settled c := by
  cases hc with
  | internal _ _ => exact h
  | call _ _ hm =>
    intro g hg
    rcases List.mem_cons.1 hg with rfl | hg
    · exact frameAccepts_advance hm
    · exact h g hg
  | ret _ _ =>
    cases fs with
    | nil => simp [Settled, Configuration.frames]
    | cons g gs => exact fun k hk => h k (List.mem_cons_of_mem _ hk)

omit [DecidableEq β] in
theorem isAccepting_of_ret {fs : List (Frame α)} (h : ∀ f ∈ fs, S.frameAccepts f = true) :
    S.isAccepting (Configuration.finished.above fs) = true := by
  cases fs with
  | nil => rfl
  | cons f fs => exact h f List.mem_cons_self

theorem settled_run {f : Frame α} {fs : List (Frame α)} (h : S.Settled (.active f fs))
    (w : List α) : S.Settled (S.run (.active f fs) w) := by
  by_cases hw : S.run (.active f fs) w = .dead
  · rw [hw]
    exact List.forall_mem_nil _
  · exact run_preserves (P := S.Settled) (fun _ _ _ _ h hc => settled_of_survives h hc) h hw

/-- A word that does not kill the run enters the initial procedure first. -/
theorem reached_cons {a : α} {w : List α} (h : S.reached (a :: w) ≠ .dead) :
    ∃ q, S.alphabet.kind? a = some .call ∧ S.initialCall = some a ∧ S.entry? a = some q ∧
      S.reached (a :: w) = S.run (.active ⟨a, q⟩ []) w := by
  rw [reached, run_cons] at h ⊢
  by_cases ha : S.alphabet.kind? a = some .call ∧ S.initialCall = some a
  · cases hq : S.entry? a with
    | none => simp [step, ha, hq] at h
    | some q => exact ⟨q, ha.1, ha.2, rfl, by simp [step, ha, hq]⟩
  · simp [step, ha] at h

theorem reached_eq_initial_iff {w : List α} : S.reached w = .initial ↔ w = [] := by
  constructor
  · intro h
    cases w with
    | nil => rfl
    | cons a w =>
      obtain ⟨q, _, _, _, hr⟩ := reached_cons (S := S) (a := a) (w := w) (by simp [h])
      exact absurd (hr.symm.trans h) (run_active_ne_initial _ _ _)
  · rintro rfl
    rfl

/-- When the first symbol does not kill the run. -/
theorem reached_singleton_ne_dead_iff {a : α} :
    S.reached [a] ≠ .dead ↔
      S.alphabet.kind? a = some .call ∧ S.initialCall = some a ∧ ∃ q, S.entry? a = some q := by
  constructor
  · intro h
    obtain ⟨q, hk, hi, hq, _⟩ := reached_cons h
    exact ⟨hk, hi, q, hq⟩
  · intro h
    obtain ⟨hk, hi, q, hq⟩ := h
    rw [reached, run_cons, run_nil]
    simp [step, hk, hi, hq]

theorem settled_reached (S : System α β) (w : List α) : S.Settled (S.reached w) := by
  cases w with
  | nil => exact List.forall_mem_nil _
  | cons a w =>
    by_cases h : S.reached (a :: w) = .dead
    · rw [h]
      exact List.forall_mem_nil _
    · obtain ⟨q, _, _, _, hr⟩ := reached_cons h
      rw [hr]
      exact settled_run (settled_active_nil _) w

theorem reached_append (S : System α β) (u v : List α) :
    S.reached (u ++ v) = S.run (S.reached u) v := S.run_append _ u v

/-- Every system accepts the empty word. -/
theorem ne_nil_of_rejected {w : List α} (hw : S.accepts w = false) : w ≠ [] := by
  rintro rfl
  cases hw

/-! ## Accepting entries -/

/-- No procedure starts in a rejecting state. -/
def EntriesAccept (S : System α β) : Prop :=
  ∀ c q, S.entry? c = some q → S.frameAccepts ⟨c, q⟩ = true

omit [DecidableEq β] in
theorem entriesAccept_iff : S.EntriesAccept ↔
    ∀ c ∈ S.procedures.keys, ∀ q ∈ S.entry? c, S.frameAccepts ⟨c, q⟩ = true := by
  refine ⟨fun h c _ q hq => h c q hq, fun h c q hq => h c ?_ q hq⟩
  obtain ⟨A, hA, _⟩ := exists_procedure hq
  exact AssocMap.mem_keys_iff.2 ⟨A, hA⟩

instance (S : System α β) : Decidable S.EntriesAccept := decidable_of_iff _ entriesAccept_iff.symm

/-- The configuration is active and its top frame accepts, or it is one of those that always accept. -/
theorem isAccepting_of_survives (hS : S.EntriesAccept) {f : Frame α} {fs : List (Frame α)} {a : α}
    {c : Configuration α} (h : S.Settled (.active f fs)) (hc : S.Survives f fs a c) :
    S.isAccepting c = true := by
  cases hc with
  | internal _ hm => exact frameAccepts_advance hm
  | call _ he _ => exact hS _ _ he
  | ret _ _ => exact isAccepting_of_ret h

/-- Along a run that starts at an entry everything accepts. -/
theorem isAccepting_run (hS : S.EntriesAccept) {f : Frame α} (hf : S.frameAccepts f = true)
    {w : List α} (hw : S.run (.active f []) w ≠ .dead) :
    S.isAccepting (S.run (.active f []) w) = true := by
  refine (run_preserves (P := fun c => S.Settled c ∧ S.isAccepting c = true) ?_
    ⟨settled_active_nil _, hf⟩ hw).2
  intro f fs a c h hc
  exact ⟨settled_of_survives h.1 hc, isAccepting_of_survives hS h.1 hc⟩

theorem accepts_iff_of_entriesAccept (hS : S.EntriesAccept) {w : List α} :
    S.accepts w = true ↔ S.reached w ≠ .dead := by
  constructor
  · intro h hd
    rw [accepts, hd] at h
    cases h
  · intro h
    cases w with
    | nil => rfl
    | cons a w =>
      obtain ⟨q, _, _, hq, hr⟩ := reached_cons h
      rw [accepts, hr]
      exact isAccepting_run hS (hS a q hq) (hr ▸ h)

theorem accepts_eq_false_iff_of_entriesAccept (hS : S.EntriesAccept) {w : List α} :
    S.accepts w = false ↔ S.reached w = .dead := by
  rw [← Bool.not_eq_true, accepts_iff_of_entriesAccept hS, not_ne_iff]

/-- If all entries accept, then with a word all its beginnings are accepted. -/
theorem accepts_of_append (hS : S.EntriesAccept) {u v : List α} (h : S.accepts (u ++ v) = true) :
    S.accepts u = true := by
  rw [accepts_iff_of_entriesAccept hS] at h ⊢
  intro hu
  exact h (by rw [reached_append, hu, run_dead])

end System

end BehavioralAutomata
