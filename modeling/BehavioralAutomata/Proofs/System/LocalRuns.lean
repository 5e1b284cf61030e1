import BehavioralAutomata.Proofs.System.Nesting
import Mathlib.Data.List.Induction

/-!
# Runs as local steps of procedures

* `System.pending?_eq_depth`: a run that is alive has as many frames as its word has pending calls.
* `System.Reads.reached_procedure`: the active frame is in the state that its procedure reaches on the
  normal form of what it has read.
* `System.LocalStep`: the procedure whose call is pending at a position can read the symbol there. No
  configuration is mentioned.
* `System.reached_ne_dead_iff`: a run is alive exactly if every position of its word is a local step.
-/

namespace BehavioralAutomata

namespace Alphabet

variable {α : Type u} [DecidableEq α] {A : Alphabet α}

/-- Behind a balanced piece of a word no call is pending. -/
theorem findCall?_eq_none_of_balanced {w : List α} {i : Nat} (h : A.Balanced (w.take i)) :
    A.findCall? w i = none := by
  have hnone := callOffset?_reverse_append h []
  rw [List.append_nil, callOffset?, Option.map_none] at hnone
  rw [findCall?, hnone]
  rfl

/-- The pending call is a matter of what stands in front of the position. -/
theorem findCall?_append {u : List α} {i : Nat} (hi : i ≤ u.length) (v : List α) :
    A.findCall? (u ++ v) i = A.findCall? u i := by
  rw [findCall?, findCall?, List.take_append_of_le_length hi, List.length_append]
  congr 1
  funext k
  omega

end Alphabet

namespace System

variable {α : Type u} {β : Type v} [DecidableEq α] [DecidableEq β] {S : System α β}

/-! ## Depth -/

/-- One symbol changes the number of frames as it changes the number of pending calls. -/
theorem pendingFrom?_of_survives {f : Frame α} {fs : List (Frame α)} {a : α} {c : Configuration α}
    (h : S.Survives f fs a c) :
    S.alphabet.pendingFrom? (Configuration.active f fs).depth [a] = some c.depth := by
  rw [Alphabet.pendingFrom?]
  cases h with
  | internal hk _ =>
    rw [hk]
    rfl
  | call hk _ _ =>
    rw [hk]
    rfl
  | ret hk _ =>
    rw [Alphabet.kind?_eq_ret_iff.2 hk]
    cases fs <;> rfl

/-- There is one frame for every pending call. -/
theorem pending?_eq_depth {w : List α} (h : S.reached w ≠ .dead) :
    S.alphabet.pending? w = some (S.reached w).depth := by
  induction w using List.reverseRecOn with
  | nil => rfl
  | append_singleton w a ih =>
    by_cases hne : w = []
    · subst hne
      obtain ⟨q, hk, _, _, hr⟩ := reached_cons h
      rw [List.nil_append, hr, Alphabet.pending?, Alphabet.pendingFrom?, hk]
      rfl
    · obtain ⟨f, fs, hf, hstep⟩ := exists_active_of_reached hne h
      have hpending := ih (by simp [hf])
      have hreached : S.reached (w ++ [a]) = S.step (.active f fs) a := by
        rw [reached_append, hf, run_cons, run_nil]
      rw [Alphabet.pending?] at hpending ⊢
      rw [Alphabet.pendingFrom?_append, hpending, Option.bind_some, hf, hreached]
      exact pendingFrom?_of_survives (survives rfl hstep)

/-! ## The state of the active procedure -/

/-- A frame that follows a word is in the state that its procedure reaches. -/
theorem reachedFrom_of_follow {f g : Frame α} {u : List α} {P : Procedure α β}
    (hP : S.procedure? f.procedure = some P) (h : S.follow f u = some g) :
    g.procedure = f.procedure ∧ P.reachedFrom f.state u = some g.state := by
  induction u generalizing f with
  | nil =>
    cases h
    exact ⟨rfl, rfl⟩
  | cons a u ih =>
    obtain ⟨k, hk, h⟩ := Option.bind_eq_some_iff.1 h
    obtain ⟨P', q, hP', hq, rfl⟩ := advance_eq_some_iff.1 hk
    cases hP.symm.trans hP'
    have hrest : g.procedure = f.procedure ∧ P.reachedFrom q u = some g.state :=
      ih (f := ⟨f.procedure, q⟩) hP h
    refine ⟨hrest.1, ?_⟩
    rw [Procedure.reachedFrom, (Option.filter_eq_some_iff.1 hq).1]
    exact hrest.2

/-- The active procedure is in the state that it reaches on what it has seen since its call. -/
theorem Reads.reached_procedure {x u : List α} {c : α} {top : Frame α} {fs : List (Frame α)}
    (h : S.Reads x c u top fs) : ∃ P, S.procedure? c = some P ∧ top.procedure = c ∧
      P.reached (S.alphabet.normalize u) = some top.state := by
  obtain ⟨q, hq, _, hrun⟩ := h.run
  obtain ⟨P, hP, hstart⟩ := Option.bind_eq_some_iff.1 hq
  obtain ⟨hproc, hreach⟩ := reachedFrom_of_follow hP (follow_normalize hrun).1
  refine ⟨P, hP, hproc, ?_⟩
  rw [Procedure.reached, hstart]
  exact hreach

/-! ## Local steps -/

/-- The procedure whose call is pending in front of position `i` reads the symbol at `i`, from the state
that it reaches on the normal form of what stands between, to an accepting state. -/
def LocalStep (S : System α β) (w : List α) (i : Nat) : Prop :=
  ∃ j c a P q p, S.alphabet.findCall? w i = some j ∧ w[j]? = some c ∧ w[i]? = some a ∧
    S.procedure? c = some P ∧ P.reached (S.alphabet.normalize ((w.take i).drop (j + 1))) = some q ∧
    P.successor q a = some p ∧ P.isAccepting p = true

/-- A local step is a matter of the word up to its position. -/
theorem localStep_append {u : List α} {i : Nat} (hi : i < u.length) (v : List α) :
    S.LocalStep (u ++ v) i ↔ S.LocalStep u i := by
  rw [LocalStep, LocalStep, Alphabet.findCall?_append (Nat.le_of_lt hi),
    List.take_append_of_le_length (Nat.le_of_lt hi), List.getElem?_append_left hi]
  constructor <;> rintro ⟨j, c, a, P, q, p, hj, hc, h⟩ <;>
    refine ⟨j, c, a, P, q, p, hj, ?_, h⟩
  · rwa [List.getElem?_append_left (Alphabet.findCall?_lt hj).2] at hc
  · rwa [List.getElem?_append_left (Alphabet.findCall?_lt hj).2]

/-- The local step behind a word in a procedure is a step of the active frame. -/
theorem Reads.localStep_iff {x u : List α} {c : α} {top : Frame α} {fs : List (Frame α)}
    (h : S.Reads x c u top fs) (a : α) :
    S.LocalStep (x ++ c :: u ++ [a]) (x ++ c :: u).length ↔ ∃ g, S.advance top a = some g := by
  obtain ⟨P, hP, rfl, hreach⟩ := h.reached_procedure
  have hcall : S.alphabet.findCall? (x ++ top.procedure :: u ++ [a])
      (x ++ top.procedure :: u).length = some x.length := by
    rw [Alphabet.findCall?_append (Nat.le_refl _)]
    exact Alphabet.findCall?_of_balanced List.take_length h.call h.balanced
  have hget : (x ++ top.procedure :: u ++ [a])[x.length]? = some top.procedure := by simp
  have hlast : (x ++ top.procedure :: u ++ [a])[(x ++ top.procedure :: u).length]? = some a := by
    simp
  have hdrop : ((x ++ top.procedure :: u ++ [a]).take (x ++ top.procedure :: u).length).drop
      (x.length + 1) = u := by
    rw [List.take_left, ← List.drop_drop]
    simp
  constructor
  · rintro ⟨j, d, b, P', q, p, hj, hd, hb, hP', hq, hp, hacc⟩
    cases hcall.symm.trans hj
    cases hget.symm.trans hd
    cases hlast.symm.trans hb
    cases hP.symm.trans hP'
    rw [hdrop, hreach] at hq
    cases hq
    exact ⟨_, advance_eq_some_iff.2 ⟨P, p, hP, Option.filter_eq_some_iff.2 ⟨hp, hacc⟩, rfl⟩⟩
  · rintro ⟨g, hg⟩
    obtain ⟨P', p, hP', hp, rfl⟩ := advance_eq_some_iff.1 hg
    cases hP.symm.trans hP'
    obtain ⟨hp, hacc⟩ := Option.filter_eq_some_iff.1 hp
    exact ⟨_, _, _, P, _, p, hcall, hget, hlast, hP, by rw [hdrop, hreach], hp, hacc⟩

/-- When one more symbol leaves a run alive. -/
theorem reached_append_singleton_ne_dead_iff {w : List α} (hne : w ≠ []) (a : α) :
    S.reached (w ++ [a]) ≠ .dead ↔ S.reached w ≠ .dead ∧ S.alphabet.contains a = true ∧
      (S.alphabet.isCall a = true → ∃ q, S.entry? a = some q) ∧
      S.LocalStep (w ++ [a]) w.length := by
  have hstep : ∀ {f fs}, S.reached w = .active f fs →
      S.reached (w ++ [a]) = S.step (.active f fs) a := by
    intro f fs hf
    rw [reached_append, hf, run_cons, run_nil]
  have hlocal : ∀ {f fs}, S.reached w = .active f fs →
      (S.LocalStep (w ++ [a]) w.length ↔ ∃ g, S.advance f a = some g) := by
    intro f fs hf
    obtain ⟨x, c, u, rfl, hreads⟩ := exists_reads hf
    exact hreads.localStep_iff a
  constructor
  · intro h
    obtain ⟨f, fs, hf, halive⟩ := exists_active_of_reached hne h
    obtain ⟨k, hk⟩ := exists_kind_of_step halive
    obtain ⟨hadvance, hentry⟩ := (step_ne_dead_iff hk).1 halive
    refine ⟨by simp [hf], by simp [Alphabet.contains, hk], fun hcall => hentry ?_,
      (hlocal hf).2 hadvance⟩
    simpa [Alphabet.isCall, hk] using hcall
  · rintro ⟨halive, hmem, hentry, hlast⟩
    cases hw : S.reached w with
    | dead => exact absurd hw halive
    | initial => exact absurd (reached_eq_initial_iff.1 hw) hne
    | finished =>
      -- no call is pending, so that no procedure could make the step
      obtain ⟨j, _, _, _, _, _, hj, _⟩ := hlast
      have hbal : S.alphabet.Balanced w := by
        have hpending := pending?_eq_depth halive
        rwa [hw] at hpending
      rw [Alphabet.findCall?_eq_none_of_balanced (by rwa [List.take_left])] at hj
      cases hj
    | active f fs =>
      obtain ⟨k, hk⟩ := Option.isSome_iff_exists.1 hmem
      rw [hstep hw, step_ne_dead_iff hk]
      refine ⟨(hlocal hw).1 hlast, fun hcall => hentry ?_⟩
      simpa [Alphabet.isCall, hk] using hcall

theorem forall_localStep_append_singleton {w : List α} (hne : w ≠ []) (a : α) :
    (∀ i, 1 ≤ i → i < (w ++ [a]).length → S.LocalStep (w ++ [a]) i) ↔
      (∀ i, 1 ≤ i → i < w.length → S.LocalStep w i) ∧ S.LocalStep (w ++ [a]) w.length := by
  have hpos : 1 ≤ w.length := List.length_pos_of_ne_nil hne
  have hlen : (w ++ [a]).length = w.length + 1 := by simp
  rw [hlen]
  constructor
  · intro h
    refine ⟨fun i hi hlt => ?_, h _ hpos (Nat.lt_succ_self _)⟩
    exact (localStep_append hlt [a]).1 (h i hi (Nat.lt_succ_of_lt hlt))
  · rintro ⟨h, hlast⟩ i hi hlt
    rcases Nat.lt_succ_iff_lt_or_eq.1 hlt with hlt | rfl
    · exact (localStep_append hlt [a]).2 (h i hi hlt)
    · exact hlast

/-- A run is alive exactly if its word is empty or starts with the initial call, has symbols of the
alphabet and calls of procedures with an initial state only, and every further position is a step of the
procedure whose call is pending there. -/
theorem reached_ne_dead_iff (S : System α β) (w : List α) :
    S.reached w ≠ .dead ↔ w = [] ∨
      (∀ a ∈ w, S.alphabet.contains a = true) ∧
      (∃ c, w[0]? = some c ∧ S.alphabet.isCall c = true ∧ S.initialCall = some c) ∧
      (∀ c ∈ w, S.alphabet.isCall c = true → ∃ q, S.entry? c = some q) ∧
      ∀ i, 1 ≤ i → i < w.length → S.LocalStep w i := by
  induction w using List.reverseRecOn with
  | nil => exact ⟨fun _ => .inl rfl, fun _ => by rintro ⟨⟩⟩
  | append_singleton w a ih =>
    by_cases hne : w = []
    · subst hne
      rw [List.nil_append, reached_singleton_ne_dead_iff]
      constructor
      · rintro ⟨hk, hi, hq⟩
        refine .inr ⟨?_, ⟨a, rfl, decide_eq_true hk, hi⟩, ?_, fun i h1 hlt => ?_⟩
        · rw [List.forall_mem_singleton, Alphabet.contains, hk]
          rfl
        · exact List.forall_mem_singleton.2 fun _ => hq
        · rw [List.length_singleton] at hlt
          omega
      · rintro (hnil | ⟨_, ⟨c, hc, hk, hi⟩, hentry, _⟩)
        · cases hnil
        · cases hc
          exact ⟨of_decide_eq_true hk, hi, hentry a List.mem_cons_self hk⟩
    · have hhead : (w ++ [a])[0]? = w[0]? :=
        List.getElem?_append_left (List.length_pos_of_ne_nil hne)
      rw [reached_append_singleton_ne_dead_iff hne, ih, forall_localStep_append_singleton hne, hhead,
        List.forall_mem_append, List.forall_mem_append, List.forall_mem_singleton,
        List.forall_mem_singleton]
      simp only [hne, List.append_eq_nil_iff, false_and, false_or]
      tauto

end System

end BehavioralAutomata
