import BehavioralAutomata.Proofs.Alphabet.Balance
import BehavioralAutomata.Proofs.System.Stacks

/-!
# Runs and the nesting of words

* `System.pendingFrom?_of_run`: the depth of a run is the number of pending calls.
* `System.Reads`, `System.exists_reads`: the frame that is active behind a word was entered by a call of
  the word, and what stands behind this call is a run of its procedure alone.
* `System.Reads.of_balanced`: every system with this alphabet that is alive there agrees on the call.
* `System.returns_of_balanced`: what an invocation of a run reads can be read by its procedure alone.
* `System.follow_normalize`: a run of a procedure alone reads its normal form without entering other
  procedures.
-/

namespace BehavioralAutomata.System

variable {α : Type u} {β : Type v} [DecidableEq α] [DecidableEq β] {S : System α β}

/-! ## Depth -/

theorem pendingFrom?_of_run {f g : Frame α} {fs gs : List (Frame α)} {u : List α}
    (h : S.run (.active f fs) u = .active g gs) :
    S.alphabet.pendingFrom? fs.length u = some gs.length := by
  induction u generalizing f fs with
  | nil =>
    cases h
    rfl
  | cons a u ih =>
    obtain ⟨c, hc, hrun⟩ := exists_survives h (by simp)
    rw [Alphabet.pendingFrom?]
    cases hc with
    | internal hk _ =>
      rw [hk]
      exact ih hrun
    | call hk _ _ =>
      rw [hk]
      exact ih hrun
    | ret hk _ =>
      rw [Alphabet.kind?_eq_ret_iff.2 hk]
      cases fs with
      | nil => exact absurd hrun (run_finished_ne_active u)
      | cons f' fs => exact ih hrun

theorem balanced_of_run {f g : Frame α} {u : List α}
    (h : S.run (.active f []) u = .active g []) : S.alphabet.Balanced u :=
  pendingFrom?_of_run h

/-- A run that never gets below some frames does not need them. -/
theorem exists_run_above {f : Frame α} (bs : List (Frame α)) {fs : List (Frame α)} {t : List α}
    {m : Nat} (hm : S.alphabet.pendingFrom? bs.length t = some m)
    (h : S.run (.active f (bs ++ fs)) t ≠ .dead) :
    ∃ g gs, gs.length = m ∧ S.run (.active f bs) t = .active g gs := by
  induction t generalizing f bs with
  | nil => exact ⟨f, bs, Option.some.inj hm, rfl⟩
  | cons a t ih =>
    obtain ⟨c, hc, hrun⟩ := exists_survives rfl h
    rw [← hrun] at h
    rw [Alphabet.pendingFrom?] at hm
    rw [run_cons]
    cases hc with
    | internal hk hmoved =>
      rw [hk] at hm
      rw [step_internal hk hmoved]
      exact ih bs hm h
    | @call g q hk he hmoved =>
      rw [hk] at hm
      rw [step_call hk he hmoved]
      exact ih (g :: bs) hm h
    | ret hk hmoved =>
      rw [Alphabet.kind?_eq_ret_iff.2 hk] at hm
      subst hk
      cases bs with
      | nil => cases hm
      | cons b bs =>
        rw [step_ret hmoved]
        exact ih bs hm h

/-- A run that ends with as many frames as it starts with, and never with less, needs its first frame only. -/
theorem exists_run_alone {f : Frame α} {fs : List (Frame α)} {t : List α}
    (ht : S.alphabet.Balanced t) (h : S.run (.active f fs) t ≠ .dead) :
    ∃ g, S.run (.active f []) t = .active g [] := by
  obtain ⟨g, gs, hgs, hrun⟩ := exists_run_above [] ht h
  obtain rfl := List.eq_nil_of_length_eq_zero hgs
  exact ⟨g, hrun⟩

/-! ## Invocations in a run -/

theorem exists_return_from {f g top : Frame α} (bs : List (Frame α)) {fs gs : List (Frame α)}
    {u : List α}
    (h : S.run (.active g (bs ++ f :: fs)) u = .active top gs) (hlen : gs.length ≤ fs.length) :
    ∃ t y, u = t ++ S.alphabet.ret :: y ∧
      S.run (.active g bs) (t ++ [S.alphabet.ret]) = .finished ∧
      S.run (.active f fs) y = .active top gs := by
  induction u generalizing g bs with
  | nil =>
    cases h
    simp at hlen
    omega
  | cons a u ih =>
    obtain ⟨c, hc, hrun⟩ := exists_survives h (by simp)
    cases hc with
    | internal hk hmoved =>
      obtain ⟨t, y, rfl, ht, hy⟩ := ih bs hrun
      refine ⟨a :: t, y, rfl, ?_, hy⟩
      rw [List.cons_append, run_cons, step_internal hk hmoved]
      exact ht
    | @call g' q hk he hmoved =>
      obtain ⟨t, y, rfl, ht, hy⟩ := ih (g' :: bs) hrun
      refine ⟨a :: t, y, rfl, ?_, hy⟩
      rw [List.cons_append, run_cons, step_call hk he hmoved]
      exact ht
    | ret hk hmoved =>
      subst hk
      cases bs with
      | nil =>
        refine ⟨[], u, rfl, ?_, hrun⟩
        rw [List.nil_append, run_cons, step_ret hmoved]
        rfl
      | cons b bs =>
        obtain ⟨t, y, rfl, ht, hy⟩ := ih bs hrun
        refine ⟨S.alphabet.ret :: t, y, rfl, ?_, hy⟩
        rw [List.cons_append, run_cons, step_ret hmoved]
        exact ht

/-- A run that comes back to the frame below the top has read a return for it. -/
theorem exists_return {f g top : Frame α} {fs gs : List (Frame α)} {u : List α}
    (h : S.run (.active g (f :: fs)) u = .active top gs) (hlen : gs.length ≤ fs.length) :
    ∃ t y, u = t ++ S.alphabet.ret :: y ∧
      S.run (.active g []) (t ++ [S.alphabet.ret]) = .finished ∧
      S.run (.active f fs) y = .active top gs :=
  exists_return_from [] h hlen

theorem balanced_of_finished {g : Frame α} {t : List α}
    (h : S.run (.active g []) (t ++ [S.alphabet.ret]) = .finished) : S.alphabet.Balanced t := by
  obtain ⟨k, _, _, hk, _⟩ := run_of_run_ret h
  exact balanced_of_run hk

/-- Between the entry of a procedure and its return, a run that survives the return reads what the
procedure can read alone. -/
theorem returns_of_balanced {c : α} {q : Nat} {fs : List (Frame α)} {t : List α}
    (hq : S.entry? c = some q) (ht : S.alphabet.Balanced t)
    (h : S.run (.active ⟨c, q⟩ fs) (t ++ [S.alphabet.ret]) ≠ .dead) : S.Returns c t := by
  refine ⟨q, hq, ?_⟩
  have hne : S.run (.active ⟨c, q⟩ fs) t ≠ .dead := fun hd => h (by rw [run_append, hd, run_dead])
  obtain ⟨g, hrun⟩ := exists_run_alone ht hne
  rw [run_append, hrun, run_cons, run_nil]
  rw [run_append, run_alone hrun, run_cons, run_nil] at h
  cases hm : S.advance g S.alphabet.ret with
  | none => exact absurd (step_eq_dead hm _) h
  | some k => rw [step_ret hm]; rfl

/-! ## The active frame -/

/-- Behind a word that can go on, some frame is active unless the word is empty. -/
theorem exists_active_of_reached {w : List α} {a : α} (hne : w ≠ [])
    (h : S.reached (w ++ [a]) ≠ .dead) :
    ∃ top fs, S.reached w = .active top fs ∧ S.step (.active top fs) a ≠ .dead := by
  rw [reached_append, run_cons, run_nil] at h
  cases hw : S.reached w with
  | dead =>
    rw [hw] at h
    exact absurd rfl h
  | finished =>
    rw [hw] at h
    exact absurd rfl h
  | initial => exact absurd (reached_eq_initial_iff.1 hw) hne
  | active top fs => exact ⟨top, fs, rfl, hw ▸ h⟩

/-- Behind a call that a run survives, the called procedure is at its entry. -/
theorem reached_call {u : List α} {c : α} (hc : S.alphabet.kind? c = some .call)
    (h : S.reached (u ++ [c]) ≠ .dead) :
    ∃ q fs, S.entry? c = some q ∧ S.reached (u ++ [c]) = .active ⟨c, q⟩ fs := by
  by_cases hu : u = []
  · subst hu
    obtain ⟨q, _, _, hq, hr⟩ := reached_cons h
    exact ⟨q, [], hq, hr⟩
  · obtain ⟨f, fs, hf, hstep⟩ := exists_active_of_reached hu h
    obtain ⟨⟨g, hg⟩, hentry⟩ := (step_ne_dead_iff hc).1 hstep
    obtain ⟨q, hq⟩ := hentry rfl
    refine ⟨q, g :: fs, hq, ?_⟩
    rw [reached_append, hf, run_cons, step_call hc hq hg]
    rfl

/-- The word `x ++ c :: u` leads into the procedure of `c`, which has read `u` alone since the call. -/
structure Reads (S : System α β) (x : List α) (c : α) (u : List α) (top : Frame α)
    (fs : List (Frame α)) : Prop where
  call : S.alphabet.kind? c = some .call
  run : ∃ q, S.entry? c = some q ∧ S.reached (x ++ [c]) = .active ⟨c, q⟩ fs ∧
    S.run (.active ⟨c, q⟩ []) u = .active top []

namespace Reads

variable {x u : List α} {c : α} {top g : Frame α} {fs : List (Frame α)}

theorem reached (h : S.Reads x c u top fs) : S.reached (x ++ c :: u) = .active top fs := by
  obtain ⟨q, _, hentry, hrun⟩ := h.run
  rw [← List.singleton_append, ← List.append_assoc, reached_append, hentry]
  exact run_alone hrun fs

theorem balanced (h : S.Reads x c u top fs) : S.alphabet.Balanced u := by
  obtain ⟨_, _, _, hrun⟩ := h.run
  exact balanced_of_run hrun

theorem append (h : S.Reads x c u top fs) {v : List α}
    (hv : S.run (.active top []) v = .active g []) : S.Reads x c (u ++ v) g fs := by
  obtain ⟨q, hq, hentry, hrun⟩ := h.run
  exact ⟨h.call, q, hq, hentry, by rw [run_append, hrun, hv]⟩

theorem enter (h : S.Reads x c u top fs) {a : α} {q : Nat} (hk : S.alphabet.kind? a = some .call)
    (hq : S.entry? a = some q) (hm : S.advance top a = some g) :
    S.Reads (x ++ c :: u) a [] ⟨a, q⟩ (g :: fs) := by
  refine ⟨hk, q, hq, ?_, rfl⟩
  rw [reached_append, h.reached, run_cons, step_call hk hq hm]
  rfl

theorem returns (h : S.Reads x c u top fs) (hm : S.advance top S.alphabet.ret = some g) :
    S.Returns c u := by
  obtain ⟨q, hq, _, hrun⟩ := h.run
  refine ⟨q, hq, ?_⟩
  rw [run_append, hrun, run_cons, step_ret hm]
  rfl

/-- The frame below was active in front of the call. -/
theorem caller {k : Frame α} (h : S.Reads x c u top (k :: fs)) :
    ∃ e, S.reached x = .active e fs ∧ S.advance e c = some k := by
  obtain ⟨q, hq, hentry, _⟩ := h.run
  have halive : S.reached (x ++ [c]) ≠ .dead := by simp [hentry]
  by_cases hx : x = []
  · subst hx
    obtain ⟨p, _, _, _, hr⟩ := reached_cons halive
    cases hentry.symm.trans hr
  · obtain ⟨e, es, he, hstep⟩ := exists_active_of_reached hx halive
    obtain ⟨⟨k', hk'⟩, _⟩ := (step_ne_dead_iff h.call).1 hstep
    rw [reached_append, he, run_cons, step_call h.call hq hk'] at hentry
    cases hentry
    exact ⟨e, he, hk'⟩

/-- Every system with this alphabet that is alive there agrees on the call. -/
theorem of_balanced (hc : S.alphabet.kind? c = some .call) (hu : S.alphabet.Balanced u)
    (h : S.reached (x ++ c :: u) ≠ .dead) : ∃ top fs, S.Reads x c u top fs := by
  have hsplit : S.reached (x ++ c :: u) = S.run (S.reached (x ++ [c])) u := by
    rw [← reached_append, List.append_assoc, List.singleton_append]
  have hcall : S.reached (x ++ [c]) ≠ .dead := by
    intro hd
    apply h
    rw [hsplit, hd, run_dead]
  obtain ⟨q, fs, hq, hr⟩ := reached_call hc hcall
  rw [hsplit, hr] at h
  obtain ⟨top, hrun⟩ := exists_run_alone hu h
  exact ⟨top, fs, hc, q, hq, hr, hrun⟩

end Reads

/-- The active frame was entered by a call behind which its procedure has run alone. -/
theorem exists_reads {w : List α} {top : Frame α} {fs : List (Frame α)}
    (h : S.reached w = .active top fs) : ∃ x c u, w = x ++ c :: u ∧ S.Reads x c u top fs := by
  induction hn : w.length using Nat.strongRecOn generalizing w top fs with
  | _ n ih =>
  rcases List.eq_nil_or_concat w with rfl | ⟨w, a, rfl⟩
  · cases h
  rw [List.concat_eq_append] at h hn ⊢
  have halive : S.reached (w ++ [a]) ≠ .dead := by simp [h]
  by_cases hne : w = []
  · subst hne
    obtain ⟨q, hk, _, hq, hr⟩ := reached_cons halive
    cases h.symm.trans hr
    exact ⟨[], a, [], rfl, hk, q, hq, hr, rfl⟩
  obtain ⟨g, gs, hw, _⟩ := exists_active_of_reached hne halive
  obtain ⟨x, c, u, rfl, hreads⟩ := ih w.length (by simp [← hn]) hw rfl
  rw [reached_append, hw] at h
  obtain ⟨d, hd, hrun⟩ := exists_survives h (by simp)
  cases hd with
  | internal hk hm =>
    cases hrun
    refine ⟨x, c, u ++ [a], by simp, hreads.append ?_⟩
    rw [run_cons, step_internal hk hm]
    rfl
  | call hk hq hm =>
    cases hrun
    exact ⟨x ++ c :: u, a, [], rfl, hreads.enter hk hq hm⟩
  | ret hk hm =>
    subst hk
    cases gs with
    | nil => cases hrun
    | cons k ks =>
      cases hrun
      -- the caller itself has been entered before the call
      obtain ⟨e, hx, he⟩ := hreads.caller
      obtain ⟨y, b, v, rfl, hcaller⟩ := ih x.length (by simp [← hn]) hx rfl
      refine ⟨y, b, v ++ (c :: u ++ [S.alphabet.ret]), by simp, hcaller.append ?_⟩
      exact run_call_return hreads.call (hreads.returns hm) he []

/-! ## Normal forms -/

/-- The frame behind a word of which every symbol is read by the frame's own procedure. -/
def follow (S : System α β) (f : Frame α) : List α → Option (Frame α)
  | [] => some f
  | a :: w => (S.advance f a).bind (S.follow · w)

/-- What a procedure reads alone is read in normal form by its frame. Every symbol of the normal form
is internal or a call whose invocation is in the word. -/
theorem follow_normalize {f g : Frame α} {u : List α}
    (h : S.run (.active f []) u = .active g []) :
    S.follow f (S.alphabet.normalize u) = some g ∧ ∀ a ∈ S.alphabet.normalize u,
      S.alphabet.kind? a = some .internal ∨
        S.alphabet.kind? a = some .call ∧ S.alphabet.Invokes u a := by
  induction hn : u.length using Nat.strongRecOn generalizing u f with
  | _ n ih =>
  cases u with
  | nil =>
    cases h
    exact ⟨rfl, List.forall_mem_nil _⟩
  | cons a u =>
    obtain ⟨c, hc, hrun⟩ := exists_survives h (by simp)
    cases hc with
    | internal hk hm =>
      rw [Alphabet.normalize_cons_of_ne_call (by simp [hk])]
      obtain ⟨hfollow, hmem⟩ := ih u.length (by simp [← hn]) hrun rfl
      refine ⟨by rw [follow, hm]; exact hfollow, fun b hb => ?_⟩
      rcases List.mem_cons.1 hb with rfl | hb
      · exact .inl hk
      · exact (hmem b hb).imp id (And.imp id fun hi => hi.append_left [a])
    | call hk he hm =>
      obtain ⟨t, y, rfl, ht, hy⟩ := exists_return hrun (Nat.le_refl _)
      have hbal := balanced_of_finished ht
      rw [hbal.normalize_call hk]
      obtain ⟨hfollow, hmem⟩ := ih y.length (by simp [← hn]; omega) hy rfl
      refine ⟨by rw [follow, hm]; exact hfollow, fun b hb => ?_⟩
      rcases List.mem_cons.1 hb with rfl | hb
      · exact .inr ⟨hk, [], t, y, rfl, hbal⟩
      · refine (hmem b hb).imp id (And.imp id fun hi => ?_)
        have := hi.append_left (a :: t ++ [S.alphabet.ret])
        simpa using this
    | ret _ _ => exact absurd hrun (run_finished_ne_active u)

end BehavioralAutomata.System
