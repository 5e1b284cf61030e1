import BehavioralAutomata.Proofs.System.LocalRuns

/-!
# The frames of a configuration

The stack behind a word can be read off the word: there is one frame for every call that is pending.

* `Alphabet.pendingCalls`: the pending calls of a word, each with the end of what its procedure sees.
* `System.frameAt?`: the frame that a pending call stands for. Only the local run of its procedure is
  looked at, on the normal form of what it sees.
* `System.frames_reached`: the frames behind a word are those of its pending calls.
* `System.isAccepting_reached`: frames that wait accept, so a run that is alive accepts unless the last
  symbol has entered a procedure whose initial state rejects.
-/

namespace BehavioralAutomata

namespace Alphabet

variable {α : Type u} [DecidableEq α] {A : Alphabet α}

/-- The positions of the calls that are pending in front of position `i`, nearest first. Each one comes
with the end of what its procedure sees. This is `e` for the nearest one; the others see the call that
is still pending above them and nothing behind it. -/
def pendingCalls (A : Alphabet α) (w : List α) (i e : Nat) : List (Nat × Nat) :=
  match h : A.findCall? w i with
  | none => []
  | some j => (j, e) :: A.pendingCalls w j (j + 1)
termination_by i
decreasing_by exact (findCall?_lt h).1

theorem pendingCalls_of_none {w : List α} {i : Nat} (h : A.findCall? w i = none) (e : Nat) :
    A.pendingCalls w i e = [] := by
  rw [pendingCalls]
  split
  · rfl
  · next j hj => cases h.symm.trans hj

theorem pendingCalls_of_some {w : List α} {i j : Nat} (h : A.findCall? w i = some j) (e : Nat) :
    A.pendingCalls w i e = (j, e) :: A.pendingCalls w j (j + 1) := by
  rw [pendingCalls]
  split
  · next hnone => cases h.symm.trans hnone
  · next k hk =>
    cases h.symm.trans hk
    rfl

/-- The pending calls are a matter of what stands in front of the position. -/
theorem pendingCalls_append {u : List α} {i : Nat} (hi : i ≤ u.length) (v : List α) (e : Nat) :
    A.pendingCalls (u ++ v) i e = A.pendingCalls u i e := by
  induction i using Nat.strongRecOn generalizing e with
  | _ i ih =>
  have hcall := findCall?_append (A := A) hi v
  cases h : A.findCall? u i with
  | none => rw [pendingCalls_of_none h, pendingCalls_of_none (hcall.trans h)]
  | some j =>
    have hlt := findCall?_lt h
    rw [pendingCalls_of_some h, pendingCalls_of_some (hcall.trans h),
      ih j hlt.1 (Nat.le_of_lt hlt.2)]

theorem le_of_mem_pendingCalls {w : List α} {i e : Nat} {p : Nat × Nat}
    (h : p ∈ A.pendingCalls w i e) (he : i ≤ e) : p.1 < i ∧ p.2 ≤ e := by
  induction i using Nat.strongRecOn generalizing e with
  | _ i ih =>
  cases hj : A.findCall? w i with
  | none =>
    rw [pendingCalls_of_none hj] at h
    cases h
  | some j =>
    have hlt := (findCall?_lt hj).1
    rw [pendingCalls_of_some hj] at h
    rcases List.mem_cons.1 h with rfl | h
    · exact ⟨hlt, Nat.le_refl e⟩
    · have := ih j hlt h (Nat.le_succ j)
      omega

end Alphabet

theorem Procedure.reached_append_singleton {α : Type u} {β : Type v} [DecidableEq β]
    {P : Procedure α β} {u : List α} {q : Nat} (h : P.reached u = some q) (a : α) :
    P.reached (u ++ [a]) = P.successor q a := by
  obtain ⟨p, hp, hu⟩ := Option.bind_eq_some_iff.1 h
  rw [reached, hp, Option.bind_some, reachedFrom_append, hu, Option.bind_some, reachedFrom]
  cases P.successor q a <;> rfl

namespace System

variable {α : Type u} {β : Type v} [DecidableEq α] [DecidableEq β] {S : System α β}

/-! ## Frames of pending calls -/

/-- The frame of the procedure that the call at position `j` has started, where it has seen what stands
in front of position `e`. -/
def frameAt? (S : System α β) (w : List α) (j e : Nat) : Option (Frame α) :=
  w[j]?.bind fun c => (S.procedure? c).bind fun P =>
    (P.reached (S.alphabet.normalize ((w.take e).drop (j + 1)))).map (⟨c, ·⟩)

theorem frameAt?_append {u : List α} {j e : Nat} (hj : j < u.length) (he : e ≤ u.length)
    (v : List α) : S.frameAt? (u ++ v) j e = S.frameAt? u j e := by
  rw [frameAt?, frameAt?, List.getElem?_append_left hj, List.take_append_of_le_length he]

/-- The frames of the calls that are pending in front of position `i`, nearest first. -/
def pendingFrames (S : System α β) (w : List α) (i e : Nat) : List (Option (Frame α)) :=
  (S.alphabet.pendingCalls w i e).map fun p => S.frameAt? w p.1 p.2

theorem pendingFrames_append {u : List α} {i e : Nat} (hi : i ≤ e) (he : e ≤ u.length)
    (v : List α) : S.pendingFrames (u ++ v) i e = S.pendingFrames u i e := by
  rw [pendingFrames, Alphabet.pendingCalls_append (Nat.le_trans hi he)]
  refine List.map_congr_left fun p hp => ?_
  obtain ⟨hj, hle⟩ := Alphabet.le_of_mem_pendingCalls hp hi
  exact frameAt?_append (by omega) (Nat.le_trans hle he) v

namespace Reads

variable {x u : List α} {c : α} {top : Frame α} {fs : List (Frame α)}

theorem findCall?_eq (h : S.Reads x c u top fs) :
    S.alphabet.findCall? (x ++ c :: u) (x ++ c :: u).length = some x.length :=
  Alphabet.findCall?_of_balanced List.take_length h.call h.balanced

/-- The top frame is the one of the nearest pending call. -/
theorem frameAt?_top (h : S.Reads x c u top fs) :
    S.frameAt? (x ++ c :: u) x.length (x ++ c :: u).length = some top := by
  obtain ⟨P, hP, rfl, hreach⟩ := h.reached_procedure
  have hget : (x ++ top.procedure :: u)[x.length]? = some top.procedure := by simp
  have hdrop : (x ++ top.procedure :: u).drop (x.length + 1) = u := by simp
  rw [frameAt?, hget, Option.bind_some, hP, Option.bind_some, List.take_length, hdrop, hreach]
  rfl

/-- A frame that waits has seen the call for which it waits. -/
theorem frameAt?_caller (h : S.Reads x c u top fs) {a : α} {k : Frame α}
    (hm : S.advance top a = some k) :
    S.frameAt? (x ++ c :: u ++ [a]) x.length ((x ++ c :: u).length + 1) = some k := by
  obtain ⟨P, hP, rfl, hreach⟩ := h.reached_procedure
  obtain ⟨P', q, hP', hq, rfl⟩ := advance_eq_some_iff.1 hm
  cases hP.symm.trans hP'
  have hget : (x ++ top.procedure :: u ++ [a])[x.length]? = some top.procedure := by simp
  have htake : (x ++ top.procedure :: u ++ [a]).take ((x ++ top.procedure :: u).length + 1) =
      x ++ top.procedure :: u ++ [a] :=
    List.take_of_length_le (Nat.le_of_eq List.length_append)
  have hdrop : (x ++ top.procedure :: u ++ [a]).drop (x.length + 1) = u ++ [a] := by simp
  have hnormal : S.alphabet.normalize (u ++ [a]) = S.alphabet.normalize u ++ [a] := by
    rw [h.balanced.normalize_append, Alphabet.normalize_cons]
    simp
  rw [frameAt?, hget, Option.bind_some, hP, Option.bind_some, htake, hdrop, hnormal,
    Procedure.reached_append_singleton hreach, (Option.filter_eq_some_iff.1 hq).1]
  rfl

/-- Nothing waits below the first call. -/
theorem eq_nil_of_alone (h : S.Reads x c u top []) : x = [] := by
  obtain ⟨q, hq, hentry, _⟩ := h.run
  by_contra hx
  have halive : S.reached (x ++ [c]) ≠ .dead := by simp [hentry]
  obtain ⟨e, es, he, hstep⟩ := exists_active_of_reached hx halive
  obtain ⟨⟨k, hk⟩, _⟩ := (step_ne_dead_iff h.call).1 hstep
  rw [reached_append, he, run_cons, step_call h.call hq hk] at hentry
  cases hentry

/-- The frames that wait are those of the calls that are pending in front of the nearest one. -/
theorem pendingFrames_eq (h : S.Reads x c u top fs) :
    S.pendingFrames (x ++ [c]) x.length (x.length + 1) = fs.map some := by
  induction fs generalizing x c u top with
  | nil =>
    obtain rfl := h.eq_nil_of_alone
    have hnone : S.alphabet.findCall? ([] ++ [c]) 0 = none :=
      Alphabet.findCall?_eq_none_of_balanced rfl
    exact congrArg (List.map _) (Alphabet.pendingCalls_of_none hnone 1)
  | cons k fs ih =>
    obtain ⟨e, hx, hm⟩ := h.caller
    obtain ⟨y, d, v, rfl, hreads⟩ := exists_reads hx
    have hcall := (Alphabet.findCall?_append (Nat.le_refl _) [c]).trans hreads.findCall?_eq
    have hbelow : S.pendingFrames (y ++ d :: v ++ [c]) y.length (y.length + 1) = fs.map some := by
      have hsplit : y ++ d :: v ++ [c] = y ++ [d] ++ (v ++ [c]) := by simp
      rw [hsplit, pendingFrames_append (Nat.le_succ _) (by simp)]
      exact ih hreads
    rw [pendingFrames] at hbelow ⊢
    rw [Alphabet.pendingCalls_of_some hcall, List.map_cons, List.map_cons, hbelow,
      hreads.frameAt?_caller hm]

end Reads

/-! ## The stack behind a word -/

/-- A run that is alive has left the initial procedure exactly if it has read something and no call is
pending. -/
theorem reached_eq_finished_iff {w : List α} (h : S.reached w ≠ .dead) :
    S.reached w = .finished ↔ w ≠ [] ∧ S.alphabet.pending? w = some 0 := by
  rw [pending?_eq_depth h]
  cases hc : S.reached w with
  | dead => exact absurd hc h
  | initial =>
    obtain rfl := reached_eq_initial_iff.1 hc
    simp
  | active top fs => simp [Configuration.depth, Configuration.frames]
  | finished =>
    refine ⟨fun _ => ⟨?_, rfl⟩, fun _ => rfl⟩
    rintro rfl
    cases hc

/-- Without an active procedure no call is pending. -/
theorem pendingFrames_of_balanced {w : List α} (h : S.alphabet.Balanced w) :
    S.pendingFrames w w.length w.length = [] := by
  have hnone : S.alphabet.findCall? w w.length = none :=
    Alphabet.findCall?_eq_none_of_balanced (by rwa [List.take_length])
  rw [pendingFrames, Alphabet.pendingCalls_of_none hnone, List.map_nil]

theorem pendingFrames_eq_frames {w : List α} (h : S.reached w ≠ .dead) :
    S.pendingFrames w w.length w.length = (S.reached w).frames.map some := by
  have hpending := pending?_eq_depth h
  cases hc : S.reached w with
  | dead => exact absurd hc h
  | initial =>
    rw [hc] at hpending
    exact pendingFrames_of_balanced hpending
  | finished =>
    rw [hc] at hpending
    exact pendingFrames_of_balanced hpending
  | active top fs =>
    obtain ⟨x, c, u, rfl, hreads⟩ := exists_reads hc
    have hbelow : S.pendingFrames (x ++ c :: u) x.length (x.length + 1) = fs.map some := by
      rw [← List.singleton_append, ← List.append_assoc,
        pendingFrames_append (Nat.le_succ _) (by simp)]
      exact hreads.pendingFrames_eq
    rw [pendingFrames] at hbelow ⊢
    rw [Alphabet.pendingCalls_of_some hreads.findCall?_eq, List.map_cons, hbelow,
      hreads.frameAt?_top]
    rfl

/-- The stack of a run that is alive can be read off its word. It has as many frames as calls are pending;
from top to bottom they belong to the pending calls from the last one to the first. The top frame has
seen what stands behind its call, and every other one what stands behind its call up to the next pending
call. -/
theorem frames_reached {w : List α} (h : S.reached w ≠ .dead) :
    S.alphabet.pending? w = some (S.reached w).depth ∧
    (S.reached w = .initial ↔ w = []) ∧
    (S.reached w = .finished ↔ w ≠ [] ∧ S.alphabet.pending? w = some 0) ∧
    (S.reached w).frames.map some =
      (S.alphabet.pendingCalls w w.length w.length).map fun p => S.frameAt? w p.1 p.2 :=
  ⟨pending?_eq_depth h, reached_eq_initial_iff, reached_eq_finished_iff h,
    (pendingFrames_eq_frames h).symm⟩

/-- `S` calls `T` once, and `T` calls `S` again and again as soon as it has read `a`. -/
def nestedSystem (accepting : Bool) : System Char Char where
  alphabet := ⟨['a'], ['S', 'T'], 'R', by decide⟩
  initialCall := some 'S'
  procedures := .ofList [
    ('S', {
      states := #[⟨true, .ofList [('T', 1)]⟩, ⟨true, .ofList [('R', 1)]⟩]
      start := some 0
      target_lt := by decide
      start_lt := by decide }),
    ('T', {
      states := #[⟨accepting, .ofList [('a', 1)]⟩, ⟨true, .ofList [('S', 1)]⟩]
      start := some 0
      target_lt := by cases accepting <;> decide
      start_lt := by cases accepting <;> decide })]
  read := some

/-- The first `S` waits behind its call of `T`, and `T` behind its call of the second `S`. -/
theorem pendingFrames_nestedSystem :
    (nestedSystem true).reached ['S', 'T', 'a', 'S'] ≠ .dead ∧
      ((nestedSystem true).alphabet.pendingCalls ['S', 'T', 'a', 'S'] 4 4).map
        (fun p => (nestedSystem true).frameAt? ['S', 'T', 'a', 'S'] p.1 p.2) =
        [some ⟨'S', 0⟩, some ⟨'T', 1⟩, some ⟨'S', 1⟩] := by
  have halive : (nestedSystem true).reached ['S', 'T', 'a', 'S'] ≠ .dead := by decide
  obtain ⟨_, _, _, hframes⟩ := frames_reached halive
  exact ⟨halive, hframes.symm.trans (by decide)⟩

/-! ## Frames that wait -/

/-- The last symbol of the word is a call of a procedure that starts in a rejecting state. -/
def EndsInRejectingEntry (S : System α β) (w : List α) : Prop :=
  ∃ c q, w.getLast? = some c ∧ S.alphabet.isCall c = true ∧ S.entry? c = some q ∧
    S.frameAccepts ⟨c, q⟩ = false

omit [DecidableEq β] in
theorem endsInRejectingEntry_iff {w : List α} {a : α} :
    S.EndsInRejectingEntry (w ++ [a]) ↔ S.alphabet.kind? a = some .call ∧
      ∃ q, S.entry? a = some q ∧ S.frameAccepts ⟨a, q⟩ = false := by
  rw [EndsInRejectingEntry, List.getLast?_concat]
  constructor
  · rintro ⟨c, q, hc, hcall, hentry⟩
    cases hc
    exact ⟨of_decide_eq_true hcall, q, hentry⟩
  · rintro ⟨hcall, q, hentry⟩
    exact ⟨a, q, rfl, decide_eq_true hcall, hentry⟩

/-- Where all frames that wait accept, a surviving step leads to rejection exactly if it enters a
procedure that starts in a rejecting state. -/
theorem isAccepting_eq_false_of_survives {f : Frame α} {fs : List (Frame α)} {a : α}
    {c : Configuration α} (h : S.Settled (.active f fs)) (hc : S.Survives f fs a c) :
    S.isAccepting c = false ↔ S.alphabet.kind? a = some .call ∧
      ∃ q, S.entry? a = some q ∧ S.frameAccepts ⟨a, q⟩ = false := by
  cases hc with
  | @internal g hk hm =>
    have haccepts : S.isAccepting (.active g fs) = true := frameAccepts_advance hm
    simp [haccepts, hk]
  | @call g q hk he _ =>
    have haccepts : S.isAccepting (.active ⟨a, q⟩ (g :: fs)) = S.frameAccepts ⟨a, q⟩ := rfl
    simp [haccepts, hk, he]
  | ret hk _ =>
    have haccepts : S.isAccepting (Configuration.finished.above fs) = true := isAccepting_of_ret h
    simp [haccepts, Alphabet.kind?_eq_ret_iff.2 hk]

theorem isAccepting_reached_eq_false_iff {w : List α} (h : S.reached w ≠ .dead) :
    S.isAccepting (S.reached w) = false ↔ S.EndsInRejectingEntry w := by
  rcases List.eq_nil_or_concat w with rfl | ⟨w, a, rfl⟩
  · constructor
    · intro hrejects
      cases hrejects
    · rintro ⟨c, q, hc, _⟩
      cases hc
  rw [List.concat_eq_append] at h ⊢
  rw [endsInRejectingEntry_iff]
  by_cases hne : w = []
  · subst hne
    obtain ⟨q, hk, _, hq, hr⟩ := reached_cons h
    have haccepts : S.isAccepting (.active ⟨a, q⟩ []) = S.frameAccepts ⟨a, q⟩ := rfl
    rw [List.nil_append, hr, run_nil]
    simp [haccepts, hk, hq]
  · obtain ⟨f, fs, hf, hstep⟩ := exists_active_of_reached hne h
    rw [reached_append, hf, run_cons, run_nil]
    exact isAccepting_eq_false_of_survives (hf ▸ S.settled_reached w) (survives rfl hstep)

/-- While a run is alive, all frames that wait are in accepting states, and it is rejected only behind a
call that has just entered a procedure in a rejecting state. So the words that a system accepts are
closed under prefixes if no procedure starts in a rejecting state. -/
theorem isAccepting_reached (S : System α β) :
    (∀ w, S.reached w ≠ .dead →
      (∀ f ∈ (S.reached w).frames.tail, S.frameAccepts f = true) ∧
      (S.isAccepting (S.reached w) = false ↔ S.EndsInRejectingEntry w)) ∧
    (S.EntriesAccept → ∀ u v, S.accepts (u ++ v) = true → S.accepts u = true) :=
  ⟨fun w h => ⟨S.settled_reached w, isAccepting_reached_eq_false_iff h⟩,
    fun hS _ _ h => accepts_of_append hS h⟩

/-- A rejecting entry of `T` is seen right behind its call only. Without it no beginning is rejected. -/
theorem rejects_nestedSystem :
    (nestedSystem false).EndsInRejectingEntry ['S', 'T'] ∧
      ¬ (nestedSystem false).EndsInRejectingEntry ['S', 'T', 'a'] ∧
      (nestedSystem true).accepts ['S', 'T'] = true := by
  have h := isAccepting_reached (nestedSystem false)
  have hentry := (h.1 ['S', 'T'] (by decide)).2
  have hbehind := (h.1 ['S', 'T', 'a'] (by decide)).2
  refine ⟨hentry.1 (by decide), fun hends => ?_, ?_⟩
  · exact absurd (hbehind.2 hends) (by decide)
  · exact (isAccepting_reached (nestedSystem true)).2 (by decide) _ ['a'] (by decide)

end System

end BehavioralAutomata
