import BehavioralAutomata.Proofs.Acceptor.Completion
import BehavioralAutomata.Proofs.Random.Draws
import BehavioralAutomata.Proofs.Random.Generator
import BehavioralAutomata.Proofs.System.Stacks

/-!
# The language of a keylock

* `System.Forced`: a run that can only stay alive by reading one word.
* `Random.Lane`: an acceptor whose edges follow one word; `Random.Spells`: what is left of it behind
  completion.
* `Random.Chain`: procedures of which each calls the next one, and what the first one reads;
  `Random.returns_keylockProcedures`: these are the ones that are drawn.
* `Random.Chain.forced`: the invocation of the first call is a forced run, from the innermost procedure
  outwards.
* `Random.keylock_language`: a keylock accepts one word and its beginnings, whatever the source of its random
  numbers does within its laws.
-/

namespace BehavioralAutomata

/-! ## Forced runs -/

namespace System

variable {α : Type u} {β : Type v} [DecidableEq α] [DecidableEq β] {S : System α β}
  {c d e : Configuration α} {w v : List α}

/-- From the first configuration a run stays alive only by reading the word, which leads to the second
one. -/
inductive Forced (S : System α β) : Configuration α → List α → Configuration α → Prop where
  | nil {c : Configuration α} : Forced S c [] c
  | cons {c d : Configuration α} {a : α} {w : List α} :
      S.step c a ≠ .dead → (∀ b, b ≠ a → S.step c b = .dead) → Forced S (S.step c a) w d →
      Forced S c (a :: w) d

theorem Forced.append (h : S.Forced c w d) (h' : S.Forced d v e) : S.Forced c (w ++ v) e := by
  induction h with
  | nil => exact h'
  | cons halive hdead _ ih => exact .cons halive hdead (ih h')

/-- If nothing can be read behind a forced run, then it is alive exactly on the beginnings of its word. -/
theorem Forced.run_ne_dead_iff (h : S.Forced c w d) (hc : c ≠ .dead)
    (hd : ∀ a, S.step d a = .dead) {u : List α} : S.run c u ≠ .dead ↔ u <+: w := by
  induction h generalizing u with
  | nil =>
    cases u with
    | nil => exact iff_of_true hc List.prefix_rfl
    | cons b u =>
      rw [run_cons, hd, run_dead]
      exact iff_of_false (fun h => h rfl) (by simp)
  | @cons c _ a w halive hdead _ ih =>
    cases u with
    | nil => exact iff_of_true hc List.nil_prefix
    | cons b u =>
      rw [run_cons, List.cons_prefix_cons]
      by_cases hb : b = a
      · subst hb
        rw [ih halive hd]
        exact ⟨fun h => ⟨rfl, h⟩, And.right⟩
      · rw [hdead b hb, run_dead]
        exact iff_of_false (fun h => h rfl) fun h => hb h.1

end System

namespace Random

variable {G α : Type} [DecidableEq α] {A : Alphabet α} {D E : Acceptor α} {n size : Nat}
  {w u v : List α}

/-! ## Lanes -/

/-- The edges follow the word from state to state, beginning at the initial one. -/
structure Lane (n : Nat) (w : List α) (D : Acceptor α) : Prop where
  size : D.size = n
  start : D.start = some 0
  allAccept : D.AllAccept
  successor : ∀ q a, D.successor q a = if w[q]? = some a then some (q + 1) else none

theorem Row.lane (h : Row n D) : Lane n [] D :=
  ⟨h.size, h.start, h.allAccept, fun q a => by rw [h.successor]; rfl⟩

theorem Lane.joins {a : α} (h : Lane n w D) (hE : D.Joins w.length a (w.length + 1) E) :
    Lane n (w ++ [a]) E where
  size := hE.size.trans h.size
  start := hE.start.trans h.start
  allAccept := h.allAccept.joins hE
  successor q b := by
    rw [hE.successor, h.successor]
    rcases Nat.lt_trichotomy q w.length with hq | rfl | hq
    · rw [if_neg fun hq' => Nat.ne_of_lt hq hq'.1, List.getElem?_append_left hq]
    · simp [eq_comm]
    · rw [if_neg fun hq' => Nat.ne_of_gt hq hq'.1, List.getElem?_eq_none (Nat.le_of_lt hq),
        List.getElem?_eq_none (by rw [List.length_append]; exact hq)]

/-- A lane grows at its end. -/
theorem Lane.returns_connect (h : Lane n w D) (hn : w.length + 1 < n) (a : α) :
    Returns (connect D w.length a (w.length + 1) : Draw G α (Acceptor α)) (Lane n (w ++ [a])) := by
  rw [← h.size] at hn
  exact (Random.returns_connect (Nat.lt_of_succ_lt hn) hn a).mono fun E hE => h.joins hE

/-- From state to state only the word can be read in accepting states. -/
structure Spells (w : List α) (D : Acceptor α) : Prop where
  start : D.start = some 0
  isAccepting : D.isAccepting 0 = true
  liveSuccessor : ∀ q a, D.liveSuccessor q a = if w[q]? = some a then some (q + 1) else none

theorem Lane.complete (h : Lane n w D) (hn : 0 < n) (symbols : List α) :
    Spells w (D.complete symbols).2 where
  start := by rw [Acceptor.start_complete, h.start, Option.some_or]
  isAccepting := by
    rw [Acceptor.isAccepting_complete]
    exact h.allAccept 0 (h.size ▸ hn)
  liveSuccessor q a := by
    rw [Acceptor.liveSuccessor_complete, h.allAccept.liveSuccessor, h.successor]

/-! ## Drawing a chain -/

/-- The internal symbols that a procedure reads before it returns. -/
structure Lock (A : Alphabet α) (size : Nat) (u : List α) : Prop where
  length : u.length = size - 2
  subset : u ⊆ A.internals

/-- What a procedure reads first. -/
def Opens (A : Alphabet α) : Option α → α → Prop
  | some c, a => a = c
  | none, a => a ∈ A.internals

section

variable [RandomSource G] [RandomSource.Bounded G]

theorem returns_lock (hinternals : A.internals ≠ []) {a : α} (hD : Lane (size + 1) [a] D)
    (h : 2 < size) : Returns ((List.range' 1 (size - 2)).foldlM (m := Draw G α)
      (fun D q => do connect D q (← pick A.internals) (q + 1)) D)
      fun D => ∃ u, Lock A size u ∧ Lane (size + 1) (a :: u) D := by
  have hloop : Returns ((List.range' 1 (size - 2)).foldlM (m := Draw G α)
      (fun D q => do connect D q (← pick A.internals) (q + 1)) D)
      fun D => ∃ u, u.length = (List.range' 1 (size - 2)).length ∧ u ⊆ A.internals ∧
        Lane (size + 1) (a :: u) D := by
    refine .foldlM (P := fun done D => ∃ u, u.length = done.length ∧ u ⊆ A.internals ∧
      Lane (size + 1) (a :: u) D) ?_ ⟨[], rfl, List.nil_subset _, hD⟩
    rintro done q rest D hrange ⟨u, hu, hsub, hD⟩
    have hlt : done.length < size - 2 := by
      have hlength := congrArg List.length hrange
      rw [List.length_range', List.length_append, List.length_cons] at hlength
      omega
    -- the number of the state is that of the symbols that were drawn before
    have hq : q = (a :: u).length := by
      have hget : (List.range' 1 (size - 2))[done.length]? = some q := by simp [hrange]
      rw [List.getElem?_range' hlt, Nat.one_mul] at hget
      rw [← Option.some.inj hget, List.length_cons, hu, Nat.add_comm]
    subst hq
    refine (returns_pick hinternals).bind fun x hx => ?_
    have hn : (a :: u).length + 1 < size + 1 := by
      rw [List.length_cons, hu]
      omega
    refine (hD.returns_connect hn x).mono fun E hE => ⟨u ++ [x], ?_, ?_, hE⟩
    · rw [List.length_append, List.length_append, hu]
      rfl
    · exact List.append_subset.2 ⟨hsub, List.cons_subset.2 ⟨hx, List.nil_subset _⟩⟩
  refine hloop.mono fun D hD => ?_
  obtain ⟨u, hu, hsub, hlane⟩ := hD
  exact ⟨u, ⟨by simpa using hu, hsub⟩, hlane⟩

omit [DecidableEq α] in
theorem returns_firstSymbol (hinternals : A.internals ≠ []) (next : Option α) :
    Returns (firstSymbol A next : Draw G α α) (Opens A next) := by
  cases next with
  | some c => exact .pure rfl
  | none => exact returns_pick hinternals

theorem returns_keylockProcedure (hinternals : A.internals ≠ []) (h : 2 < size) (next : Option α) :
    Returns (keylockProcedure A size next : Draw G α (Acceptor α)) fun D =>
      ∃ a u, Opens A next a ∧ Lock A size u ∧ Spells (a :: u ++ [A.ret]) D := by
  refine (returns_firstSymbol hinternals next).bind fun a ha => ?_
  refine (returns_rows size.succ_pos).bind fun D hD => ?_
  refine (hD.lane.returns_connect (Nat.succ_lt_succ (Nat.zero_lt_of_lt h)) a).bind fun D hD => ?_
  refine (returns_lock hinternals hD h).bind fun D hD => ?_
  obtain ⟨u, hu, hD⟩ := hD
  have hlength : (a :: u).length = size - 1 := by
    rw [List.length_cons, hu.length]
    omega
  have hlast := hD.returns_connect (G := G) (by rw [hlength]; omega) A.ret
  rw [hlength, Nat.sub_add_cancel (Nat.zero_lt_of_lt h)] at hlast
  exact hlast.bind fun D hD => .pure ⟨a, u, ha, hu, hD.complete size.succ_pos _⟩

end

/-- The first of these calls has the first of these procedures, each procedure calls the next one, and the
word is what the first procedure reads from its call to its return. -/
inductive Chain (A : Alphabet α) (size : Nat) :
    α → Acceptor α → List (α × Acceptor α) → List α → Prop where
  | last {c a : α} {u : List α} {D : Acceptor α} : a ∈ A.internals → Lock A size u →
      Spells (a :: u ++ [A.ret]) D → Chain A size c D [] (a :: u ++ [A.ret])
  | next {c d : α} {v u : List α} {D E : Acceptor α} {ps : List (α × Acceptor α)} :
      Chain A size d E ps v → Lock A size u → Spells (d :: u ++ [A.ret]) D →
      Chain A size c D ((d, E) :: ps) (d :: v ++ u ++ [A.ret])

/-- The invocation of the first of these calls: it invokes the next one, or reads an internal symbol if it is
the last one, then it reads internal symbols, and then it returns. -/
inductive Invocation (A : Alphabet α) (size : Nat) : List α → List α → Prop where
  | last {c a : α} {u : List α} : a ∈ A.internals → Lock A size u →
      Invocation A size [c] (c :: a :: u ++ [A.ret])
  | next {c d : α} {calls v u : List α} : Invocation A size (d :: calls) v → Lock A size u →
      Invocation A size (c :: d :: calls) (c :: v ++ u ++ [A.ret])

theorem Chain.invocation {c : α} {ps : List (α × Acceptor α)} (h : Chain A size c D ps v) :
    Invocation A size (c :: ps.map Prod.fst) (c :: v) := by
  induction h with
  | last ha hu _ => exact .last ha hu
  | next _ hu _ ih => exact .next ih hu

theorem Chain.spells {c : α} {ps : List (α × Acceptor α)} (h : Chain A size c D ps v) :
    ∀ p ∈ (c, D) :: ps, ∃ w, Spells w p.2 := by
  induction h with
  | last _ _ hspells => exact List.forall_mem_singleton.2 ⟨_, hspells⟩
  | next _ _ hspells ih => exact List.forall_mem_cons.2 ⟨⟨_, hspells⟩, ih⟩

theorem returns_keylockProcedures [RandomSource G] [RandomSource.Bounded G]
    (hinternals : A.internals ≠ []) (h : 2 < size) (calls : List α) :
    Returns (keylockProcedures A size calls : Draw G α (List (α × Acceptor α))) fun ps =>
      ps.map Prod.fst = calls ∧ ∀ c D rest, ps = (c, D) :: rest → ∃ v, Chain A size c D rest v := by
  induction calls with
  | nil => exact .pure ⟨rfl, by simp⟩
  | cons c calls ih =>
    rw [keylockProcedures]
    refine (returns_keylockProcedure hinternals h calls.head?).bind fun D hD => ?_
    obtain ⟨a, u, ha, hu, hspells⟩ := hD
    refine ih.bind fun ps hps => .pure ?_
    obtain ⟨rfl, hchain⟩ := hps
    refine ⟨rfl, fun c' D' rest heq => ?_⟩
    obtain ⟨hhead, rfl⟩ := List.cons.inj heq
    cases hhead
    cases ps with
    | nil => exact ⟨_, .last ha hu hspells⟩
    | cons p ps =>
      obtain ⟨d, E⟩ := p
      obtain ⟨v, hv⟩ := hchain d E ps rfl
      obtain rfl : a = d := ha
      exact ⟨_, .next hv hu hspells⟩

/-! ## The words -/

omit [DecidableEq α] in
theorem Invocation.length_eq {calls : List α} (h : Invocation A size calls w) (hsize : 2 < size) :
    w.length = calls.length * size + 1 := by
  induction h with
  | last _ hu =>
    simp only [List.length_append, List.length_cons, List.length_nil, hu.length]
    omega
  | next _ hu ih =>
    simp only [List.length_append, List.length_cons, List.length_nil, hu.length, ih, Nat.succ_mul]
    omega

theorem Lock.count_eq_zero (h : Lock A size u) {c : α} (hc : c ∈ A.calls) : u.count c = 0 := by
  refine List.count_eq_zero.2 fun hmem => ?_
  have hkind := Alphabet.kind?_eq_internal_iff.2 (h.subset hmem)
  rw [Alphabet.kind?_eq_call_iff.2 hc] at hkind
  cases hkind

theorem Invocation.count_eq {calls : List α} (h : Invocation A size calls w) {c : α}
    (hc : c ∈ A.calls) : w.count c = calls.count c := by
  have hkind := Alphabet.kind?_eq_call_iff.2 hc
  have hret : A.ret ≠ c := by
    rintro rfl
    cases hkind.symm.trans (Alphabet.kind?_eq_ret_iff.2 rfl)
  induction h with
  | @last d a u ha hu =>
    have ha' : a ≠ c := by
      rintro rfl
      cases hkind.symm.trans (Alphabet.kind?_eq_internal_iff.2 ha)
    simp [List.count_cons, List.count_append, hu.count_eq_zero hc, ha', hret]
  | next _ hu ih =>
    simp [List.count_cons, List.count_append, hu.count_eq_zero hc, ih, hret]

/-! ## The runs -/

section

variable {S : PlainSystem α} {c : α} {fs : List (Frame α)}

theorem advance_of_spells (hD : (c, D) ∈ S.procedures.entries) (h : Spells w D) (q : Nat) (a : α) :
    S.advance ⟨c, q⟩ a = if w[q]? = some a then some ⟨c, q + 1⟩ else none := by
  have hlive : (Procedure.mk D S.read).liveSuccessor q a = D.liveSuccessor q a := by
    rw [S.read_eq]
    rfl
  rw [System.advance, System.procedure?_of_mem hD, Option.bind_some, hlive, h.liveSuccessor]
  split <;> rfl

/-- A procedure goes on with the next symbol of its word only. -/
theorem forced_letter (hD : (c, D) ∈ S.procedures.entries) {x y : List α} {a : α}
    {d : Configuration α} (h : Spells (x ++ a :: y) D)
    (hstep : S.step (.active ⟨c, x.length⟩ fs) a = d) (hd : d ≠ .dead) :
    S.Forced (.active ⟨c, x.length⟩ fs) [a] d := by
  subst hstep
  refine .cons hd (fun b hb => System.step_eq_dead ?_ fs) .nil
  rw [advance_of_spells hD h, if_neg]
  simpa using Ne.symm hb

theorem advance_letter (hD : (c, D) ∈ S.procedures.entries) {x y : List α} {a : α}
    (h : Spells (x ++ a :: y) D) : S.advance ⟨c, x.length⟩ a = some ⟨c, x.length + 1⟩ := by
  rw [advance_of_spells hD h, if_pos (by simp)]

theorem forced_lock (hD : (c, D) ∈ S.procedures.entries) {x y : List α}
    (h : Spells (x ++ u ++ y) D) (hu : u ⊆ S.alphabet.internals) :
    S.Forced (.active ⟨c, x.length⟩ fs) u (.active ⟨c, (x ++ u).length⟩ fs) := by
  induction u generalizing x with
  | nil =>
    rw [List.append_nil]
    exact .nil
  | cons a u ih =>
    rw [List.append_assoc, List.cons_append] at h
    obtain ⟨ha, hu⟩ := List.cons_subset.1 hu
    have hstep := System.step_internal (Alphabet.kind?_eq_internal_iff.2 ha) (advance_letter hD h) fs
    have hrest := ih (x := x ++ [a]) (by simpa using h) hu
    rw [List.length_append, List.length_singleton] at hrest
    simpa using (forced_letter hD h hstep (by rintro ⟨⟩)).append hrest

theorem forced_return (hD : (c, D) ∈ S.procedures.entries) {x : List α}
    (h : Spells (x ++ [S.alphabet.ret]) D) :
    S.Forced (.active ⟨c, x.length⟩ fs) [S.alphabet.ret] (Configuration.finished.above fs) := by
  refine forced_letter hD h (System.step_ret (advance_letter hD h) fs) ?_
  cases fs <;> rintro ⟨⟩

/-- What the procedures of a chain read is forced, whatever waits for them. -/
theorem Chain.forced {ps : List (α × Acceptor α)} (h : Chain A size c D ps v)
    (hA : S.alphabet = A) (hD : (c, D) ∈ S.procedures.entries)
    (hps : ∀ p ∈ ps, p ∈ S.procedures.entries) (fs : List (Frame α)) :
    S.Forced (.active ⟨c, 0⟩ fs) v (Configuration.finished.above fs) := by
  subst hA
  induction h generalizing fs with
  | @last c a u D ha hu hspells =>
    have hlock : a :: u ⊆ S.alphabet.internals := List.cons_subset.2 ⟨ha, hu.subset⟩
    exact (forced_lock (x := []) hD hspells hlock).append (forced_return hD hspells)
  | @next c d v u D E ps hchain hu hspells ih =>
    obtain ⟨hE, hps⟩ := List.forall_mem_cons.1 hps
    have hkind : S.alphabet.kind? d = some .call :=
      of_decide_eq_true (S.isCall_of_mem d (List.mem_map.2 ⟨_, hE, rfl⟩))
    have hentry : S.entry? d = some 0 := by
      obtain ⟨w, hw⟩ := hchain.spells _ List.mem_cons_self
      rw [System.entry?_of_mem hE, hw.start]
    have hstep := System.step_call hkind hentry (advance_letter (x := []) hD hspells) fs
    have hcall := forced_letter (x := []) hD hspells hstep (by rintro ⟨⟩)
    have hinvoked := ih hE hps (⟨c, 1⟩ :: fs)
    have hlock : S.Forced (.active ⟨c, 1⟩ fs) u (.active ⟨c, (d :: u).length⟩ fs) :=
      forced_lock (x := [d]) hD hspells hu.subset
    exact ((hcall.append hinvoked).append hlock).append (forced_return hD hspells)

theorem Chain.forced_initial {ps : List (α × Acceptor α)} (h : Chain S.alphabet size c D ps v)
    (hprocedures : S.procedures.entries = (c, D) :: ps) (hc : S.initialCall = some c) :
    S.Forced .initial (c :: v) .finished := by
  have hmem : ∀ p ∈ (c, D) :: ps, p ∈ S.procedures.entries := fun p hp => hprocedures ▸ hp
  obtain ⟨hD, hps⟩ := List.forall_mem_cons.1 hmem
  obtain ⟨w, hw⟩ := h.spells _ List.mem_cons_self
  have hkind : S.alphabet.kind? c = some .call :=
    of_decide_eq_true (S.isCall_of_mem c (List.mem_map.2 ⟨_, hD, rfl⟩))
  have hentry : S.entry? c = some 0 := (System.entry?_of_mem hD).trans hw.start
  have hstep : S.step .initial c = .active ⟨c, 0⟩ [] := by
    simp [System.step, hkind, hc, hentry]
  refine .cons (by rw [hstep]; rintro ⟨⟩) (fun b hb => ?_) ?_
  · by_contra hne
    obtain ⟨_, hcall, _⟩ := System.reached_singleton_ne_dead_iff.1 hne
    exact hb (Option.some.inj (hcall.symm.trans hc))
  · rw [hstep]
    exact h.forced rfl hD hps []

end

/-! ## The systems -/

/-- A system whose procedures form a chain in the order of these calls. -/
structure Chained (A : Alphabet α) (size : Nat) (calls : List α) (S : PlainSystem α) : Prop where
  alphabet : S.alphabet = A
  initialCall : S.initialCall = calls.head?
  keys : S.procedures.keys = calls
  chain : ∀ c D ps, S.procedures.entries = (c, D) :: ps → ∃ v, Chain A size c D ps v

theorem Chain.entriesAccept {S : PlainSystem α} {c : α} {ps : List (α × Acceptor α)}
    (h : Chain A size c D ps v) (hprocedures : S.procedures.entries = (c, D) :: ps) :
    S.EntriesAccept := by
  intro d q hq
  obtain ⟨E, hE, hstart⟩ := System.exists_procedure hq
  have hmem := AssocMap.get?_eq_some_iff.1 hE
  obtain ⟨w, hw⟩ := h.spells (d, E) (hprocedures ▸ hmem)
  cases hstart.symm.trans hw.start
  rw [System.frameAccepts, System.procedure?_of_mem hmem]
  exact hw.isAccepting

theorem Chained.exists_word {calls : List α} {S : PlainSystem α} (h : Chained A size calls S)
    (hcalls : calls ≠ []) :
    ∃ w, Invocation A size calls w ∧ ∀ u, S.accepts u = true ↔ u <+: w := by
  obtain ⟨rfl, hinitial, rfl, hchain⟩ := h
  rw [AssocMap.keys] at hcalls hinitial ⊢
  cases hprocedures : S.procedures.entries with
  | nil => simp [hprocedures] at hcalls
  | cons p ps =>
    obtain ⟨c, D⟩ := p
    obtain ⟨v, hv⟩ := hchain c D ps hprocedures
    rw [hprocedures] at hinitial
    have hforced := hv.forced_initial hprocedures hinitial
    refine ⟨c :: v, hv.invocation, fun u => ?_⟩
    rw [System.accepts_iff_of_entriesAccept (hv.entriesAccept hprocedures)]
    exact hforced.run_ne_dead_iff (by rintro ⟨⟩) fun a => rfl

section

variable [RandomSource G]

/-- The procedures are drawn for the calls in this order. -/
theorem returns_chained [RandomSource.Bounded G] (hinternals : A.internals ≠ []) (h : 2 < size)
    {calls : List α} (hcalls : calls.Perm A.calls) :
    Returns (do system A calls.head? (← keylockProcedures A size calls) : Draw G α (PlainSystem α))
      (Chained A size calls) := by
  refine (returns_keylockProcedures hinternals h calls).bind fun ps hps => ?_
  obtain ⟨rfl, hchain⟩ := hps
  refine (returns_system _ hcalls).mono fun S hS => ?_
  exact ⟨hS.alphabet, hS.initialCall, by rw [AssocMap.keys, hS.entries],
    fun c D rest hrest => hchain c D rest (hS.entries.symm.trans hrest)⟩

theorem keylockSystem_of_lt (hinternals : A.internals ≠ []) (h : 2 < size) :
    (keylockSystem A size : Draw G α (PlainSystem α)) = (do
      let calls ← modifyGet (RandomSource.shuffle · A.calls)
      system A calls.head? (← keylockProcedures A size calls)) := by
  rw [keylockSystem, if_neg (Nat.not_le_of_gt h), if_neg (by simpa using hinternals)]

/-- A keylock accepts one word and its beginnings: the invocation of the first call, which contains the
invocations of all others. -/
theorem keylock_language [RandomSource.Bounded G] [RandomSource.Permuting G] (A : Alphabet α)
    (size : Nat) (hcalls : A.calls ≠ []) (hinternals : A.internals ≠ []) (hsize : 2 < size) (g : G) :
    ∃ S g' W, (keylockSystem A size).run g = .ok (S, g') ∧ S.alphabet = A ∧
      (RandomSource.shuffle g A.calls).1.Perm A.calls ∧
      Invocation A size (RandomSource.shuffle g A.calls).1 W ∧
      (∀ w, S.accepts w = true ↔ w <+: W) ∧ W.length = A.calls.length * size + 1 ∧
      ∀ c ∈ A.calls, W.count c = 1 := by
  have hperm := RandomSource.Permuting.perm_shuffle g A.calls
  obtain ⟨S, g', hS, hchained⟩ :=
    returns_chained hinternals hsize hperm (RandomSource.shuffle g A.calls).2
  obtain ⟨W, hW, hlanguage⟩ := hchained.exists_word fun hnil => hcalls (hnil ▸ hperm).nil_eq.symm
  refine ⟨S, g', W, ?_, hchained.alphabet, hperm, hW, hlanguage, ?_, fun c hc => ?_⟩
  · rw [keylockSystem_of_lt hinternals hsize]
    exact hS
  · rw [hW.length_eq hsize, hperm.length_eq]
  · rw [hW.count_eq hc, hperm.count_eq, A.nodup_calls.count, if_pos hc]

end

/-- Two calls and two internal symbols. -/
def twoLocks : Alphabet Char := ⟨['a', 'c'], ['S', 'T'], 'R', by decide⟩

/-- The procedure of `S` calls `T` and returns behind one internal symbol. -/
theorem keylock_language_twoLocks :
    ∃ S g', (keylockSystem twoLocks 3).run (⟨7⟩ : Generator) = .ok (S, g') ∧
      ∀ w, S.accepts w = true ↔ w <+: ['S', 'T', 'c', 'a', 'R', 'a', 'R'] := by
  obtain ⟨S, g', W, hrun, _, _, _, hlanguage, hlength, _⟩ :=
    keylock_language twoLocks 3 (by decide) (by decide) (by decide) (⟨7⟩ : Generator)
  have haccepts : ((keylockSystem twoLocks 3).run (⟨7⟩ : Generator)).toOption.map
      (·.1.accepts ['S', 'T', 'c', 'a', 'R', 'a', 'R']) = some true := by decide +kernel
  rw [hrun] at haccepts
  have hprefix := (hlanguage _).1 (Option.some.inj haccepts)
  obtain rfl := hprefix.eq_of_length (by rw [hlength]; rfl)
  exact ⟨S, g', hrun, hlanguage⟩

end Random

end BehavioralAutomata
