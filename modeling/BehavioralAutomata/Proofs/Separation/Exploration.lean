import BehavioralAutomata.Proofs.Loops
import BehavioralAutomata.Proofs.Outcomes
import BehavioralAutomata.Proofs.Separation.Findings
import Mathlib.Data.List.ProdSigma

/-!
# The exploration of one call

* `Separation.Frontier`: which pairs were left and which ones wait in the queue. No pair comes twice, so
  the exploration ends by its own test (`stops_explorePairs_of_le`).
* `Separation.explorePairs_outcome`: it finds a separating word, or all that it finds is sound; and if it
  finds nothing, then every pair that it has seen is covered.
-/

namespace BehavioralAutomata.Separation

variable {α β γ : Type} [DecidableEq α] [DecidableEq β] [DecidableEq γ]
  {L : System α β} {R : System α γ}

/-! ## Every pair is left once -/

/-- The pairs that were left, `left`, and those in the queue are the pairs that were seen, each of them
once. -/
structure Frontier (P : Acceptor β) (Q : Acceptor γ) (E : Progress α) (left : List (Nat × Nat)) :
    Prop where
  nodup : (left ++ E.queue.toList.map Prod.fst).Nodup
  seen_iff : ∀ x, E.seen.contains x = true ↔ x ∈ left ++ E.queue.toList.map Prod.fst
  bound : ∀ x ∈ left ++ E.queue.toList.map Prod.fst, x.1 < P.size ∧ x.2 < Q.size

namespace Frontier

variable {P : Acceptor β} {Q : Acceptor γ} {E : Progress α} {left : List (Nat × Nat)}

omit [DecidableEq α] [DecidableEq β] [DecidableEq γ] in
theorem start {F : Findings α} {p q : Nat} (hp : p < P.size) (hq : q < Q.size) :
    Frontier P Q (.start F (p, q)) [] where
  nodup := by simp [Progress.start]
  seen_iff x := by simp [Progress.start]
  bound x hx := by
    obtain rfl : x = (p, q) := by simpa [Progress.start] using hx
    exact ⟨hp, hq⟩

omit [DecidableEq α] [DecidableEq β] [DecidableEq γ] in
theorem pop (h : Frontier P Q E left) {x : Nat × Nat} {u : List α} {queue}
    (hpop : E.queue.pop? = some ((x, u), queue)) :
    Frontier P Q { E with queue } (left ++ [x]) := by
  have hlist : left ++ E.queue.toList.map Prod.fst =
      left ++ [x] ++ queue.toList.map Prod.fst := by
    rw [Queue.toList_of_pop? hpop]
    simp
  exact ⟨hlist ▸ h.nodup, fun y => hlist ▸ h.seen_iff y, fun y hy => h.bound y (hlist ▸ hy)⟩

omit [DecidableEq α] [DecidableEq β] [DecidableEq γ] in
theorem push (h : Frontier P Q E left) {x : Nat × Nat} {u : List α} (hx : x.1 < P.size)
    (hx' : x.2 < Q.size) : Frontier P Q (E.push x u) left := by
  rw [Progress.push]
  split
  · exact h
  · next hnew =>
    have hlist : left ++ (E.queue.push (x, u)).toList.map Prod.fst =
        (left ++ E.queue.toList.map Prod.fst) ++ [x] := by simp
    have hnot : x ∉ left ++ E.queue.toList.map Prod.fst := fun hm => hnew ((h.seen_iff x).2 hm)
    refine ⟨?_, fun y => ?_, fun y hy => ?_⟩
    · rw [hlist]
      refine List.nodup_append.2 ⟨h.nodup, by simp, fun y hy z hz => ?_⟩
      rintro rfl
      exact hnot (List.mem_singleton.1 hz ▸ hy)
    · rw [hlist, List.mem_append, ← h.seen_iff y, List.mem_singleton]
      simp [or_comm]
    · rw [hlist, List.mem_append, List.mem_singleton] at hy
      rcases hy with hy | rfl
      · exact h.bound y hy
      · exact ⟨hx, hx'⟩

omit [DecidableEq α] [DecidableEq β] [DecidableEq γ] in
theorem length_le (h : Frontier P Q E left) :
    left.length + E.queue.toList.length ≤ P.size * Q.size := by
  have hsub : left ++ E.queue.toList.map Prod.fst ⊆
      (List.range P.size) ×ˢ (List.range Q.size) := by
    intro x hx
    obtain ⟨h₁, h₂⟩ := h.bound x hx
    exact List.mem_product.2 ⟨List.mem_range.2 h₁, List.mem_range.2 h₂⟩
  have := h.nodup.length_le_of_subset hsub
  rw [List.length_product] at this
  simpa using this

end Frontier

theorem lt_of_advance {S : System α β} {A : Acceptor β} {c a : α} {p p' : Nat}
    (hA : S.procedures.get? c = some A) (h : S.advance ⟨c, p⟩ a = some ⟨c, p'⟩) : p' < A.size := by
  obtain ⟨P, q, hP, hq, he⟩ := System.advance_eq_some_iff.1 h
  cases he
  have hP' : S.procedure? c = some ⟨A, S.read⟩ := by rw [System.procedure?, hA]; rfl
  cases hP.symm.trans hP'
  obtain ⟨b, _, hs⟩ := Option.bind_eq_some_iff.1 (Option.filter_eq_some_iff.1 hq).1
  exact Acceptor.successor_lt hs

theorem Visited.frontier {c a : α} {w u : List α} {p q : Nat} {E E' : Progress α}
    {P : Acceptor β} {Q : Acceptor γ} (hP : L.procedures.get? c = some P)
    (hQ : R.procedures.get? c = some Q) {left : List (Nat × Nat)}
    (h : Visited L R c w u p q a E E') (hE : Frontier P Q E left) : Frontier P Q E' left := by
  cases h with
  | barred _ => exact hE
  | ret _ _ _ => exact ⟨hE.nodup, hE.seen_iff, hE.bound⟩
  | enter _ _ _ _ _ _ _ => exact ⟨hE.nodup, hE.seen_iff, hE.bound⟩
  | @internal p' q' _ hl hr =>
    exact hE.push (x := (p', q')) (lt_of_advance hP hl) (lt_of_advance hQ hr)
  | @skip p' q' _ _ _ _ hl hr _ _ _ _ =>
    refine Frontier.push (x := (p', q')) ?_ (lt_of_advance hP hl) (lt_of_advance hQ hr)
    exact ⟨hE.nodup, hE.seen_iff, hE.bound⟩

/-! ## The loop -/

/-- One step of an exploration: the next pair is left, or the queue is empty. -/
def explorationStep (L : System α β) (R : System α γ) (c : α) (w : List α) (P : Acceptor β)
    (Q : Acceptor γ) (E : Progress α) : Progress α ⊕ Search α (Findings α) :=
  match E.queue.pop? with
  | none => .inr (.ok E.findings)
  | some (((p, q), u), queue) =>
    match leave L R (letters L R) c w P Q p q u { E with queue } with
    | .ok E => .inl E
    | .error v => .inr (.error v)

section

variable {c : α} {w : List α} {P : Acceptor β} {Q : Acceptor γ} {E E' : Progress α}
  {left : List (Nat × Nat)}

theorem exists_of_explorationStep_eq_inl (h : explorationStep L R c w P Q E = .inl E') :
    ∃ x u queue, E.queue.pop? = some ((x, u), queue) ∧
      leave L R (letters L R) c w P Q x.1 x.2 u { E with queue } = .ok E' := by
  rw [explorationStep] at h
  split at h
  · cases h
  · next p q u queue hpop =>
    split at h
    · next hleave =>
      cases h
      exact ⟨(p, q), u, queue, hpop, hleave⟩
    · cases h

theorem exists_of_explorationStep_eq_inr {r : Search α (Findings α)}
    (h : explorationStep L R c w P Q E = .inr r) :
    E.queue.pop? = none ∧ r = .ok E.findings ∨
      ∃ x u queue v, E.queue.pop? = some ((x, u), queue) ∧ r = .error v ∧
        leave L R (letters L R) c w P Q x.1 x.2 u { E with queue } = .error v := by
  rw [explorationStep] at h
  split at h
  · next hpop =>
    cases h
    exact .inl ⟨hpop, rfl⟩
  · next p q u queue hpop =>
    split at h
    · cases h
    · next v hleave =>
      cases h
      exact .inr ⟨(p, q), u, queue, v, hpop, rfl, hleave⟩

/-- What is looked up for a letter is what the frame can do. -/
theorem advance_eq {S : System α β} {A : Acceptor β} (hS : S.procedures.get? c = some A) (p : Nat)
    (a : α) : S.advance ⟨c, p⟩ a = ((S.read a).bind (A.liveEdges p).get?).map (⟨c, ·⟩) := by
  rw [System.advance, System.procedure?, hS]
  exact congrArg (Option.map _) ((Procedure.mk A S.read).liveSuccessor_eq p a)

variable (hA : L.alphabet = R.alphabet) (hP : L.procedures.get? c = some P)
  (hQ : R.procedures.get? c = some Q)

include hA hP hQ

/-- What every visit keeps holds when a pair was left, and what makes a visit stop makes the search
stop. -/
theorem leave_outcome {p q : Nat} {u : List α} {I : List α → Progress α → Prop}
    {bad : List α → Prop}
    (keep : ∀ done a E E', I done E → Visited L R c w u p q a E E' → I (done ++ [a]) E')
    (stop : ∀ v, Stopped L R c w u p q v → bad v) (hE : I [] E) :
    Outcome (I L.alphabet.symbols) bad (leave L R (letters L R) c w P Q p q u E) := by
  rw [leave, letters, List.foldlM_map]
  refine Outcome.foldlM (fun done a E _ hE => ?_) hE
  exact (visit_outcome (advance_eq hP p a) (advance_eq hQ q a) hA).mono
    (fun E' => keep done a E E' hE) stop

theorem Frontier.leave {p q : Nat} {u : List α} (hE : Frontier P Q E left)
    (h : leave L R (letters L R) c w P Q p q u E = .ok E') : Frontier P Q E' left := by
  have hout : Outcome (fun E => Frontier P Q E left) (fun _ => True)
      (Separation.leave L R (letters L R) c w P Q p q u E) :=
    leave_outcome (I := fun _ E => Frontier P Q E left) hA hP hQ
      (fun _ _ _ _ hE h => h.frontier hP hQ hE) (fun _ _ => trivial) hE
  exact hout.of_eq_ok h

omit hA hP hQ in
theorem explorePairs_succ (n : Nat) (E : Progress α) :
    explorePairs L R (letters L R) c w P Q (n + 1) E =
      (explorationStep L R c w P Q E).elim (explorePairs L R (letters L R) c w P Q n) id := by
  rw [explorePairs, explorationStep]
  cases E.queue.pop? with
  | none => rfl
  | some x =>
    obtain ⟨⟨⟨p, q⟩, u⟩, queue⟩ := x
    cases hleave : Separation.leave L R (letters L R) c w P Q p q u { E with queue } <;>
      simp only [hleave] <;> rfl

/-- The queue runs empty before the bound on the number of steps is reached. -/
theorem stops_explorePairs_of_le {n : Nat} (hE : Frontier P Q E left)
    (hn : P.size * Q.size ≤ n + left.length) :
    Stops (explorationStep L R c w P Q) E (explorePairs L R (letters L R) c w P Q n E) := by
  apply Stops.of_budget (explorePairs L R (letters L R) c w P Q)
    (fun n E => ∃ left, Frontier P Q E left ∧ P.size * Q.size ≤ n + left.length) _ explorePairs_succ _
    ⟨left, hE, hn⟩
  · rintro E ⟨left, hE, hn⟩
    have hle := hE.length_le
    have hnil : E.queue.pop? = none := by
      rw [Queue.pop?_eq_none_iff, ← List.length_eq_zero_iff]
      omega
    rw [explorationStep, hnil]
    rfl
  · rintro n E E' ⟨left, hE, hn⟩ hstep
    obtain ⟨x, u, queue, hpop, hleave⟩ := exists_of_explorationStep_eq_inl hstep
    refine ⟨left ++ [x], (hE.pop hpop).leave hA hP hQ hleave, ?_⟩
    rw [List.length_append, List.length_singleton]
    omega

end

/-! ## What the loop finds -/

variable (L R) in
/-- Every pair of `X` is covered for all symbols. -/
def Closed (F : Findings α) (c : α) (X : Nat × Nat → Prop) : Prop :=
  ∀ x, X x → ∀ a, Covered L R F X c x.1 x.2 a

variable (L R) in
/-- The pair of the entries of a call is in a closed set. -/
def Explored (F : Findings α) (c : α) : Prop :=
  ∃ p q X, L.entry? c = some p ∧ R.entry? c = some q ∧ X (p, q) ∧ Closed L R F c X

/-- Behind an access word a separating word of the stacks separates the systems. -/
theorem Enters.exists_stacks {c : α} {w : List α} {p₀ q₀ : Nat} (hw : Enters L R c w)
    (hp : L.entry? c = some p₀) (hq : R.entry? c = some q₀) :
    ∃ fs gs, (∀ f ∈ fs, L.frameAccepts f = true) ∧ (∀ g ∈ gs, R.frameAccepts g = true) ∧
      ∀ u f g x, Together L R ⟨c, p₀⟩ ⟨c, q₀⟩ u f g →
        Separates L R (.active f fs) (.active g gs) x →
        Separates L R .initial .initial (w ++ u ++ x) := by
  obtain ⟨_, hagree, p, q, fs, gs, hp', hq', hL, hR⟩ := hw
  cases hp.symm.trans hp'
  cases hq.symm.trans hq'
  have hfs := System.settled_reached (S := L) w
  have hgs := System.settled_reached (S := R) w
  rw [hL] at hfs
  rw [hR] at hgs
  refine ⟨fs, gs, hfs, hgs, fun u f g x hu hx => ?_⟩
  rw [List.append_assoc]
  apply hagree.separates
  change Separates L R (L.reached w) (R.reached w) (u ++ x)
  rw [hL, hR]
  apply (hu.agree_above fs gs).separates
  rwa [hu.left_above, hu.right_above]

section

variable {c : α} {w : List α} {P : Acceptor β} {Q : Acceptor γ} {E E' : Progress α}
  {F : Findings α} {p₀ q₀ : Nat} {K : Nat × Nat → α → Prop}

variable (L R c F p₀ q₀) in
/-- What holds while the procedures of `c` are explored from the findings `F`. As long as nothing is
added to them, the pairs and symbols of `K` are covered. -/
structure Ongoing (K : Nat × Nat → α → Prop) (E : Progress α) : Prop where
  grown : F.Le E.findings
  sound : E.findings.Sound L R
  together : ∀ x v, (x, v) ∈ E.queue.toList →
    Together L R ⟨c, p₀⟩ ⟨c, q₀⟩ v.reverse ⟨c, x.1⟩ ⟨c, x.2⟩
  start : E.seen.contains (p₀, q₀) = true
  covered : E.findings = F → ∀ x a, K x a → Covered L R F (E.seen.contains · = true) c x.1 x.2 a

theorem Ongoing.mono {K' : Nat × Nat → α → Prop} (h : Ongoing L R c F p₀ q₀ K E)
    (hK : E.findings = F → ∀ x a, K' x a → Covered L R F (E.seen.contains · = true) c x.1 x.2 a ∨
      K x a) : Ongoing L R c F p₀ q₀ K' E where
  grown := h.grown
  sound := h.sound
  together := h.together
  start := h.start
  covered hE x a hx := (hK hE x a hx).elim id (h.covered hE x a)

variable (hA : L.alphabet = R.alphabet) (hp : L.entry? c = some p₀) (hq : R.entry? c = some q₀)
  (hw : Enters L R c w)

include hA hp hq hw

theorem Ongoing.visited {a : α} {u : List α} {p q : Nat}
    (hu : Together L R ⟨c, p₀⟩ ⟨c, q₀⟩ u.reverse ⟨c, p⟩ ⟨c, q⟩)
    (hE : Ongoing L R c F p₀ q₀ K E) (h : Visited L R c w u p q a E E') :
    Ongoing L R c F p₀ q₀ (fun x b => K x b ∨ x = (p, q) ∧ b = a) E' where
  grown := hE.grown.trans h.le
  sound := hE.sound.visited hA hp hq hu hw h
  together x v hx := (h.together_of_mem hA hu hE.sound hx).elim (hE.together x v) id
  start := h.seen_mono hE.start
  covered hF x b hx := by
    have hE' : E.findings = F := (h.le.trans (hF ▸ .refl _)).antisymm hE.grown
    rcases hx with hx | ⟨rfl, rfl⟩
    · exact (hE.covered hE' x b hx).mono fun _ => h.seen_mono
    · exact hF ▸ h.covered

variable (hP : L.procedures.get? c = some P) (hQ : R.procedures.get? c = some Q)

include hP hQ

theorem Ongoing.leave_outcome {p q : Nat} {u : List α}
    (hu : Together L R ⟨c, p₀⟩ ⟨c, q₀⟩ u.reverse ⟨c, p⟩ ⟨c, q⟩)
    (hE : Ongoing L R c F p₀ q₀ K E) :
    Outcome (Ongoing L R c F p₀ q₀ fun x b => K x b ∨ x = (p, q))
      (Separates L R .initial .initial) (leave L R (letters L R) c w P Q p q u E) := by
  have keep : ∀ done a E E',
      Ongoing L R c F p₀ q₀ (fun x b => K x b ∨ x = (p, q) ∧ b ∈ done) E →
      Visited L R c w u p q a E E' →
      Ongoing L R c F p₀ q₀ (fun x b => K x b ∨ x = (p, q) ∧ b ∈ done ++ [a]) E' := by
    intro done a E E' hE h
    refine (hE.visited hA hp hq hw hu h).mono fun _ x b hx => .inr ?_
    rcases hx with hx | ⟨hx, hb⟩
    · exact .inl (.inl hx)
    · rcases List.mem_append.1 hb with hb | hb
      · exact .inl (.inr ⟨hx, hb⟩)
      · exact .inr ⟨hx, List.mem_singleton.1 hb⟩
  have stop : ∀ v, Stopped L R c w u p q v → Separates L R .initial .initial v := by
    intro v h
    obtain ⟨fs, gs, hfs, hgs, hsep⟩ := hw.exists_stacks hp hq
    obtain ⟨x, rfl, hx⟩ := h
    exact hsep _ _ _ _ hu (hx hu.last fs gs hfs hgs)
  have start : Ongoing L R c F p₀ q₀ (fun x b => K x b ∨ x = (p, q) ∧ b ∈ []) E :=
    hE.mono fun _ x b hx => .inr (hx.resolve_right fun h => List.not_mem_nil h.2)
  refine (Separation.leave_outcome hA hP hQ keep stop start).mono
    (fun E' hE' => hE'.mono fun _ x b hx => ?_) fun _ h => h
  rcases hx with hx | hx
  · exact .inr (.inl hx)
  · by_cases hb : b ∈ L.alphabet.symbols
    · exact .inr (.inr ⟨hx, hb⟩)
    · exact .inl (.of_not_mem hA hb)

omit hA hp hq hw hP hQ

variable (L R P Q c F p₀ q₀) in
/-- The invariant of the exploration: the pairs that were left are covered. -/
structure Exploring (left : List (Nat × Nat)) (E : Progress α) : Prop
    extends Ongoing L R c F p₀ q₀ (fun x _ => x ∈ left) E where
  frontier : Frontier P Q E left

namespace Exploring

variable {left : List (Nat × Nat)} {x : Nat × Nat} {u : List α} {queue : Queue ((Nat × Nat) × List α)}

include hp hq hw in
theorem init (hF : F.Sound L R) (hlt : p₀ < P.size) (hlt' : q₀ < Q.size) :
    Exploring L R c P Q F p₀ q₀ [] (.start F (p₀, q₀)) where
  grown := .refl F
  sound := hF
  together x v hx := by
    cases (List.mem_singleton.1 hx : (x, v) = ((p₀, q₀), []))
    obtain ⟨_, hagree, p, q, fs, gs, hp', hq', hL, hR⟩ := hw
    cases hp.symm.trans hp'
    cases hq.symm.trans hq'
    have hlast := hagree.last
    change L.isAccepting (L.reached w) = R.isAccepting (R.reached w) at hlast
    rw [hL, hR] at hlast
    exact .refl hlast
  start := by simp [Progress.start]
  covered _ x _ hx := absurd hx List.not_mem_nil
  frontier := .start hlt hlt'

/-- The next pair is taken out of the queue. -/
theorem pop (h : Exploring L R c P Q F p₀ q₀ left E) (hpop : E.queue.pop? = some ((x, u), queue)) :
    Frontier P Q { E with queue } (left ++ [x]) ∧
      Ongoing L R c F p₀ q₀ (fun x _ => x ∈ left) { E with queue } ∧
      Together L R ⟨c, p₀⟩ ⟨c, q₀⟩ u.reverse ⟨c, x.1⟩ ⟨c, x.2⟩ := by
  have hlist := Queue.toList_of_pop? hpop
  refine ⟨h.frontier.pop hpop, ?_, h.together x u (hlist ▸ List.mem_cons_self)⟩
  exact ⟨h.grown, h.sound, fun y v hy => h.together y v (hlist ▸ List.mem_cons_of_mem _ hy), h.start,
    h.covered⟩

include hA hp hq hw hP hQ in
theorem step (h : Exploring L R c P Q F p₀ q₀ left E)
    (hstep : explorationStep L R c w P Q E = .inl E') :
    ∃ left', Exploring L R c P Q F p₀ q₀ left' E' := by
  obtain ⟨x, u, queue, hpop, hleave⟩ := exists_of_explorationStep_eq_inl hstep
  obtain ⟨hfront, hongoing, hu⟩ := h.pop hpop
  have hleft := (hongoing.leave_outcome hA hp hq hw hP hQ hu).of_eq_ok hleave
  refine ⟨left ++ [x], hleft.mono fun _ y b hy => .inr ?_, hfront.leave hA hP hQ hleave⟩
  simpa using hy

include hp hq in
/-- If the queue is empty and nothing was found, the call is explored. -/
theorem explored (h : Exploring L R c P Q F p₀ q₀ left E) (hpop : E.queue.pop? = none)
    (hfound : E.findings = F) : Explored L R F c := by
  refine ⟨p₀, q₀, (E.seen.contains · = true), hp, hq, h.start, fun x hx a => ?_⟩
  apply h.covered hfound x a
  have hmem := (h.frontier.seen_iff x).1 hx
  rwa [Queue.pop?_eq_none_iff.1 hpop, List.map_nil, List.append_nil] at hmem

end Exploring

variable (L R) in
/-- What is found from the findings `F` by exploring the calls `cs`. If that is nothing, they are
explored. -/
structure Explores (F : Findings α) (cs : List α) (G : Findings α) : Prop where
  sound : G.Sound L R
  grown : F.Le G
  explored : G = F → ∀ c ∈ cs, Explored L R F c

theorem Explores.refl {F : Findings α} (hF : F.Sound L R) : Explores L R F [] F where
  sound := hF
  grown := .refl F
  explored _ _ hc := absurd hc List.not_mem_nil

theorem Explores.append {F G H : Findings α} {cs ds : List α} (h : Explores L R F cs G)
    (h' : Explores L R G ds H) : Explores L R F (cs ++ ds) H where
  sound := h'.sound
  grown := h.grown.trans h'.grown
  explored heq c hc := by
    -- what was added to the findings is not taken away again
    have hGF : G = F := (h'.grown.trans (heq ▸ .refl _)).antisymm h.grown
    rcases List.mem_append.1 hc with hc | hc
    · exact h.explored hGF c hc
    · exact hGF ▸ h'.explored (heq.trans hGF.symm) c hc

include hA hp hq hw hP hQ

/-- The exploration finds a separating word, or what it finds is sound. If it finds nothing, the call is
explored. -/
theorem explorePairs_outcome (hF : F.Sound L R) (hlt : p₀ < P.size) (hlt' : q₀ < Q.size) :
    Outcome (Explores L R F [c]) (Separates L R .initial .initial)
      (explorePairs L R (letters L R) c w P Q (P.size * Q.size) (.start F (p₀, q₀))) := by
  have hstops := stops_explorePairs_of_le (n := P.size * Q.size) (w := w) hA hP hQ
    (.start (F := F) hlt hlt') (Nat.le_add_right ..)
  have keep : ∀ E E', (∃ left, Exploring L R c P Q F p₀ q₀ left E) →
      explorationStep L R c w P Q E = .inl E' → ∃ left, Exploring L R c P Q F p₀ q₀ left E' := by
    intro E E' hE hstep
    obtain ⟨left, hE⟩ := hE
    exact hE.step hA hp hq hw hP hQ hstep
  obtain ⟨E, ⟨left, hE⟩, hres⟩ := hstops.exists_last keep ⟨[], .init hp hq hw hF hlt hlt'⟩
  rcases exists_of_explorationStep_eq_inr hres with ⟨hpop, hr⟩ | ⟨x, u, queue, v, hpop, hr, hleave⟩
  · rw [hr]
    refine ⟨hE.sound, hE.grown, fun hfound d hd => ?_⟩
    obtain rfl := List.mem_singleton.1 hd
    exact hE.explored hp hq hpop hfound
  · rw [hr]
    obtain ⟨_, hongoing, hu⟩ := hE.pop hpop
    exact (hongoing.leave_outcome hA hp hq hw hP hQ hu).of_eq_error hleave

end

end BehavioralAutomata.Separation
