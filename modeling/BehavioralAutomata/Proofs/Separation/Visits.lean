import BehavioralAutomata.Proofs.Outcomes
import BehavioralAutomata.Proofs.Separation.Agreement

/-!
# One step of an exploration

What a visit of a symbol from a pair of states does, in terms of the two systems.

* `Separation.Visited`: the ways in which a visit goes on.
* `Separation.Stopped`: what a visit that stops has found.
* `Separation.visit_outcome`: a visit does one of both.
-/

namespace BehavioralAutomata.Separation

variable {α β γ : Type} [DecidableEq α] [DecidableEq β] [DecidableEq γ]
  {L : System α β} {R : System α γ}

omit [DecidableEq β] in
theorem entryVerdict?_eq (S : System α β) (c : α) :
    entryVerdict? S c = (S.entry? c).map fun q => S.frameAccepts ⟨c, q⟩ := by
  rw [entryVerdict?, System.entry?]
  cases h : S.procedure? c with
  | none => rfl
  | some P => cases hq : P.start <;> simp [System.frameAccepts, h, hq]

variable (L R) in
/-- One system does not survive, and the other one never accepts again. -/
def Barred (c d : Configuration α) : Prop :=
  (c = .dead ∧ R.Lost d) ∨ (d = .dead ∧ L.Lost c)

theorem Barred.dead : Barred L R .dead .dead := .inl ⟨rfl, R.lost_dead⟩

variable (L R) in
/-- What a visit makes of `E`, from the states `p` and `q` of the procedures of `c` on the symbol `a`,
where `w` enters the call and `u` leads to the states. -/
inductive Visited (c : α) (w u : List α) (p q : Nat) (a : α) (E : Progress α) :
    Progress α → Prop where
  | barred (h : ∀ fs gs, Barred L R (L.step (.active ⟨c, p⟩ fs) a) (R.step (.active ⟨c, q⟩ gs) a)) :
      Visited c w u p q a E E
  | internal {p' q' : Nat} (kind : L.alphabet.kind? a = some .internal)
      (left : L.advance ⟨c, p⟩ a = some ⟨c, p'⟩) (right : R.advance ⟨c, q⟩ a = some ⟨c, q'⟩) :
      Visited c w u p q a E (E.push (p', q') (a :: u))
  | ret {p' q' : Nat} (kind : a = L.alphabet.ret)
      (left : L.advance ⟨c, p⟩ a = some ⟨c, p'⟩) (right : R.advance ⟨c, q⟩ a = some ⟨c, q'⟩) :
      Visited c w u p q a E
        { E with findings.terminating := E.findings.terminating.insertNew c u.reverse }
  | enter {p' q' e k : Nat} (kind : L.alphabet.kind? a = some .call)
      (left : L.advance ⟨c, p⟩ a = some ⟨c, p'⟩) (right : R.advance ⟨c, q⟩ a = some ⟨c, q'⟩)
      (leftEntry : L.entry? a = some e) (rightEntry : R.entry? a = some k)
      (verdict : L.frameAccepts ⟨a, e⟩ = R.frameAccepts ⟨a, k⟩)
      (unknown : E.findings.terminating.get? a = none) :
      Visited c w u p q a E { E with
        findings.access := E.findings.access.insertNew a (w ++ u.reverse ++ [a]) }
  | skip {p' q' e k : Nat} {t : List α} (kind : L.alphabet.kind? a = some .call)
      (left : L.advance ⟨c, p⟩ a = some ⟨c, p'⟩) (right : R.advance ⟨c, q⟩ a = some ⟨c, q'⟩)
      (leftEntry : L.entry? a = some e) (rightEntry : R.entry? a = some k)
      (verdict : L.frameAccepts ⟨a, e⟩ = R.frameAccepts ⟨a, k⟩)
      (known : E.findings.terminating.get? a = some t) :
      Visited c w u p q a E (Progress.push { E with
        findings.access := E.findings.access.insertNew a (w ++ u.reverse ++ [a]) }
          (p', q') (L.alphabet.ret :: t.reverseAux (a :: u)))

/-- A call that only one system survives, behind the test whether its procedure comes back to acceptance. -/
theorem oneSided_outcome {δ : Type} {S : System α β} {w : List α} {a : α} {x : δ} {good : δ → Prop}
    {bad : List α → Prop} (hok : S.revival? a = none → good x)
    (herror : ∀ v, S.revival? a = some v → bad (w ++ a :: v)) :
    Outcome good bad (do oneSided S w a; .ok x) := by
  simp only [oneSided]
  split
  · next v hv => exact herror v hv
  · next hn => exact hok hn

/-- The verdict on the entry of the call `a`, if the frame `f` can call it. -/
def callVerdict? (S : System α β) (f : Frame α) (a : α) : Option Bool :=
  (S.advance f a).bind fun _ => entryVerdict? S a

theorem callVerdict?_eq_some {S : System α β} {f : Frame α} {a : α} {v : Bool}
    (h : callVerdict? S f a = some v) : ∃ g q, S.advance f a = some g ∧ S.entry? a = some q ∧
      S.frameAccepts ⟨a, q⟩ = v := by
  obtain ⟨g, hg, h⟩ := Option.bind_eq_some_iff.1 h
  rw [entryVerdict?_eq] at h
  obtain ⟨q, hq, hv⟩ := Option.map_eq_some_iff.1 h
  exact ⟨g, q, hg, hq, hv⟩

theorem step_of_callVerdict? {S : System α β} {f : Frame α} {a : α}
    (ha : S.alphabet.kind? a = some .call) (h : callVerdict? S f a = none) (fs : List (Frame α)) :
    S.step (.active f fs) a = .dead := by
  cases hm : S.advance f a with
  | none => exact System.step_eq_dead hm fs
  | some g =>
    rw [callVerdict?, hm, Option.bind_some, entryVerdict?_eq, Option.map_eq_none_iff] at h
    simp [System.step, ha, h]

theorem lost_of_callVerdict? {S : System α β} {f : Frame α} {a : α} {v : Bool}
    (ha : S.alphabet.kind? a = some .call) (h : callVerdict? S f a = some v)
    (hr : S.revival? a = none) (fs : List (Frame α)) : S.Lost (S.step (.active f fs) a) := by
  obtain ⟨g, q, hg, hq, _⟩ := callVerdict?_eq_some h
  rw [System.step_call ha hq hg]
  exact System.lost_of_revival?_eq_none hr hq _

/-! ## What a step says -/

theorem isAccepting_step_call {S : System α β} {a : α} (ha : S.alphabet.kind? a = some .call)
    (f : Frame α) (fs : List (Frame α)) :
    S.isAccepting (S.step (.active f fs) a) = (callVerdict? S f a).getD false := by
  cases hv : callVerdict? S f a with
  | none =>
    rw [step_of_callVerdict? ha hv]
    rfl
  | some v =>
    obtain ⟨g, q, hg, hq, rfl⟩ := callVerdict?_eq_some hv
    rw [System.step_call ha hq hg]
    rfl

theorem isAccepting_step_of_advance {S : System α β} {f g : Frame α} {fs : List (Frame α)} {a : α}
    (ha : S.alphabet.kind? a = some .internal ∨ S.alphabet.kind? a = some .ret)
    (h : S.advance f a = some g) (hfs : ∀ k ∈ fs, S.frameAccepts k = true) :
    S.isAccepting (S.step (.active f fs) a) = true := by
  rcases ha with ha | ha
  · rw [System.step_internal ha h]
    exact System.frameAccepts_advance h
  · obtain rfl := Alphabet.kind?_eq_ret_iff.1 ha
    rw [System.step_ret h]
    exact System.isAccepting_of_ret hfs

/-- A call that only one system survives separates if its procedure comes back to acceptance. -/
theorem revives_step {S : System α β} {f : Frame α} {fs : List (Frame α)} {a : α} {v : Bool}
    {x : List α} (ha : S.alphabet.kind? a = some .call) (hv : callVerdict? S f a = some v)
    (hx : S.revival? a = some x) (hfs : ∀ k ∈ fs, S.frameAccepts k = true) :
    S.Revives (S.step (.active f fs) a) x := by
  obtain ⟨g, q, hg, hq, _⟩ := callVerdict?_eq_some hv
  obtain ⟨q', hq', hr⟩ := System.revives_of_revival? hx
  cases hq.symm.trans hq'
  rw [System.step_call ha hq hg]
  apply hr _
  intro k hk
  rcases List.mem_cons.1 hk with rfl | hk
  · exact System.frameAccepts_advance hg
  · exact hfs k hk

/-! ## Visits -/

variable (L R) in
/-- A visit that stops with `v` has found a word that separates the systems behind the words that it was
given. -/
def Stopped (c : α) (w u : List α) (p q : Nat) (v : List α) : Prop :=
  ∃ x, v = w ++ u.reverse ++ x ∧ (L.frameAccepts ⟨c, p⟩ = R.frameAccepts ⟨c, q⟩ →
    ∀ fs gs, (∀ f ∈ fs, L.frameAccepts f = true) → (∀ g ∈ gs, R.frameAccepts g = true) →
      Separates L R (.active ⟨c, p⟩ fs) (.active ⟨c, q⟩ gs) x)

theorem stopped_singleton {c a : α} {w u : List α} {p q : Nat}
    (h : ∀ fs gs, (∀ f ∈ fs, L.frameAccepts f = true) → (∀ g ∈ gs, R.frameAccepts g = true) →
      L.isAccepting (L.step (.active ⟨c, p⟩ fs) a) ≠ R.isAccepting (R.step (.active ⟨c, q⟩ gs) a)) :
    Stopped L R c w u p q (w ++ u.reverse ++ [a]) :=
  ⟨[a], rfl, fun hv fs gs hfs hgs => .cons hv (.nil (h fs gs hfs hgs))⟩

section

variable {c a : α} {w u : List α} {p q : Nat} {E : Progress α}

/-- Only the left system survives the call. -/
theorem visit_left_outcome {v : Bool} (hk : L.alphabet.kind? a = some .call)
    (hv : callVerdict? L ⟨c, p⟩ a = some v)
    (hdead : ∀ gs, R.step (.active ⟨c, q⟩ gs) a = .dead) :
    Outcome (Visited L R c w u p q a E) (Stopped L R c w u p q)
      (do oneSided L (w ++ u.reverse) a; .ok E) := by
  refine oneSided_outcome (fun hn => ?_) fun x hx => ?_
  · exact .barred fun fs gs => .inr ⟨hdead gs, lost_of_callVerdict? hk hv hn fs⟩
  · refine ⟨a :: x, rfl, fun hagree fs gs hfs _ => .cons hagree ?_⟩
    rw [hdead]
    exact .of_revives (revives_step hk hv hx hfs)

/-- Only the right system survives the call. -/
theorem visit_right_outcome {v : Bool} (hk : R.alphabet.kind? a = some .call)
    (hv : callVerdict? R ⟨c, q⟩ a = some v)
    (hdead : ∀ fs, L.step (.active ⟨c, p⟩ fs) a = .dead) :
    Outcome (Visited L R c w u p q a E) (Stopped L R c w u p q)
      (do oneSided R (w ++ u.reverse) a; .ok E) := by
  refine oneSided_outcome (fun hn => ?_) fun x hx => ?_
  · exact .barred fun fs gs => .inl ⟨hdead fs, lost_of_callVerdict? hk hv hn gs⟩
  · refine ⟨a :: x, rfl, fun hagree fs gs _ hgs => .cons hagree (.symm ?_)⟩
    rw [hdead]
    exact .of_revives (revives_step hk hv hx hgs)

variable {l r : Option Nat} (hl : L.advance ⟨c, p⟩ a = l.map (⟨c, ·⟩))
  (hr : R.advance ⟨c, q⟩ a = r.map (⟨c, ·⟩))

include hl hr

theorem barred_of_none (h : l = none) (h' : r = none) (fs gs : List (Frame α)) :
    Barred L R (L.step (.active ⟨c, p⟩ fs) a) (R.step (.active ⟨c, q⟩ gs) a) := by
  subst h h'
  rw [System.step_eq_dead hl, System.step_eq_dead hr]
  exact .dead

/-- Only one of the frames can move, and the verdict on it is that it accepts. -/
theorem stopped_of_isSome_ne
    (hk : L.alphabet.kind? a = some .internal ∨ L.alphabet.kind? a = some .ret)
    (hk' : R.alphabet.kind? a = some .internal ∨ R.alphabet.kind? a = some .ret)
    (hne : l.isSome ≠ r.isSome) : Stopped L R c w u p q (w ++ u.reverse ++ [a]) := by
  apply stopped_singleton
  intro fs gs hfs hgs
  cases l with
  | none =>
    cases r with
    | none => exact absurd rfl hne
    | some q' =>
      rw [System.step_eq_dead hl, isAccepting_step_of_advance hk' hr hgs]
      exact Bool.false_ne_true
  | some p' =>
    cases r with
    | none =>
      rw [System.step_eq_dead hr, isAccepting_step_of_advance hk hl hfs]
      exact Bool.false_ne_true.symm
    | some q' => exact absurd rfl hne

theorem visit_call_outcome (hk : L.alphabet.kind? a = some .call)
    (hk' : R.alphabet.kind? a = some .call) :
    Outcome (Visited L R c w u p q a E) (Stopped L R c w u p q) (visit L R c w u E a l r) := by
  have hlv : l.bind (fun _ => entryVerdict? L a) = callVerdict? L ⟨c, p⟩ a := by
    rw [callVerdict?, hl]; cases l <;> rfl
  have hrv : r.bind (fun _ => entryVerdict? R a) = callVerdict? R ⟨c, q⟩ a := by
    rw [callVerdict?, hr]; cases r <;> rfl
  unfold visit
  split
  · exact Visited.barred (barred_of_none hl hr rfl rfl)
  simp only [hk, hlv, hrv]
  split
  · next hne =>
    apply stopped_singleton
    intro fs gs _ _
    rw [isAccepting_step_call hk, isAccepting_step_call hk']
    exact bne_iff_ne.1 hne
  next hne =>
  cases hcl : callVerdict? L ⟨c, p⟩ a with
  | none =>
    have hdead := step_of_callVerdict? hk hcl
    cases hcr : callVerdict? R ⟨c, q⟩ a with
    | none =>
      simp only
      apply Visited.barred
      intro fs gs
      rw [hdead, step_of_callVerdict? hk' hcr]
      exact .dead
    | some v =>
      simp only
      exact visit_right_outcome hk' hcr hdead
  | some v =>
    cases hcr : callVerdict? R ⟨c, q⟩ a with
    | none =>
      simp only
      exact visit_left_outcome hk hcl (step_of_callVerdict? hk' hcr)
    | some v' =>
      obtain ⟨f, e, hf, he, rfl⟩ := callVerdict?_eq_some hcl
      obtain ⟨g, k, hg, hk', rfl⟩ := callVerdict?_eq_some hcr
      have hv : L.frameAccepts ⟨a, e⟩ = R.frameAccepts ⟨a, k⟩ := by simpa [hcl, hcr] using hne
      cases l with
      | none => cases hl.symm.trans hf
      | some p' =>
        cases r with
        | none => cases hr.symm.trans hg
        | some q' =>
          simp only
          split
          · next t ht => exact Visited.skip hk hl hr he hk' hv ht
          · next ht => exact Visited.enter hk hl hr he hk' hv ht

/-- A visit goes on in one of the ways that `Visited` lists, or it has found a separating word. -/
theorem visit_outcome (hA : L.alphabet = R.alphabet) :
    Outcome (Visited L R c w u p q a E) (Stopped L R c w u p q) (visit L R c w u E a l r) := by
  cases hk : L.alphabet.kind? a with
  | none =>
    have hvisit : visit L R c w u E a l r = .ok E := by cases l <;> cases r <;> simp [visit, hk]
    rw [hvisit]
    apply Visited.barred
    intro fs gs
    simp only [System.step, hk, hA ▸ hk]
    exact .dead
  | some k =>
    cases k with
    | call => exact visit_call_outcome hl hr hk (hA ▸ hk)
    | internal =>
      have hne := stopped_of_isSome_ne (w := w) (u := u) hl hr (.inl hk) (.inl (hA ▸ hk))
      rcases l with _ | p' <;> rcases r with _ | q' <;> simp only [visit, hk]
      · exact Visited.barred (barred_of_none hl hr rfl rfl)
      · exact hne (by simp)
      · exact hne (by simp)
      · exact Visited.internal hk hl hr
    | ret =>
      have hne := stopped_of_isSome_ne (w := w) (u := u) hl hr (.inr hk) (.inr (hA ▸ hk))
      rcases l with _ | p' <;> rcases r with _ | q' <;> simp only [visit, hk]
      · exact Visited.barred (barred_of_none hl hr rfl rfl)
      · exact hne (by simp)
      · exact hne (by simp)
      · exact Visited.ret (Alphabet.kind?_eq_ret_iff.1 hk) hl hr

end

end BehavioralAutomata.Separation
