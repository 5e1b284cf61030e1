import BehavioralAutomata.Proofs.Separation.Visits

/-!
# What an exploration finds

* `Separation.Findings.Sound`: the words that are found do what they are found for.
  `Findings.Sound.visited` says that a visit keeps this.
* `Separation.Covered`: a pair of states needs no further visit of a symbol. `Visited.covered` says that
  a visit makes it so, and `Covered.mono` that it stays so as long as nothing new is found.
-/

namespace BehavioralAutomata.Separation

variable {α β γ : Type} [DecidableEq α] [DecidableEq β] [DecidableEq γ]
  {L : System α β} {R : System α γ}

/-! ## Growth -/

/-- Nothing is forgotten or replaced. -/
structure Findings.Le (F G : Findings α) : Prop where
  access : F.access.entries <+: G.access.entries
  terminating : F.terminating.entries <+: G.terminating.entries

namespace Findings.Le

variable {F G H : Findings α}

omit [DecidableEq α] in
theorem refl (F : Findings α) : F.Le F := ⟨List.prefix_rfl, List.prefix_rfl⟩

omit [DecidableEq α] in
theorem trans (h : F.Le G) (h' : G.Le H) : F.Le H :=
  ⟨h.access.trans h'.access, h.terminating.trans h'.terminating⟩

omit [DecidableEq α] in
theorem eq_of_size (h : F.Le G) (ha : G.access.size = F.access.size)
    (ht : G.terminating.size = F.terminating.size) : F = G := by
  have hacc := AssocMap.eq_of_prefix h.access ha
  have hterm := AssocMap.eq_of_prefix h.terminating ht
  cases F
  cases G
  cases hacc
  cases hterm
  rfl

omit [DecidableEq α] in
theorem antisymm (h : F.Le G) (h' : G.Le F) : F = G :=
  h.eq_of_size (Nat.le_antisymm h'.access.length_le h.access.length_le)
    (Nat.le_antisymm h'.terminating.length_le h.terminating.length_le)

end Findings.Le

/-! ## Words that are found -/

variable (L R) in
/-- The word `w` leads both systems to the entry of the call `c`, with equal verdicts on the way. -/
def Enters (c : α) (w : List α) : Prop :=
  L.alphabet.kind? c = some .call ∧ Agree L R .initial .initial w ∧
    ∃ p q fs gs, L.entry? c = some p ∧ R.entry? c = some q ∧
      L.reached w = .active ⟨c, p⟩ fs ∧ R.reached w = .active ⟨c, q⟩ gs

variable (L R) in
/-- The words that are found do what they are found for. -/
structure Findings.Sound (F : Findings α) : Prop where
  access : ∀ c w, F.access.get? c = some w → Enters L R c w
  terminating : ∀ c t, F.terminating.get? c = some t →
    L.alphabet.kind? c = some .call ∧ Ends L R c t

theorem Enters.call (hA : L.alphabet = R.alphabet) {c a : α} {w u : List α}
    {p₀ q₀ p q p' q' e k : Nat} (hw : Enters L R c w) (hp : L.entry? c = some p₀)
    (hq : R.entry? c = some q₀)
    (hu : Together L R ⟨c, p₀⟩ ⟨c, q₀⟩ u ⟨c, p⟩ ⟨c, q⟩)
    (ha : L.alphabet.kind? a = some .call) (hl : L.advance ⟨c, p⟩ a = some ⟨c, p'⟩)
    (hr : R.advance ⟨c, q⟩ a = some ⟨c, q'⟩) (he : L.entry? a = some e) (hk : R.entry? a = some k)
    (hv : L.frameAccepts ⟨a, e⟩ = R.frameAccepts ⟨a, k⟩) : Enters L R a (w ++ u ++ [a]) := by
  obtain ⟨_, hagree, p₁, q₁, fs, gs, hp₁, hq₁, hL, hR⟩ := hw
  cases hp.symm.trans hp₁
  cases hq.symm.trans hq₁
  have hL' : L.run .initial w = .active ⟨c, p₀⟩ fs := hL
  have hR' : R.run .initial w = .active ⟨c, q₀⟩ gs := hR
  have hstep := System.step_call ha he hl fs
  have hstep' := System.step_call (hA ▸ ha) hk hr gs
  refine ⟨ha, ?_, e, k, ⟨c, p'⟩ :: fs, ⟨c, q'⟩ :: gs, he, hk, ?_, ?_⟩
  · rw [List.append_assoc]
    apply hagree.append
    rw [hL', hR']
    apply (hu.agree_above fs gs).append
    rw [hu.left_above, hu.right_above]
    refine .cons hu.last ?_
    rw [hstep, hstep']
    exact .nil hv
  · rw [System.reached, System.run_append, System.run_append, hL', hu.left_above]
    exact hstep
  · rw [System.reached, System.run_append, System.run_append, hR', hu.right_above]
    exact hstep'

section

variable {c a : α} {w u : List α} {p₀ q₀ p q : Nat} {E E' : Progress α}

omit [DecidableEq α] in
theorem Progress.findings_push (E : Progress α) (x : Nat × Nat) (v : List α) :
    (E.push x v).findings = E.findings := by
  rw [Progress.push]
  split <;> rfl

theorem Visited.le (h : Visited L R c w u p q a E E') : E.findings.Le E'.findings := by
  cases h with
  | barred _ => exact .refl _
  | internal _ _ _ =>
    rw [Progress.findings_push]
    exact .refl _
  | ret _ _ _ => exact ⟨List.prefix_rfl, AssocMap.entries_prefix_insertNew ..⟩
  | enter _ _ _ _ _ _ _ => exact ⟨AssocMap.entries_prefix_insertNew .., List.prefix_rfl⟩
  | skip _ _ _ _ _ _ _ =>
    rw [Progress.findings_push]
    exact ⟨AssocMap.entries_prefix_insertNew .., List.prefix_rfl⟩

theorem Findings.Sound.insert_access {F : Findings α} (hF : F.Sound L R) (h : Enters L R a w) :
    Findings.Sound L R { F with access := F.access.insertNew a w } where
  access d v hd := by
    rcases AssocMap.of_get?_insertNew hd with hd | ⟨rfl, rfl⟩
    · exact hF.access d v hd
    · exact h
  terminating := hF.terminating

theorem Findings.Sound.insert_terminating {F : Findings α} {t : List α} (hF : F.Sound L R)
    (hc : L.alphabet.kind? c = some .call) (h : Ends L R c t) :
    Findings.Sound L R { F with terminating := F.terminating.insertNew c t } where
  access := hF.access
  terminating d v hd := by
    rcases AssocMap.of_get?_insertNew hd with hd | ⟨rfl, rfl⟩
    · exact hF.terminating d v hd
    · exact ⟨hc, h⟩

variable (hA : L.alphabet = R.alphabet) (hp : L.entry? c = some p₀) (hq : R.entry? c = some q₀)
  (hu : Together L R ⟨c, p₀⟩ ⟨c, q₀⟩ u.reverse ⟨c, p⟩ ⟨c, q⟩)

include hA hp hq hu

theorem Findings.Sound.visited (hw : Enters L R c w) (hE : E.findings.Sound L R)
    (h : Visited L R c w u p q a E E') : E'.findings.Sound L R := by
  cases h with
  | barred _ => exact hE
  | internal _ _ _ =>
    rw [Progress.findings_push]
    exact hE
  | ret hk hl hr =>
    subst hk
    exact hE.insert_terminating hw.1 ⟨_, _, _, _, _, _, hp, hq, hu, hl, hA ▸ hr⟩
  | enter hk hl hr he hk' hv _ => exact hE.insert_access (hw.call hA hp hq hu hk hl hr he hk' hv)
  | skip hk hl hr he hk' hv _ =>
    rw [Progress.findings_push]
    exact hE.insert_access (hw.call hA hp hq hu hk hl hr he hk' hv)

omit hp hq in
/-- The words that a visit puts into the queue lead both procedures to the pairs that they stand
with. -/
theorem Visited.together_of_mem (hE : E.findings.Sound L R) (h : Visited L R c w u p q a E E')
    {x : Nat × Nat} {v : List α} (hx : (x, v) ∈ E'.queue.toList) : (x, v) ∈ E.queue.toList ∨
      Together L R ⟨c, p₀⟩ ⟨c, q₀⟩ v.reverse ⟨c, x.1⟩ ⟨c, x.2⟩ := by
  have pushed : ∀ (D : Progress α) y z, (x, v) ∈ (D.push y z).queue.toList →
      (x, v) ∈ D.queue.toList ∨ (x, v) = (y, z) := by
    intro D y z hx
    rw [Progress.push] at hx
    split at hx
    · exact .inl hx
    · simpa using hx
  cases h with
  | barred _ => exact .inl hx
  | ret _ _ _ => exact .inl hx
  | enter _ _ _ _ _ _ _ => exact .inl hx
  | internal hk hl hr =>
    rcases pushed _ _ _ hx with hx | hx
    · exact .inl hx
    · cases hx
      rw [List.reverse_cons]
      exact .inr (hu.trans (.internal hu.last hk (hA ▸ hk) hl hr))
  | @skip p' q' e k t hk hl hr he hk' hv ht =>
    rcases pushed _ _ _ hx with hx | hx
    · exact .inl hx
    · cases hx
      have : (L.alphabet.ret :: t.reverseAux (a :: u)).reverse =
          u.reverse ++ (a :: t ++ [L.alphabet.ret]) := by
        simp [List.reverseAux_eq]
      rw [this]
      exact .inr (hu.trans (.invocation hu.last hA hk (hE.terminating a t ht).2 hl hr))

end

/-! ## Pairs that need no further visit -/

variable (L R) in
/-- The symbol `a` leads from the states `p` and `q` of the procedures of `c` to nothing that is not
in `X` or found. -/
inductive Covered (F : Findings α) (X : Nat × Nat → Prop) (c : α) (p q : Nat) (a : α) : Prop where
  | barred (h : ∀ fs gs, Barred L R (L.step (.active ⟨c, p⟩ fs) a) (R.step (.active ⟨c, q⟩ gs) a))
  | internal {p' q' : Nat} (kind : L.alphabet.kind? a = some .internal)
      (left : L.advance ⟨c, p⟩ a = some ⟨c, p'⟩) (right : R.advance ⟨c, q⟩ a = some ⟨c, q'⟩)
      (mem : X (p', q'))
  | ret {p' q' : Nat} (kind : a = L.alphabet.ret)
      (left : L.advance ⟨c, p⟩ a = some ⟨c, p'⟩) (right : R.advance ⟨c, q⟩ a = some ⟨c, q'⟩)
      (known : c ∈ F.terminating.keys)
  | call {p' q' e k : Nat} (kind : L.alphabet.kind? a = some .call)
      (left : L.advance ⟨c, p⟩ a = some ⟨c, p'⟩) (right : R.advance ⟨c, q⟩ a = some ⟨c, q'⟩)
      (leftEntry : L.entry? a = some e) (rightEntry : R.entry? a = some k)
      (known : a ∈ F.access.keys) (mem : a ∈ F.terminating.keys → X (p', q'))

theorem Covered.mono {F : Findings α} {X Y : Nat × Nat → Prop} {c a : α} {p q : Nat}
    (h : Covered L R F X c p q a) (hXY : ∀ x, X x → Y x) : Covered L R F Y c p q a := by
  cases h with
  | barred h => exact .barred h
  | internal hk hl hr hx => exact .internal hk hl hr (hXY _ hx)
  | ret hk hl hr hc => exact .ret hk hl hr hc
  | call hk hl hr he hk' ha hx => exact .call hk hl hr he hk' ha fun h => hXY _ (hx h)

/-- A symbol outside the alphabet leads nowhere. -/
theorem Covered.of_not_mem (hA : L.alphabet = R.alphabet) {F : Findings α} {X : Nat × Nat → Prop}
    {c a : α} {p q : Nat} (ha : a ∉ L.alphabet.symbols) : Covered L R F X c p q a := by
  have hk : L.alphabet.kind? a = none := by
    rw [Alphabet.mem_symbols_iff_exists] at ha
    exact Option.eq_none_iff_forall_ne_some.2 fun k hk => ha ⟨k, hk⟩
  have hk' : R.alphabet.kind? a = none := hA ▸ hk
  refine .barred fun fs gs => ?_
  simp only [System.step, hk, hk']
  exact .dead

section

variable {c a : α} {w u : List α} {p q : Nat} {E E' : Progress α}

omit [DecidableEq α] in
theorem Progress.seen_push (E : Progress α) (x : Nat × Nat) (v : List α) (y : Nat × Nat) :
    (E.push x v).seen.contains y = true ↔ y = x ∨ E.seen.contains y = true := by
  rw [Progress.push]
  split
  · next hx =>
    constructor
    · exact .inr
    · intro h
      rcases h with rfl | hy
      · exact hx
      · exact hy
  · simp

theorem Visited.seen_mono (h : Visited L R c w u p q a E E') {x : Nat × Nat}
    (hx : E.seen.contains x = true) : E'.seen.contains x = true := by
  cases h with
  | barred _ => exact hx
  | ret _ _ _ => exact hx
  | enter _ _ _ _ _ _ _ => exact hx
  | internal _ _ _ => exact (Progress.seen_push ..).2 (.inr hx)
  | skip _ _ _ _ _ _ _ => exact (Progress.seen_push ..).2 (.inr hx)

theorem Visited.covered (h : Visited L R c w u p q a E E') :
    Covered L R E'.findings (E'.seen.contains · = true) c p q a := by
  cases h with
  | barred h => exact .barred h
  | internal hk hl hr => exact .internal hk hl hr ((Progress.seen_push ..).2 (.inl rfl))
  | ret hk hl hr => exact .ret hk hl hr (AssocMap.mem_keys_insertNew ..)
  | enter hk hl hr he hk' _ hn =>
    refine .call hk hl hr he hk' (AssocMap.mem_keys_insertNew ..) fun ht => ?_
    exact absurd ht (AssocMap.get?_eq_none_iff.1 hn)
  | skip hk hl hr he hk' _ _ =>
    refine .call hk hl hr he hk' ?_ fun _ => (Progress.seen_push ..).2 (.inl rfl)
    rw [Progress.findings_push]
    exact (AssocMap.mem_keys_insertNew ..)

end

end BehavioralAutomata.Separation
