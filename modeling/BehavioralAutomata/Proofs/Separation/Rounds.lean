import BehavioralAutomata.Proofs.Separation.Exploration

/-!
# Rounds of exploration

* `Separation.stops_saturate_of_le`: the rounds end because one of them finds nothing new.
* `Separation.search_outcome`: the search finds a separating word, or it ends with findings that are
  `Saturated`.
* `separatingWord?_spec`: what is true of a word that is found.
-/

namespace BehavioralAutomata.Separation

variable {α β γ : Type} [DecidableEq α] [DecidableEq β] [DecidableEq γ]
  {L : System α β} {R : System α γ}

/-! ## A round -/

theorem explore_outcome (hA : L.alphabet = R.alphabet) {F : Findings α} (hF : F.Sound L R) {c : α}
    (hc : c ∈ F.access.keys) :
    Outcome (Explores L R F [c]) (Separates L R .initial .initial)
      (explore L R (letters L R) F c) := by
  obtain ⟨w, hw⟩ := AssocMap.mem_keys_iff.1 hc
  have henters := hF.access c w hw
  obtain ⟨_, _, p, q, _, _, hp, hq, _, _⟩ := hF.access c w hw
  obtain ⟨P, hP, hp'⟩ := System.exists_procedure hp
  obtain ⟨Q, hQ, hq'⟩ := System.exists_procedure hq
  simp only [explore, hw, hP, hQ, hp', hq']
  exact explorePairs_outcome hA hp hq henters hP hQ hF (P.start_lt p hp') (Q.start_lt q hq')

/-- All calls that can be entered are explored once. -/
def round (L : System α β) (R : System α γ) (F : Findings α) : Search α (Findings α) :=
  F.access.keys.foldlM (explore L R (letters L R)) F

theorem Findings.Le.mem_access {F G : Findings α} (h : F.Le G) {c : α}
    (hc : c ∈ F.access.keys) : c ∈ G.access.keys := by
  obtain ⟨w, hw⟩ := AssocMap.mem_keys_iff.1 hc
  exact AssocMap.mem_keys_iff.2 ⟨w, AssocMap.get?_of_prefix h.access hw⟩

theorem round_outcome (hA : L.alphabet = R.alphabet) {F : Findings α} (hF : F.Sound L R) :
    Outcome (Explores L R F F.access.keys) (Separates L R .initial .initial) (round L R F) := by
  have step : ∀ done c G, c ∈ F.access.keys → Explores L R F done G →
      Outcome (Explores L R F (done ++ [c])) (Separates L R .initial .initial)
        (explore L R (letters L R) G c) := by
    intro done c G hc hG
    exact (explore_outcome hA hG.sound (hG.grown.mem_access hc)).mono (fun _ => hG.append)
      fun _ h => h
  exact Outcome.foldlM step (.refl hF)

/-! ## Rounds until nothing is found -/

/-- One round, and the test whether it has found anything. -/
def saturationStep (L : System α β) (R : System α γ) (F : Findings α) :
    Findings α ⊕ Search α (Findings α) :=
  match round L R F with
  | .error w => .inr (.error w)
  | .ok G =>
    if G.access.size = F.access.size ∧ G.terminating.size = F.terminating.size then .inr (.ok G)
    else .inl G

theorem round_of_saturationStep_eq_inl {F G : Findings α} (h : saturationStep L R F = .inl G) :
    round L R F = .ok G ∧
      ¬ (G.access.size = F.access.size ∧ G.terminating.size = F.terminating.size) := by
  rw [saturationStep] at h
  split at h
  · cases h
  · next hround =>
    split at h
    · cases h
    · next hnew =>
      cases h
      exact ⟨hround, hnew⟩

theorem round_of_saturationStep_eq_inr {F : Findings α} {r : Search α (Findings α)}
    (h : saturationStep L R F = .inr r) :
    (∃ w, round L R F = .error w ∧ r = .error w) ∨
      ∃ G, round L R F = .ok G ∧ r = .ok G ∧ G.access.size = F.access.size ∧
        G.terminating.size = F.terminating.size := by
  rw [saturationStep] at h
  split at h
  · next w hround =>
    cases h
    exact .inl ⟨w, hround, rfl⟩
  · next G hround =>
    split at h
    · next hsize =>
      cases h
      exact .inr ⟨G, hround, rfl, hsize⟩
    · cases h

theorem Findings.Sound.size_le {F : Findings α} (hF : F.Sound L R) :
    F.access.size + F.terminating.size ≤ 2 * L.alphabet.calls.length := by
  have haccess : F.access.keys ⊆ L.alphabet.calls := by
    intro c hc
    obtain ⟨w, hw⟩ := AssocMap.mem_keys_iff.1 hc
    exact Alphabet.kind?_eq_call_iff.1 (hF.access c w hw).1
  have hterminating : F.terminating.keys ⊆ L.alphabet.calls := by
    intro c hc
    obtain ⟨t, ht⟩ := AssocMap.mem_keys_iff.1 hc
    exact Alphabet.kind?_eq_call_iff.1 (hF.terminating c t ht).1
  have h₁ := F.access.nodup_keys.length_le_of_subset haccess
  have h₂ := F.terminating.nodup_keys.length_le_of_subset hterminating
  rw [AssocMap.length_keys] at h₁ h₂
  omega

theorem saturate_succ (n : Nat) (F : Findings α) :
    saturate L R (n + 1) F = (saturationStep L R F).elim (saturate L R n) id := by
  rw [saturate, saturationStep]
  change round L R F >>= _ = _
  cases round L R F with
  | error w => rfl
  | ok G =>
    change (if _ then _ else _) = Sum.elim _ _ (if _ then _ else _)
    split <;> rfl

/-- Every round but the last one adds to the findings, which have at most two words for each call. -/
theorem stops_saturate_of_le (hA : L.alphabet = R.alphabet) {n : Nat} {F : Findings α}
    (hF : F.Sound L R)
    (hn : 2 * L.alphabet.calls.length + 1 ≤ n + (F.access.size + F.terminating.size)) :
    Stops (saturationStep L R) F (saturate L R n F) := by
  apply Stops.of_budget (saturate L R) (fun n F => F.Sound L R ∧
    2 * L.alphabet.calls.length + 1 ≤ n + (F.access.size + F.terminating.size)) _ saturate_succ _ ⟨hF, hn⟩
  · rintro F ⟨hF, hn⟩
    have hle := hF.size_le
    omega
  · rintro n F G ⟨hF, hn⟩ hstep
    obtain ⟨hround, hnew⟩ := round_of_saturationStep_eq_inl hstep
    obtain ⟨hsound, hle, _⟩ := (round_outcome hA hF).of_eq_ok hround
    have h₁ : F.access.size ≤ G.access.size := hle.access.length_le
    have h₂ : F.terminating.size ≤ G.terminating.size := hle.terminating.length_le
    exact ⟨hsound, by omega⟩

/-- The rounds end with a separating word or with findings from which every call is explored. -/
theorem saturate_outcome (hA : L.alphabet = R.alphabet) {F : Findings α} (hF : F.Sound L R) :
    Outcome (fun G => G.Sound L R ∧ F.Le G ∧ ∀ c ∈ G.access.keys, Explored L R G c)
      (Separates L R .initial .initial)
      (saturate L R (2 * L.alphabet.calls.length + 1) F) := by
  have hstops := stops_saturate_of_le hA hF (Nat.le_add_right _ _)
  have keep : ∀ G H, G.Sound L R ∧ F.Le G → saturationStep L R G = .inl H →
      H.Sound L R ∧ F.Le H := by
    intro G H hG h
    have hround := (round_outcome hA hG.1).of_eq_ok (round_of_saturationStep_eq_inl h).1
    exact ⟨hround.sound, hG.2.trans hround.grown⟩
  obtain ⟨G, ⟨hG, hle⟩, h⟩ := hstops.exists_last keep ⟨hF, .refl F⟩
  rcases round_of_saturationStep_eq_inr h with ⟨w, hw, hr⟩ | ⟨H, hH, hr, ha, ht⟩
  · rw [hr]
    exact (round_outcome hA hG).of_eq_error hw
  · rw [hr]
    have hround := (round_outcome hA hG).of_eq_ok hH
    obtain rfl := hround.grown.eq_of_size ha ht
    exact ⟨hG, hle, hround.explored rfl⟩

/-! ## First symbols -/

variable (L R) in
/-- Words that start with `a` need not be looked at, or both systems start with the call `a`, which is
known. -/
def FirstCovered (F : Findings α) (a : α) : Prop :=
  Barred L R (L.reached [a]) (R.reached [a]) ∨ a ∈ F.access.keys ∧
    ∃ p q, L.entry? a = some p ∧ R.entry? a = some q ∧
      L.reached [a] = .active ⟨a, p⟩ [] ∧ R.reached [a] = .active ⟨a, q⟩ []

theorem FirstCovered.mono {F G : Findings α} {a : α} (h : FirstCovered L R F a)
    (hFG : ∀ c ∈ F.access.keys, c ∈ G.access.keys) : FirstCovered L R G a :=
  h.imp id fun h => ⟨hFG a h.1, h.2⟩

theorem reached_singleton {S : System α β} {a : α} (h : (S.reached [a]).isDead = false) :
    ∃ q, S.alphabet.kind? a = some .call ∧ S.entry? a = some q ∧
      S.reached [a] = .active ⟨a, q⟩ [] := by
  have hne : S.reached [a] ≠ .dead := by
    intro hd
    rw [hd] at h
    cases h
  obtain ⟨q, hk, _, hq, hr⟩ := System.reached_cons hne
  exact ⟨q, hk, hq, hr⟩

omit [DecidableEq α] in
theorem eq_dead_of_isDead {c : Configuration α} (h : c.isDead = true) : c = .dead := by
  cases c <;> first | rfl | cases h

/-- A call that only one system can start with, behind the test whether it comes back to acceptance. -/
theorem oneSided_first_outcome {δ : Type} {S : System α β} {a : α} {x : δ} {good : δ → Prop}
    {bad : List α → Prop} (hS : (S.reached [a]).isDead = false)
    (hok : S.Lost (S.reached [a]) → good x)
    (herror : ∀ v, S.Revives (S.reached [a]) v → bad (a :: v)) :
    Outcome good bad (do oneSided S [] a; .ok x) := by
  obtain ⟨q, _, hq, hr⟩ := reached_singleton hS
  refine oneSided_outcome (fun hn => ?_) fun v hv => ?_
  · exact hok (hr ▸ System.lost_of_revival?_eq_none hn hq [])
  · obtain ⟨q', hq', hrev⟩ := System.revives_of_revival? hv
    cases hq.symm.trans hq'
    exact herror v (hr ▸ hrev [] (List.forall_mem_nil _))

variable (L R) in
/-- What a look at the first symbol `a` makes of the findings. -/
structure FirstVisited (F : Findings α) (a : α) (G : Findings α) : Prop where
  sound : G.Sound L R
  covered : FirstCovered L R G a
  access : ∀ c ∈ F.access.keys, c ∈ G.access.keys

section

variable {F : Findings α} {a : α} (hF : F.Sound L R)

include hF

theorem firstVisited_of_barred (h : Barred L R (L.reached [a]) (R.reached [a])) :
    FirstVisited L R F a F :=
  ⟨hF, .inl h, fun _ hc => hc⟩

/-- Both systems start with the call. -/
theorem firstVisited_insert (hl : (L.reached [a]).isDead = false)
    (hr : (R.reached [a]).isDead = false)
    (heq : L.isAccepting (L.reached [a]) = R.isAccepting (R.reached [a])) :
    FirstVisited L R F a { F with access := F.access.insert a [a] } := by
  obtain ⟨p, hk, hp, hL⟩ := reached_singleton hl
  obtain ⟨q, _, hq, hR⟩ := reached_singleton hr
  have henters : Enters L R a [a] := ⟨hk, .cons rfl (.nil heq), p, q, [], [], hp, hq, hL, hR⟩
  refine ⟨⟨fun d v hd => ?_, hF.terminating⟩, .inr ⟨?_, p, q, hp, hq, hL, hR⟩, fun c hc => ?_⟩
  · rw [AssocMap.get?_insert] at hd
    split at hd
    · next hda =>
      cases hd
      exact hda ▸ henters
    · exact hF.access d v hd
  · exact AssocMap.mem_keys_insert.2 (.inl rfl)
  · exact AssocMap.mem_keys_insert.2 (.inr hc)

/-- Only the left system starts with the call. -/
theorem oneSided_left_outcome (hl : (L.reached [a]).isDead = false)
    (hr : (R.reached [a]).isDead = true) :
    Outcome (FirstVisited L R F a) (Separates L R .initial .initial)
      (do oneSided L [] a; .ok F) := by
  have hdead := eq_dead_of_isDead hr
  apply oneSided_first_outcome hl (fun h => firstVisited_of_barred hF (.inr ⟨hdead, h⟩))
  intro v hv
  refine .cons rfl ?_
  change Separates L R (L.reached [a]) (R.reached [a]) v
  rw [hdead]
  exact .of_revives hv

/-- Only the right system starts with the call. -/
theorem oneSided_right_outcome (hl : (L.reached [a]).isDead = true)
    (hr : (R.reached [a]).isDead = false) :
    Outcome (FirstVisited L R F a) (Separates L R .initial .initial)
      (do oneSided R [] a; .ok F) := by
  have hdead := eq_dead_of_isDead hl
  apply oneSided_first_outcome hr (fun h => firstVisited_of_barred hF (.inl ⟨hdead, h⟩))
  intro v hv
  refine .cons rfl (.symm ?_)
  change Separates R L (R.reached [a]) (L.reached [a]) v
  rw [hdead]
  exact .of_revives hv

theorem visitFirst_outcome (hA : L.alphabet = R.alphabet) :
    Outcome (FirstVisited L R F a) (Separates L R .initial .initial) (visitFirst L R F a) := by
  simp only [visitFirst]
  split
  · next hne => exact .cons rfl (.nil (bne_iff_ne.1 hne))
  next heq =>
  have heq : L.isAccepting (L.reached [a]) = R.isAccepting (R.reached [a]) := by simpa using heq
  cases hl : (L.reached [a]).isDead with
  | false =>
    obtain ⟨p, hk, _, _⟩ := reached_singleton hl
    rw [Alphabet.isCall, hk, decide_eq_true rfl, if_pos rfl]
    cases hr : (R.reached [a]).isDead with
    | false => exact firstVisited_insert hF hl hr heq
    | true => exact oneSided_left_outcome hF hl hr
  | true =>
    cases hr : (R.reached [a]).isDead with
    | false =>
      obtain ⟨q, hk, _, _⟩ := reached_singleton hr
      rw [Alphabet.isCall, hA, hk, decide_eq_true rfl, if_pos rfl]
      exact oneSided_right_outcome hF hl hr
    | true =>
      have hbarred : Barred L R (L.reached [a]) (R.reached [a]) := by
        rw [eq_dead_of_isDead hl, eq_dead_of_isDead hr]
        exact .dead
      split
      · exact firstVisited_of_barred hF hbarred
      · exact firstVisited_of_barred hF hbarred

end

/-! ## The whole search -/

variable (L R) in
/-- Nothing is left to be found. -/
structure Saturated (F : Findings α) : Prop where
  sound : F.Sound L R
  first : ∀ a, FirstCovered L R F a
  explored : ∀ c ∈ F.access.keys, Explored L R F c

/-- The findings of the first symbols. -/
def firstFindings (L : System α β) (R : System α γ) : Search α (Findings α) :=
  L.alphabet.symbols.foldlM (visitFirst L R) ⟨∅, ∅⟩

theorem firstFindings_outcome (hA : L.alphabet = R.alphabet) :
    Outcome (fun F => F.Sound L R ∧ ∀ a, FirstCovered L R F a) (Separates L R .initial .initial)
      (firstFindings L R) := by
  have step : ∀ done a F, a ∈ L.alphabet.symbols →
      F.Sound L R ∧ (∀ a ∈ done, FirstCovered L R F a) →
      Outcome (fun F => F.Sound L R ∧ ∀ b ∈ done ++ [a], FirstCovered L R F b)
        (Separates L R .initial .initial) (visitFirst L R F a) := by
    rintro done a F _ ⟨hF, hdone⟩
    refine (visitFirst_outcome hF hA).mono (fun G hG => ⟨hG.sound, fun b hb => ?_⟩) fun _ h => h
    rcases List.mem_append.1 hb with hb | hb
    · exact (hdone b hb).mono hG.access
    · exact List.mem_singleton.1 hb ▸ hG.covered
  have start : Findings.Sound L R ⟨∅, ∅⟩ := ⟨fun c w h => by simp at h, fun c t h => by simp at h⟩
  refine (Outcome.foldlM step ⟨start, List.forall_mem_nil _⟩).mono (fun F hF => ?_) fun _ h => h
  obtain ⟨hF, hfirst⟩ := hF
  refine ⟨hF, fun a => ?_⟩
  by_cases ha : a ∈ L.alphabet.symbols
  · exact hfirst a ha
  · have hk : L.alphabet.kind? a = none := by
      rw [Alphabet.mem_symbols_iff_exists] at ha
      exact Option.eq_none_iff_forall_ne_some.2 fun k hk => ha ⟨k, hk⟩
    have hk' : R.alphabet.kind? a = none := hA ▸ hk
    refine .inl ?_
    simp only [System.reached, System.run_cons, System.run_nil, System.step, hk, hk', reduceCtorEq,
      false_and, if_false]
    exact .dead

theorem search_outcome (hA : L.alphabet = R.alphabet) :
    Outcome (Saturated L R) (Separates L R .initial .initial) (search L R) := by
  apply Outcome.bind (firstFindings_outcome hA)
  intro F hF
  refine (saturate_outcome hA hF.1).mono (fun G hG => ?_) fun _ h => h
  obtain ⟨hG, hle, hexp⟩ := hG
  exact ⟨hG, fun a => (hF.2 a).mono fun _ => hle.mem_access, hexp⟩

end Separation

open Separation

variable {α β γ : Type} [DecidableEq α] [DecidableEq β] [DecidableEq γ]
  {L : System α β} {R : System α γ}

theorem separates_of_separatingWord? (hA : L.alphabet = R.alphabet) {w : List α}
    (h : separatingWord? L R = some w) : Separates L R .initial .initial w := by
  have hout := search_outcome hA
  rw [separatingWord?] at h
  split at h
  · next v hv =>
    cases h
    exact hout.of_eq_error hv
  · cases h

/-- The shorter beginnings of a separating word are judged alike, and accepted if no procedure starts in
a rejecting state. -/
theorem Separation.Separates.accepts_eq {w u : List α} (h : Separates L R .initial .initial w)
    (hu : u <+: w) (hne : u ≠ w) : L.accepts u = R.accepts u := by
  obtain ⟨v, rfl⟩ := hu
  exact h.before u v rfl fun hv => hne (by rw [hv, List.append_nil])

theorem Separation.Separates.accepts_prefix {w u : List α} (h : Separates L R .initial .initial w)
    (hL : L.EntriesAccept) (hR : R.EntriesAccept) (hu : u <+: w) (hne : u ≠ w) :
    L.accepts u = true ∧ R.accepts u = true := by
  have heq := h.accepts_eq hu hne
  obtain ⟨v, rfl⟩ := hu
  cases hw : L.accepts (u ++ v) with
  | true =>
    have hacc := System.accepts_of_append hL hw
    exact ⟨hacc, heq ▸ hacc⟩
  | false =>
    have hw' : R.accepts (u ++ v) = true := by
      cases hr : R.accepts (u ++ v) with
      | true => rfl
      | false => exact absurd (hw.trans hr.symm) h.differ
    have hacc := System.accepts_of_append hR hw'
    exact ⟨heq ▸ hacc, hacc⟩

/-- A word that is found is accepted by one of the systems only, and they agree on every shorter
beginning of it. Both accept these beginnings if no procedure starts in a rejecting state. -/
theorem separatingWord?_spec (hA : L.alphabet = R.alphabet) {w : List α}
    (h : separatingWord? L R = some w) :
    w ≠ [] ∧ L.accepts w ≠ R.accepts w ∧
      (∀ u, u <+: w → u ≠ w → L.accepts u = R.accepts u) ∧
      (L.EntriesAccept → R.EntriesAccept →
        ∀ u, u <+: w → u ≠ w → L.accepts u = true ∧ R.accepts u = true) := by
  have hsep := separates_of_separatingWord? hA h
  refine ⟨?_, hsep.differ, fun u hu hne => hsep.accepts_eq hu hne,
    fun hL hR u hu hne => hsep.accepts_prefix hL hR hu hne⟩
  rintro rfl
  exact hsep.differ rfl

/-- The system of `S`, which is given, and of `T`, which reads a single `y` or invokes itself before it
returns. -/
def nestingSystem (P : Acceptor Char) : System Char Char where
  alphabet := ⟨['x', 'y'], ['S', 'T'], 'R', by decide⟩
  initialCall := some 'S'
  procedures := .ofList [('S', P), ('T', {
    states := #[⟨true, .ofList [('y', 1), ('T', 1)]⟩, ⟨true, .ofList [('R', 2)]⟩, ⟨true, ∅⟩]
    start := some 0
    target_lt := by decide
    start_lt := by decide })]
  read := some

/-- Invokes `T` and reads an `x`, again and again, and may return in between. -/
def lap : Acceptor Char where
  states := #[⟨true, .ofList [('T', 1), ('R', 2)]⟩, ⟨true, .ofList [('x', 0)]⟩, ⟨true, ∅⟩]
  start := some 0
  target_lt := by decide
  start_lt := by decide

/-- As `lap`, but the second `x` leads back to the beginning and not the first one, or it is missing. -/
def doubleLap (closed : Bool) : Acceptor Char where
  states := #[⟨true, .ofList [('T', 1), ('R', 4)]⟩, ⟨true, .ofList [('x', 2)]⟩,
    ⟨true, .ofList [('T', 3), ('R', 4)]⟩, ⟨true, if closed then .ofList [('x', 0)] else ∅⟩, ⟨true, ∅⟩]
  start := some 0
  target_lt := by cases closed <;> decide
  start_lt := by cases closed <;> decide

/-- The systems differ behind the second invocation of `T`. -/
theorem separatingWord?_doubleLap :
    separatingWord? (nestingSystem lap) (nestingSystem (doubleLap false)) =
        some ['S', 'T', 'y', 'R', 'x', 'T', 'y', 'R', 'x'] ∧
      ∀ u, u <+: ['S', 'T', 'y', 'R', 'x', 'T', 'y', 'R', 'x'] →
        u ≠ ['S', 'T', 'y', 'R', 'x', 'T', 'y', 'R', 'x'] →
        (nestingSystem lap).accepts u = true ∧
          (nestingSystem (doubleLap false)).accepts u = true := by
  have h : separatingWord? (nestingSystem lap) (nestingSystem (doubleLap false)) =
      some ['S', 'T', 'y', 'R', 'x', 'T', 'y', 'R', 'x'] := by decide +kernel
  have hA : (nestingSystem lap).alphabet = (nestingSystem (doubleLap false)).alphabet := rfl
  obtain ⟨_, _, _, hprefix⟩ := separatingWord?_spec hA h
  exact ⟨h, hprefix (by decide) (by decide)⟩

end BehavioralAutomata
