import BehavioralAutomata.Proofs.Loops
import BehavioralAutomata.Proofs.System.Stacks
import BehavioralAutomata.Separation.Revival
import Mathlib.Data.List.Perm.Subperm

/-!
# Back to acceptance: what is found and what is not

* `System.stops_revivals`: the search for revivals ends because a round finds nothing new.
* `System.revives_of_revival?`: a word that it finds leads back to acceptance above any stack whose
  frames accept, and no shorter beginning of it does.
* `System.lost_of_revival?_eq_none`: without such a word the entry of the call is never left for an
  accepting configuration.
* `System.revival?_decides`: both together, above every stack whose frames accept.
-/

namespace BehavioralAutomata.System

variable {α : Type u} {β : Type v} [DecidableEq α] [DecidableEq β] {S : System α β}

/-- The run accepts at the end of `w` and nowhere before. -/
def Revives (S : System α β) (c : Configuration α) (w : List α) : Prop :=
  S.isAccepting (S.run c w) = true ∧
    ∀ u v, w = u ++ v → v ≠ [] → S.isAccepting (S.run c u) = false

/-- No word leads to acceptance. -/
def Lost (S : System α β) (c : Configuration α) : Prop :=
  ∀ w, S.isAccepting (S.run c w) = false

theorem lost_dead (S : System α β) : S.Lost .dead := fun w => by rw [run_dead]; rfl

theorem Revives.nil {c : Configuration α} (h : S.isAccepting c = true) : S.Revives c [] := by
  refine ⟨h, fun u v huv hv => ?_⟩
  exact absurd (List.append_eq_nil_iff.1 huv.symm).2 hv

theorem Revives.cons {c : Configuration α} {a : α} {w : List α} (hc : S.isAccepting c = false)
    (h : S.Revives (S.step c a) w) : S.Revives c (a :: w) := by
  refine ⟨h.1, fun u v huv hv => ?_⟩
  cases u with
  | nil => exact hc
  | cons b u =>
    obtain ⟨rfl, rfl⟩ := List.cons.inj huv
    exact h.2 u v rfl hv

/-! ## The rounds -/

/-- One round of the search, and its test whether to go on. -/
def revivalRound (S : System α β) (K : AssocMap α (List α)) :
    AssocMap α (List α) ⊕ AssocMap α (List α) :=
  if (S.addRevivals K).size = K.size then .inr K else .inl (S.addRevivals K)

theorem prefix_addRevival (S : System α β) (K : AssocMap α (List α)) (c : α) (A : Acceptor β) :
    K.entries <+: (S.addRevival K c A).entries := by
  rw [addRevival]
  split
  · exact List.prefix_rfl
  · next hk =>
    split
    · next w _ =>
      rw [AssocMap.entries_insert_of_not_mem (AssocMap.get?_eq_none_iff.1 hk) w]
      exact List.prefix_append ..
    · exact List.prefix_rfl

theorem prefix_foldl_addRevival (S : System α β) (K : AssocMap α (List α))
    (es : List (α × Acceptor β)) :
    K.entries <+: (es.foldl (fun K (c, A) => S.addRevival K c A) K).entries := by
  induction es generalizing K with
  | nil => exact List.prefix_rfl
  | cons e es ih => exact (prefix_addRevival S K e.1 e.2).trans (ih _)

/-- The calls of `K` can be entered, and their words lead back to acceptance above every stack whose
frames accept. -/
def SoundRevivals (S : System α β) (K : AssocMap α (List α)) : Prop :=
  ∀ c w, K.get? c = some w → ∃ q, S.entry? c = some q ∧
    ∀ fs, (∀ f ∈ fs, S.frameAccepts f = true) → S.Revives (.active ⟨c, q⟩ fs) w

theorem SoundRevivals.empty (S : System α β) : S.SoundRevivals ∅ :=
  fun c w h => by simp at h

theorem advance_of_liveSuccessor {c a : α} {P : Procedure α β} {q p : Nat}
    (h : S.procedure? c = some P) (hp : P.liveSuccessor q a = some p) :
    S.advance ⟨c, q⟩ a = some ⟨c, p⟩ :=
  advance_eq_some_iff.2 ⟨P, p, h, hp, rfl⟩

/-- A word that is found from known ones is as good as they are. -/
theorem SoundRevivals.revives {K : AssocMap α (List α)} (hK : S.SoundRevivals K)
    {c : α} {P : Procedure α β} (hP : S.procedure? c = some P) {q : Nat} {w : List α}
    (h : S.revivalFrom? K P q = some w) {fs : List (Frame α)}
    (hfs : ∀ f ∈ fs, S.frameAccepts f = true) : S.Revives (.active ⟨c, q⟩ fs) w := by
  have hacc : S.isAccepting (.active ⟨c, q⟩ fs) = P.isAccepting q := by
    simp [isAccepting_active, frameAccepts, hP]
  rw [revivalFrom?] at h
  split at h
  · next hq =>
    cases h
    exact .nil (hacc.trans hq)
  · next hq =>
    have hrej : S.isAccepting (.active ⟨c, q⟩ fs) = false := by simpa [hacc] using hq
    obtain ⟨a, ha, h⟩ := List.exists_of_findSome?_eq_some h
    obtain ⟨p, hp, h⟩ := Option.bind_eq_some_iff.1 h
    have hm := advance_of_liveSuccessor hP hp
    obtain ⟨k, hk⟩ := Alphabet.mem_symbols_iff_exists.1 ha
    rw [hk] at h
    cases k with
    | internal =>
      cases h
      refine .cons hrej ?_
      rw [step_internal hk hm]
      exact .nil (frameAccepts_advance hm)
    | ret =>
      cases h
      refine .cons hrej ?_
      obtain rfl := Alphabet.kind?_eq_ret_iff.1 hk
      rw [step_ret hm]
      exact .nil (isAccepting_of_ret hfs)
    | call =>
      obtain ⟨v, hv, rfl⟩ := Option.map_eq_some_iff.1 h
      obtain ⟨e, he, hr⟩ := hK a v hv
      refine .cons hrej ?_
      rw [step_call hk he hm]
      apply hr _
      intro f hf
      rcases List.mem_cons.1 hf with rfl | hf
      · exact frameAccepts_advance hm
      · exact hfs f hf

theorem SoundRevivals.addRevival {K : AssocMap α (List α)} (hK : S.SoundRevivals K) {c : α}
    {A : Acceptor β} (hc : (c, A) ∈ S.procedures.entries) :
    S.SoundRevivals (S.addRevival K c A) := by
  rw [System.addRevival]
  split
  · exact hK
  · split
    · next w hw =>
      obtain ⟨q, hq, hw⟩ := Option.bind_eq_some_iff.1 hw
      have hP := procedure?_of_mem hc
      intro d v hd
      rw [AssocMap.get?_insert] at hd
      split at hd
      · next hdc =>
        cases hd
        subst hdc
        exact ⟨q, by rw [ entry?, hP]; exact hq, fun fs hfs => hK.revives hP hw hfs⟩
      · exact hK d v hd
    · exact hK

theorem SoundRevivals.addRevivals {K : AssocMap α (List α)} (hK : S.SoundRevivals K) :
    S.SoundRevivals (S.addRevivals K) := by
  have key : ∀ es : List (α × Acceptor β), (∀ e ∈ es, e ∈ S.procedures.entries) →
      ∀ K, S.SoundRevivals K →
        S.SoundRevivals (es.foldl (fun K (c, A) => S.addRevival K c A) K) := by
    intro es hes
    induction es with
    | nil => exact fun _ hK => hK
    | cons e es ih =>
      intro K hK
      exact ih (fun d hd => hes d (List.mem_cons_of_mem _ hd)) _
        (hK.addRevival (hes e List.mem_cons_self))
  exact key _ (fun _ h => h) K hK

theorem SoundRevivals.keys_subset {K : AssocMap α (List α)} (hK : S.SoundRevivals K) :
    K.keys ⊆ S.procedures.keys := by
  intro c hc
  obtain ⟨w, hw⟩ := AssocMap.mem_keys_iff.1 hc
  obtain ⟨q, hq, _⟩ := hK c w hw
  obtain ⟨A, hA, _⟩ := exists_procedure hq
  exact AssocMap.mem_keys_iff.2 ⟨A, hA⟩

theorem SoundRevivals.size_le {K : AssocMap α (List α)} (hK : S.SoundRevivals K) :
    K.size ≤ S.procedures.size := by
  rw [← AssocMap.length_keys, ← AssocMap.length_keys]
  exact K.nodup_keys.length_le_of_subset hK.keys_subset

theorem revivals_succ (S : System α β) (n : Nat) (K : AssocMap α (List α)) :
    S.revivals (n + 1) K = (S.revivalRound K).elim (S.revivals n) id := by
  rw [revivals, revivalRound]
  split <;> rfl

/-- Every round but the last one finds a word for another procedure, so the search ends by its own test
within as many rounds as there are procedures. -/
theorem stops_revivals_of_le {n : Nat} {K : AssocMap α (List α)} (hK : S.SoundRevivals K)
    (hn : S.procedures.size ≤ n + K.size) : Stops S.revivalRound K (S.revivals n K) := by
  have hle : ∀ K, K.size ≤ (S.addRevivals K).size := fun K =>
    (prefix_foldl_addRevival S K S.procedures.entries).length_le
  apply Stops.of_budget S.revivals (fun n K => S.SoundRevivals K ∧ S.procedures.size ≤ n + K.size) _
    (revivals_succ S) _ ⟨hK, hn⟩
  · rintro K ⟨hK, hn⟩
    have hsize : (S.addRevivals K).size = K.size := by
      have hmost := hK.addRevivals.size_le
      have hleast := hle K
      omega
    rw [revivalRound, if_pos hsize]
    rfl
  · rintro n K K' ⟨hK, hn⟩ hround
    rw [revivalRound] at hround
    split at hround
    · cases hround
    · next hsize =>
      cases hround
      have hleast := hle K
      exact ⟨hK.addRevivals, by omega⟩

theorem stops_revivals (S : System α β) :
    Stops S.revivalRound ∅ (S.revivals S.procedures.size ∅) :=
  stops_revivals_of_le (SoundRevivals.empty S) (Nat.le_add_right ..)

theorem soundRevivals_revivals (S : System α β) :
    S.SoundRevivals (S.revivals S.procedures.size ∅) := by
  have keep : ∀ K K', S.SoundRevivals K → S.revivalRound K = .inl K' → S.SoundRevivals K' := by
    intro K K' hK h
    rw [revivalRound] at h
    split at h
    · cases h
    · cases h
      exact hK.addRevivals
  obtain ⟨K, hK, h⟩ := (stops_revivals S).exists_last keep (SoundRevivals.empty S)
  rw [revivalRound] at h
  split at h
  · cases h
    exact hK
  · cases h

/-- What a word that is found does. -/
theorem revives_of_revival? {c : α} {w : List α} (h : S.revival? c = some w) :
    ∃ q, S.entry? c = some q ∧
      ∀ fs, (∀ f ∈ fs, S.frameAccepts f = true) → S.Revives (.active ⟨c, q⟩ fs) w :=
  soundRevivals_revivals S c w h

/-! ## Calls without a word -/

theorem addRevival_eq_of_size {K : AssocMap α (List α)} {es : List (α × Acceptor β)}
    (h : (es.foldl (fun K (c, A) => S.addRevival K c A) K).size = K.size) {c : α} {A : Acceptor β}
    (hc : (c, A) ∈ es) : S.addRevival K c A = K := by
  induction es with
  | nil => exact absurd hc List.not_mem_nil
  | cons e es ih =>
    obtain ⟨d, B⟩ := e
    have hp := prefix_addRevival S K d B
    have hd : S.addRevival K d B = K := by
      refine (AssocMap.eq_of_prefix hp (Nat.le_antisymm ?_ hp.length_le)).symm
      rw [← h]
      exact (prefix_foldl_addRevival S _ es).length_le
    rcases List.mem_cons.1 hc with hc | hc
    · cases hc
      exact hd
    · change (es.foldl _ (S.addRevival K d B)).size = K.size at h
      rw [hd] at h
      exact ih h hc

/-- From the words that the search ends with no further one can be found. -/
theorem revivalFrom?_eq_none {c : α} {P : Procedure α β} {q : Nat} (hP : S.procedure? c = some P)
    (hq : P.start = some q) (hc : S.revival? c = none) :
    S.revivalFrom? (S.revivals S.procedures.size ∅) P q = none := by
  obtain ⟨K, _, h⟩ := (stops_revivals S).exists_last (P := fun _ => True) (fun _ _ _ _ => trivial)
    trivial
  rw [revivalRound] at h
  split at h
  · next hsize =>
    cases h
    obtain ⟨A, hA, rfl⟩ := Option.map_eq_some_iff.1 hP
    have hstable := addRevival_eq_of_size hsize (AssocMap.get?_eq_some_iff.1 hA)
    rw [revival?] at hc
    cases hw : S.revivalFrom? (S.revivals S.procedures.size ∅) ⟨A, S.read⟩ q with
    | none => rfl
    | some w =>
      have hbind : A.start.bind (S.revivalFrom? (S.revivals S.procedures.size ∅) ⟨A, S.read⟩) =
          some w := Option.bind_eq_some_iff.2 ⟨q, hq, hw⟩
      simp only [addRevival, hc, hbind] at hstable
      have := congrArg (·.get? c) hstable
      simp [hc] at this
  · cases h

/-- A call without a word enters a rejecting state, which only calls of the same sort can leave. -/
theorem step_of_revival?_eq_none {c : α} {q : Nat} (hc : S.revival? c = none)
    (hq : S.entry? c = some q) (fs : List (Frame α)) :
    S.isAccepting (.active ⟨c, q⟩ fs) = false ∧ ∀ a, S.step (.active ⟨c, q⟩ fs) a = .dead ∨
      ∃ p gs, S.revival? a = none ∧ S.entry? a = some p ∧
        S.step (.active ⟨c, q⟩ fs) a = .active ⟨a, p⟩ gs := by
  obtain ⟨P, hP, hstart⟩ := Option.bind_eq_some_iff.1 hq
  have hnone := revivalFrom?_eq_none hP hstart hc
  rw [revivalFrom?] at hnone
  split at hnone
  · cases hnone
  next hrej =>
  rw [List.findSome?_eq_none_iff] at hnone
  refine ⟨by simpa [isAccepting_active, frameAccepts, hP] using hrej, fun a => ?_⟩
  by_cases hdead : S.step (.active ⟨c, q⟩ fs) a = .dead
  · exact .inl hdead
  right
  -- a step that stays alive moves the top frame, so the search has looked at its symbol
  have hmoved : ∀ {k : SymbolKind} {g : Frame α}, S.alphabet.kind? a = some k →
      S.advance ⟨c, q⟩ a = some g → k = .call ∧ S.revival? a = none := by
    intro k g hk hg
    obtain ⟨P', p, hP', hp, rfl⟩ := advance_eq_some_iff.1 hg
    cases hP.symm.trans hP'
    have := hnone a (Alphabet.mem_symbols_iff_exists.2 ⟨k, hk⟩)
    simp only [hp, Option.bind_some, hk] at this
    cases k with
    | call => exact ⟨rfl, Option.map_eq_none_iff.1 this⟩
    | internal | ret => cases this
  generalize hs : S.step (.active ⟨c, q⟩ fs) a = d at hdead
  cases survives hs hdead with
  | internal hk hm => cases (hmoved hk hm).1
  | ret hk hm => cases (hmoved (Alphabet.kind?_eq_ret_iff.2 hk) hm).1
  | @call g p hk he hm => exact ⟨p, g :: fs, (hmoved hk hm).2, he, rfl⟩

/-- Nothing is accepted any more behind the entry of a call without a word. -/
theorem lost_of_revival?_eq_none {c : α} {q : Nat} (hc : S.revival? c = none)
    (hq : S.entry? c = some q) (fs : List (Frame α)) : S.Lost (.active ⟨c, q⟩ fs) := by
  intro w
  induction w generalizing c q fs with
  | nil => exact (step_of_revival?_eq_none hc hq fs).1
  | cons a w ih =>
    rw [run_cons]
    rcases (step_of_revival?_eq_none hc hq fs).2 a with h | ⟨p, gs, ha, hp, h⟩
    · rw [h]
      exact lost_dead S w
    · rw [h]
      exact ih ha hp gs

/-! ## What the search decides -/

theorem Revives.ne_dead {c : Configuration α} {u v : List α} (h : S.Revives c (u ++ v)) :
    S.run c u ≠ .dead := by
  intro hdead
  have haccepts := h.1
  rw [run_append, hdead, run_dead] at haccepts
  cases haccepts

/-- The search ends by its own test. Above every stack whose frames accept, it finds no word for the entry of
a call exactly if no word leads from there to acceptance. A word that it finds does, and behind every proper
beginning of it the run is alive and rejects. -/
theorem revival?_decides {c : α} {q : Nat} (hq : S.entry? c = some q) :
    (∃ K, Stops S.revivalRound ∅ K ∧ S.revival? c = K.get? c) ∧
    ∀ fs, (∀ f ∈ fs, S.frameAccepts f = true) →
      (S.revival? c = none ↔ ∀ w, S.isAccepting (S.run (.active ⟨c, q⟩ fs) w) = false) ∧
      ∀ v, S.revival? c = some v →
        S.isAccepting (S.run (.active ⟨c, q⟩ fs) v) = true ∧
        ∀ u, u <+: v → u ≠ v → S.run (.active ⟨c, q⟩ fs) u ≠ .dead ∧
          S.isAccepting (S.run (.active ⟨c, q⟩ fs) u) = false := by
  refine ⟨⟨_, stops_revivals S, rfl⟩, fun fs hfs => ?_⟩
  have found : ∀ v, S.revival? c = some v → S.Revives (.active ⟨c, q⟩ fs) v := by
    intro v hv
    obtain ⟨q', hq', hrevives⟩ := revives_of_revival? hv
    cases hq.symm.trans hq'
    exact hrevives fs hfs
  constructor
  · refine ⟨fun hnone => lost_of_revival?_eq_none hnone hq fs, fun hlost => ?_⟩
    cases hv : S.revival? c with
    | none => rfl
    | some v => exact absurd (found v hv).1 (by simp [hlost v])
  · rintro v hv
    refine ⟨(found v hv).1, fun u hu hne => ?_⟩
    obtain ⟨w, rfl⟩ := hu
    have hw : w ≠ [] := by
      rintro rfl
      exact hne (List.append_nil u).symm
    exact ⟨(found _ hv).ne_dead, (found _ hv).2 u w rfl hw⟩

/-- `S` and `T` start in rejecting states. `S` gets away from there by a call of `T`, and `T` by `a`. The call
of `U` by which `U` could get away leads to the same state of another `U`. -/
def reluctantSystem : System Char Char where
  alphabet := ⟨['a'], ['S', 'T', 'U'], 'R', by decide⟩
  initialCall := some 'S'
  procedures := .ofList [
    ('S', {
      states := #[⟨false, .ofList [('T', 1)]⟩, ⟨true, .ofList [('U', 1)]⟩]
      start := some 0
      target_lt := by decide
      start_lt := by decide }),
    ('T', {
      states := #[⟨false, .ofList [('a', 1)]⟩, ⟨true, ∅⟩]
      start := some 0
      target_lt := by decide
      start_lt := by decide }),
    ('U', {
      states := #[⟨false, .ofList [('U', 1)]⟩, ⟨true, .ofList [('R', 1)]⟩]
      start := some 0
      target_lt := by decide
      start_lt := by decide })]
  read := some

/-- The way back from `S` passes through the rejecting entry of `T`. There is none from `U`. -/
theorem revival?_reluctantSystem :
    reluctantSystem.revival? 'S' = some ['T', 'a'] ∧
      reluctantSystem.isAccepting (reluctantSystem.run (.active ⟨'S', 0⟩ []) ['T', 'a']) = true ∧
      reluctantSystem.isAccepting (reluctantSystem.run (.active ⟨'S', 0⟩ []) ['T']) = false ∧
      ∀ w, reluctantSystem.isAccepting (reluctantSystem.run (.active ⟨'U', 0⟩ [⟨'S', 1⟩]) w) =
        false := by
  have hS : reluctantSystem.entry? 'S' = some 0 := by decide
  have hU : reluctantSystem.entry? 'U' = some 0 := by decide
  have hfound : reluctantSystem.revival? 'S' = some ['T', 'a'] := by decide
  have hnone : reluctantSystem.revival? 'U' = none := by decide
  obtain ⟨haccepts, hbefore⟩ := ((revival?_decides hS).2 [] (List.forall_mem_nil _)).2 _ hfound
  have hlost := ((revival?_decides hU).2 [⟨'S', 1⟩] (by decide)).1.1 hnone
  exact ⟨hfound, haccepts, (hbefore ['T'] ⟨['a'], rfl⟩ (by decide)).2, hlost⟩

end BehavioralAutomata.System
