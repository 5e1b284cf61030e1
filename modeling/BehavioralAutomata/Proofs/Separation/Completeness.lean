import BehavioralAutomata.Proofs.Separation.Rounds

/-!
# Nothing found, nothing to find

* `Separation.Related`: configurations of the two systems whose frames are, one above the other, pairs
  that an exploration has covered. `Related.step` says that every symbol leads to related
  configurations again.
* `SearchStops`: all loops of the search end by their own tests.
* `separatingWord?_complete`: the search ends, and systems between which it finds no word accept the
  same words.
-/

namespace BehavioralAutomata

namespace Separation

variable {α β γ : Type} [DecidableEq α] [DecidableEq β] [DecidableEq γ]
  {L : System α β} {R : System α γ}

/-! ## Configurations that are explored together -/

variable (L R) in
/-- The pair of states belongs to a closed set of pairs of the procedures of `c`. -/
def Reaches (F : Findings α) (c : α) (p q : Nat) : Prop := ∃ X, X (p, q) ∧ Closed L R F c X

variable (L R) in
/-- The frames that wait below a procedure of `c`. If that procedure can return, the first of them go on
from an explored pair. -/
inductive Waiting (F : Findings α) : α → List (Frame α) → List (Frame α) → Prop where
  | nil {c : α} : Waiting F c [] []
  | cons {c b : α} {p q : Nat} {fs gs : List (Frame α)} (access : b ∈ F.access.keys)
      (left : L.frameAccepts ⟨b, p⟩ = true) (right : R.frameAccepts ⟨b, q⟩ = true)
      (explored : c ∈ F.terminating.keys → Reaches L R F b p q) (rest : Waiting F b fs gs) :
      Waiting F c (⟨b, p⟩ :: fs) (⟨b, q⟩ :: gs)

variable (L R) in
/-- Configurations from which the search has seen all there is to see. -/
inductive Related (F : Findings α) : Configuration α → Configuration α → Prop where
  | finished : Related F .finished .finished
  | barred {c d : Configuration α} (h : Barred L R c d) : Related F c d
  | active {c : α} {p q : Nat} {fs gs : List (Frame α)} (access : c ∈ F.access.keys)
      (verdict : L.frameAccepts ⟨c, p⟩ = R.frameAccepts ⟨c, q⟩) (explored : Reaches L R F c p q)
      (waiting : Waiting L R F c fs gs) : Related F (.active ⟨c, p⟩ fs) (.active ⟨c, q⟩ gs)

namespace Related

variable {F : Findings α} {c d : Configuration α}

theorem isAccepting_eq (h : Related L R F c d) : L.isAccepting c = R.isAccepting d := by
  cases h with
  | finished => rfl
  | active _ hv _ _ => exact hv
  | barred h =>
    rcases h with ⟨rfl, h⟩ | ⟨rfl, h⟩
    · exact (h []).symm
    · exact h []

end Related

theorem Barred.step {c d : Configuration α} (h : Barred L R c d) (a : α) :
    Barred L R (L.step c a) (R.step d a) := by
  rcases h with ⟨rfl, h⟩ | ⟨rfl, h⟩
  · exact .inl ⟨rfl, fun w => h (a :: w)⟩
  · exact .inr ⟨rfl, fun w => h (a :: w)⟩

/-- Both entries of a call that is known are explored and have the same verdict. -/
theorem Saturated.entry {F : Findings α} (hF : Saturated L R F) {a : α} (ha : a ∈ F.access.keys)
    {p q : Nat} (hp : L.entry? a = some p) (hq : R.entry? a = some q) :
    L.frameAccepts ⟨a, p⟩ = R.frameAccepts ⟨a, q⟩ ∧ Reaches L R F a p q := by
  constructor
  · obtain ⟨w, hw⟩ := AssocMap.mem_keys_iff.1 ha
    obtain ⟨_, hagree, p', q', fs, gs, hp', hq', hL, hR⟩ := hF.sound.access a w hw
    cases hp.symm.trans hp'
    cases hq.symm.trans hq'
    have := hagree.last
    change L.isAccepting (L.reached w) = R.isAccepting (R.reached w) at this
    rwa [hL, hR] at this
  · obtain ⟨p', q', X, hp', hq', hX, hclosed⟩ := hF.explored a ha
    cases hp.symm.trans hp'
    cases hq.symm.trans hq'
    exact ⟨X, hX, hclosed⟩

theorem Related.step (hA : L.alphabet = R.alphabet) {F : Findings α} (hF : Saturated L R F)
    {c d : Configuration α} (h : Related L R F c d) (a : α) :
    Related L R F (L.step c a) (R.step d a) := by
  cases h with
  | finished => exact .barred .dead
  | barred h => exact .barred (h.step a)
  | @active c p q fs gs hc hv hreach hwait =>
    obtain ⟨X, hX, hclosed⟩ := hreach
    cases hclosed (p, q) hX a with
    | barred h => exact .barred (h fs gs)
    | internal hk hl hr hx =>
      rw [System.step_internal hk hl, System.step_internal (hA ▸ hk) hr]
      have hverdict := (System.frameAccepts_advance hl).trans (System.frameAccepts_advance hr).symm
      exact .active hc hverdict ⟨X, hx, hclosed⟩ hwait
    | ret hk hl hr hterm =>
      subst hk
      rw [System.step_ret hl, hA, System.step_ret (hA ▸ hr)]
      cases hwait with
      | nil => exact .finished
      | cons hb hleft hright hexp hrest =>
        exact .active hb (hleft.trans hright.symm) (hexp hterm) hrest
    | call hk hl hr he hk' ha hx =>
      rw [System.step_call hk he hl, System.step_call (hA ▸ hk) hk' hr]
      obtain ⟨hverdict, hreach⟩ := hF.entry ha he hk'
      refine .active ha hverdict hreach (.cons hc ?_ ?_ (fun h => ⟨X, hx h, hclosed⟩) hwait)
      · exact System.frameAccepts_advance hl
      · exact System.frameAccepts_advance hr

theorem Related.run (hA : L.alphabet = R.alphabet) {F : Findings α} (hF : Saturated L R F)
    {c d : Configuration α} (h : Related L R F c d) (w : List α) :
    Related L R F (L.run c w) (R.run d w) := by
  induction w generalizing c d with
  | nil => exact h
  | cons a w ih => exact ih (h.step hA hF a)

theorem Saturated.related_first {F : Findings α} (hF : Saturated L R F) (a : α) :
    Related L R F (L.reached [a]) (R.reached [a]) := by
  rcases hF.first a with h | ⟨ha, p, q, hp, hq, hL, hR⟩
  · exact .barred h
  · obtain ⟨hverdict, hreach⟩ := hF.entry ha hp hq
    rw [hL, hR]
    exact .active ha hverdict hreach .nil

theorem Saturated.accepts_eq (hA : L.alphabet = R.alphabet) {F : Findings α}
    (hF : Saturated L R F) (w : List α) : L.accepts w = R.accepts w := by
  cases w with
  | nil => rfl
  | cons a w => exact ((hF.related_first a).run hA hF w).isAccepting_eq

end Separation

open Separation

variable {α β γ : Type} [DecidableEq α] [DecidableEq β] [DecidableEq γ]

/-- Every loop of the search ends by its own test, and not because of the bound on its steps. -/
structure SearchStops (L : System α β) (R : System α γ) : Prop where
  left : Stops L.revivalRound ∅ (L.revivals L.procedures.size ∅)
  right : Stops R.revivalRound ∅ (R.revivals R.procedures.size ∅)
  exploration : ∀ c w P Q p q F, L.procedures.get? c = some P → R.procedures.get? c = some Q →
    P.start = some p → Q.start = some q →
    Stops (explorationStep L R c w P Q) (.start F (p, q))
      (explorePairs L R (letters L R) c w P Q (P.size * Q.size) (.start F (p, q)))
  rounds : ∀ F, firstFindings L R = .ok F →
    Stops (saturationStep L R) F (saturate L R (2 * L.alphabet.calls.length + 1) F)

variable {L : System α β} {R : System α γ}

theorem searchStops (hA : L.alphabet = R.alphabet) : SearchStops L R where
  left := L.stops_revivals
  right := R.stops_revivals
  exploration _ _ P Q p q _ hP hQ hp hq :=
    stops_explorePairs_of_le hA hP hQ (.start (P.start_lt p hp) (Q.start_lt q hq))
      (Nat.le_add_right ..)
  rounds _ hF :=
    stops_saturate_of_le hA ((firstFindings_outcome hA).of_eq_ok hF).1 (Nat.le_add_right ..)

theorem accepts_eq_of_separatingWord? (hA : L.alphabet = R.alphabet)
    (h : separatingWord? L R = none) (w : List α) : L.accepts w = R.accepts w := by
  have hout := search_outcome hA
  rw [separatingWord?] at h
  split at h
  · cases h
  · next F hF => exact (hout.of_eq_ok hF).accepts_eq hA w

/-- The search ends. If it finds nothing, the systems accept the same words, and so they do if they are
said to be equivalent. -/
theorem separatingWord?_complete (hA : L.alphabet = R.alphabet) :
    SearchStops L R ∧ (separatingWord? L R = none → ∀ w, L.accepts w = R.accepts w) ∧
      (equivalent L R = true → ∀ w, L.accepts w = R.accepts w) := by
  refine ⟨searchStops hA, accepts_eq_of_separatingWord? hA, fun h => ?_⟩
  exact accepts_eq_of_separatingWord? hA (Option.isNone_iff_eq_none.1 h)

/-- The second system has states in `S` that the first one has not, but it accepts the same words. -/
theorem accepts_doubleLap :
    separatingWord? (nestingSystem lap) (nestingSystem (doubleLap true)) = none ∧
      ∀ w, (nestingSystem lap).accepts w = (nestingSystem (doubleLap true)).accepts w := by
  have h : separatingWord? (nestingSystem lap) (nestingSystem (doubleLap true)) = none := by
    decide +kernel
  have hA : (nestingSystem lap).alphabet = (nestingSystem (doubleLap true)).alphabet := rfl
  obtain ⟨_, hnone, _⟩ := separatingWord?_complete hA
  exact ⟨h, hnone h⟩

end BehavioralAutomata
