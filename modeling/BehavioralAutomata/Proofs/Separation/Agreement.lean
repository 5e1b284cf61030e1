import BehavioralAutomata.Proofs.Separation.Revival
import BehavioralAutomata.Separation.Search

/-!
# Two systems on one word

* `Separation.Agree`: two runs give the same verdicts all along a word.
* `Separation.Together`: a word that leads two frames of one procedure to two other ones, each alone on
  its stack, while the systems agree. Such words can be read above every pair of stacks
  (`Together.agree_above`), and whole invocations are such words (`Together.invocation`).
* `Separation.Separates`: the runs differ at the end of a word and agree before.
-/

namespace BehavioralAutomata.Separation

variable {α β γ : Type} [DecidableEq α] [DecidableEq β] [DecidableEq γ]
  {L : System α β} {R : System α γ}

variable (L R) in
/-- The runs from two configurations have the same verdicts all along `w`. -/
def Agree (c d : Configuration α) (w : List α) : Prop :=
  ∀ u, u <+: w → L.isAccepting (L.run c u) = R.isAccepting (R.run d u)

variable (L R) in
/-- The runs from two configurations differ at the end of `w` and nowhere before. -/
structure Separates (c d : Configuration α) (w : List α) : Prop where
  differ : L.isAccepting (L.run c w) ≠ R.isAccepting (R.run d w)
  before : ∀ u v, w = u ++ v → v ≠ [] → L.isAccepting (L.run c u) = R.isAccepting (R.run d u)

theorem Agree.nil {c d : Configuration α} (h : L.isAccepting c = R.isAccepting d) :
    Agree L R c d [] := by
  intro u hu
  rw [List.prefix_nil.1 hu]
  exact h

theorem Agree.cons {c d : Configuration α} {a : α} {w : List α}
    (h : L.isAccepting c = R.isAccepting d) (hw : Agree L R (L.step c a) (R.step d a) w) :
    Agree L R c d (a :: w) := by
  intro u hu
  cases u with
  | nil => exact h
  | cons b u =>
    obtain ⟨rfl, hu'⟩ := List.cons_prefix_cons.1 hu
    exact hw u hu'

theorem Agree.append {c d : Configuration α} {v w : List α} (hv : Agree L R c d v)
    (hw : Agree L R (L.run c v) (R.run d v) w) : Agree L R c d (v ++ w) := by
  intro u hu
  rcases List.prefix_or_prefix_of_prefix hu (List.prefix_append v w) with h | ⟨x, rfl⟩
  · exact hv u h
  · rw [System.run_append, System.run_append]
    exact hw x ((List.prefix_append_right_inj v).1 hu)

theorem Agree.head {c d : Configuration α} {w : List α} (h : Agree L R c d w) :
    L.isAccepting c = R.isAccepting d :=
  h [] List.nil_prefix

theorem Agree.last {c d : Configuration α} {w : List α} (h : Agree L R c d w) :
    L.isAccepting (L.run c w) = R.isAccepting (R.run d w) :=
  h w List.prefix_rfl

/-! ## Words that separate -/

theorem Separates.nil {c d : Configuration α} (h : L.isAccepting c ≠ R.isAccepting d) :
    Separates L R c d [] where
  differ := h
  before _ _ huv hv := absurd (List.append_eq_nil_iff.1 huv.symm).2 hv

theorem Separates.cons {c d : Configuration α} {a : α} {w : List α}
    (h : L.isAccepting c = R.isAccepting d) (hw : Separates L R (L.step c a) (R.step d a) w) :
    Separates L R c d (a :: w) where
  differ := hw.differ
  before u v huv hv := by
    cases u with
    | nil => exact h
    | cons b u =>
      obtain ⟨rfl, rfl⟩ := List.cons.inj huv
      exact hw.before u v rfl hv

theorem Agree.separates {c d : Configuration α} {u w : List α} (hu : Agree L R c d u)
    (hw : Separates L R (L.run c u) (R.run d u) w) : Separates L R c d (u ++ w) := by
  induction u generalizing c d with
  | nil => exact hw
  | cons a u ih =>
    refine .cons hu.head (ih (fun v hv => ?_) hw)
    exact hu (a :: v) (List.cons_prefix_cons.2 ⟨rfl, hv⟩)

theorem Separates.symm {c d : Configuration α} {w : List α} (h : Separates R L d c w) :
    Separates L R c d w where
  differ := h.differ.symm
  before u v huv hv := (h.before u v huv hv).symm

/-- A word that leads back to acceptance separates from a run that is dead. -/
theorem Separates.of_revives {c : Configuration α} {w : List α} (h : L.Revives c w) :
    Separates L R c .dead w where
  differ := by
    rw [h.1, R.lost_dead]
    exact Bool.false_ne_true.symm
  before u v huv hv := by rw [h.2 u v huv hv, R.lost_dead]

/-! ## Procedures that run together -/

variable (L R) in
/-- The word `u` leads the frames `f` and `g`, each alone, to `f'` and `g'` with equal verdicts. -/
structure Together (f g : Frame α) (u : List α) (f' g' : Frame α) : Prop where
  left : L.run (.active f []) u = .active f' []
  right : R.run (.active g []) u = .active g' []
  agree : Agree L R (.active f []) (.active g []) u

namespace Together

variable {f g f' g' : Frame α} {u v : List α}

theorem refl (h : L.frameAccepts f = R.frameAccepts g) : Together L R f g [] f g :=
  ⟨rfl, rfl, .nil h⟩

theorem trans {f'' g'' : Frame α} (h : Together L R f g u f' g')
    (h' : Together L R f' g' v f'' g'') : Together L R f g (u ++ v) f'' g'' where
  left := by rw [System.run_append, h.left, h'.left]
  right := by rw [System.run_append, h.right, h'.right]
  agree := h.agree.append (by rw [h.left, h.right]; exact h'.agree)

theorem left_above (h : Together L R f g u f' g') (fs : List (Frame α)) :
    L.run (.active f fs) u = .active f' fs :=
  System.run_alone h.left fs

theorem right_above (h : Together L R f g u f' g') (gs : List (Frame α)) :
    R.run (.active g gs) u = .active g' gs :=
  System.run_alone h.right gs

theorem agree_above (h : Together L R f g u f' g') (fs gs : List (Frame α)) :
    Agree L R (.active f fs) (.active g gs) u := by
  intro v hv
  obtain ⟨k, ks, hl⟩ := System.exists_active_of_prefix h.left hv
  obtain ⟨m, ms, hr⟩ := System.exists_active_of_prefix h.right hv
  have := h.agree v hv
  rw [hl, hr] at this
  rw [System.run_alone hl, System.run_alone hr]
  exact this

theorem last (h : Together L R f g u f' g') : L.frameAccepts f' = R.frameAccepts g' := by
  have := h.agree.last
  rwa [h.left, h.right] at this

end Together

variable (L R) in
/-- The procedures of `c` in both systems read `t` together from their entries and can return then. -/
def Ends (c : α) (t : List α) : Prop :=
  ∃ p q f g f' g', L.entry? c = some p ∧ R.entry? c = some q ∧
    Together L R ⟨c, p⟩ ⟨c, q⟩ t f g ∧ L.advance f L.alphabet.ret = some f' ∧
    R.advance g R.alphabet.ret = some g'

namespace Together

variable {f g f' g' : Frame α} {a : α}

theorem internal (h : L.frameAccepts f = R.frameAccepts g)
    (hl : L.alphabet.kind? a = some .internal) (hr : R.alphabet.kind? a = some .internal)
    (hf : L.advance f a = some f') (hg : R.advance g a = some g') :
    Together L R f g [a] f' g' where
  left := System.step_internal hl hf []
  right := System.step_internal hr hg []
  agree := .cons h <| by
    rw [System.step_internal hl hf, System.step_internal hr hg]
    exact .nil ((System.frameAccepts_advance hf).trans (System.frameAccepts_advance hg).symm)

/-- A whole invocation of a procedure that ends in both systems is one step of the callers. -/
theorem invocation (h : L.frameAccepts f = R.frameAccepts g) (hA : L.alphabet = R.alphabet)
    (ha : L.alphabet.kind? a = some .call) {t : List α} (ht : Ends L R a t)
    (hf : L.advance f a = some f') (hg : R.advance g a = some g') :
    Together L R f g (a :: t ++ [L.alphabet.ret]) f' g' := by
  obtain ⟨p, q, e, k, e', k', hp, hq, htog, he, hk⟩ := ht
  have hr : R.alphabet.kind? a = some .call := hA ▸ ha
  have hle := htog.left_above [f']
  have hre := htog.right_above [g']
  have hacc := (System.frameAccepts_advance hf).trans (System.frameAccepts_advance hg).symm
  rw [List.cons_append]
  refine ⟨?_, ?_, .cons h ?_⟩
  · rw [System.run_cons, System.step_call ha hp hf, System.run_append, hle, System.run_cons,
      System.step_ret he]
    rfl
  · rw [System.run_cons, System.step_call hr hq hg, System.run_append, hre, System.run_cons, hA,
      System.step_ret hk]
    rfl
  · rw [System.step_call ha hp hf, System.step_call hr hq hg]
    apply (htog.agree_above [f'] [g']).append
    rw [hle, hre]
    refine .cons htog.last ?_
    rw [System.step_ret he, hA, System.step_ret hk]
    exact .nil hacc

end Together

end BehavioralAutomata.Separation
