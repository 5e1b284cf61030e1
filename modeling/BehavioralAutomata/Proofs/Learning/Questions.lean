import BehavioralAutomata.Learning.Embedding
import BehavioralAutomata.Proofs.Learning.LocalLanguage

/-!
# Local questions

* `SequenceStore.Genuine`: the access sequences of a store enter their procedures, and its terminating
  sequences can be read by theirs before they return.
* `System.Replaces`: a word of the system is judged as a local word of a procedure is.
* `SequenceStore.askLocal_eq`: an oracle for the system, asked through a genuine store, answers what the
  procedure says to the local word.
-/

namespace BehavioralAutomata

variable {α : Type} {β : Type} [DecidableEq α] [DecidableEq β] {T : System α β}

/-- The oracle that simulates a system. -/
def System.oracle (T : System α β) (w : List α) : Except (LearningError α) Bool :=
  .ok (T.accepts w)

theorem System.oracle_eq (T : System α β) (w : List α) : T.oracle w = pure (T.accepts w) := rfl

namespace SequenceStore

/-- The sequences are what they are meant to be in the system `T`. -/
structure Genuine (S : SequenceStore α) (T : System α β) : Prop where
  alphabet : S.alphabet = T.alphabet
  access : ∀ c u, S.access.get? c = some u → T.alphabet.kind? c = some .call ∧
    ∃ q fs, T.entry? c = some q ∧ T.reached (u ++ [c]) = .active ⟨c, q⟩ fs
  terminating : ∀ c t, S.terminating.get? c = some t →
    T.alphabet.kind? c = some .call ∧ T.Returns c t

/-- The local word can be put to the oracle: its symbols are of the kinds that they say, and its usable
calls have terminating sequences. -/
structure Askable (S : SequenceStore α) (w : List (LocalSymbol α)) : Prop where
  proper : ∀ l ∈ w, l.Proper S.alphabet
  usable : ∀ c, .call c true ∈ w → c ∈ S.terminating.keys

theorem Askable.tail {S : SequenceStore α} {l : LocalSymbol α} {w : List (LocalSymbol α)}
    (h : S.Askable (l :: w)) : S.Askable w :=
  ⟨fun x hx => h.proper x (List.mem_cons_of_mem _ hx),
    fun c hc => h.usable c (List.mem_cons_of_mem _ hc)⟩

end SequenceStore

/-! ## Words that replace local words -/

namespace System

/-- The word that replaces the local word `w`, if there is one, is judged as `w` is, above every stack
whose frames accept. -/
def Replaces (T : System α β) (r : Option (List α)) (w : List (LocalSymbol α)) : Prop :=
  ∀ f fs, (∀ g ∈ fs, T.frameAccepts g = true) →
    r.elim false (fun v => T.isAccepting (T.run (.active f fs) v)) = T.localVerdict f w

variable {r : Option (List α)} {w : List (LocalSymbol α)}

/-- A word that is one step of a frame can be put in front of what follows this step. -/
theorem Replaces.step (h : T.Replaces r w) {a : α} {x : List α}
    (hx : ∀ f g fs, T.advance f a = some g → T.run (.active f fs) (a :: x) = .active g fs)
    (f : Frame α) (fs : List (Frame α)) (hfs : ∀ g ∈ fs, T.frameAccepts g = true) :
    (r.map (a :: x ++ ·)).elim false (fun v => T.isAccepting (T.run (.active f fs) v)) =
      (T.advance f a).any (T.localVerdict · w) := by
  cases hm : T.advance f a with
  | none =>
    cases r with
    | none => rfl
    | some v =>
      rw [Option.map_some, Option.elim_some, List.cons_append, run_cons, step_eq_dead hm, run_dead]
      rfl
  | some g =>
    have := h g fs hfs
    cases r with
    | none => exact this
    | some v =>
      rw [Option.map_some, Option.elim_some, run_append, hx f g fs hm]
      exact this

theorem Replaces.internal (h : T.Replaces r w) {a : α} (ha : T.alphabet.kind? a = some .internal) :
    T.Replaces (r.map (a :: ·)) (.internal a :: w) := by
  apply h.step (a := a) (x := [])
  intro f g fs hm
  rw [run_cons, step_internal ha hm]
  rfl

theorem Replaces.call (h : T.Replaces r w) {c : α} {t : List α}
    (hc : T.alphabet.kind? c = some .call) (ht : T.Returns c t) :
    T.Replaces (r.map ([c] ++ t ++ [T.alphabet.ret] ++ ·)) (.call c true :: w) :=
  h.step (a := c) (x := t ++ [T.alphabet.ret]) fun _ _ fs hm => run_call_return hc ht hm fs

theorem replaces_unusable {c : α} (hc : T.alphabet.kind? c = some .call) :
    T.Replaces (some [c]) [.call c false] := by
  intro f fs hfs
  rw [Option.elim_some, run_cons, run_nil, localVerdict, enters]
  cases hm : T.advance f c with
  | none =>
    rw [step_eq_dead hm]
    rfl
  | some g =>
    cases he : T.entry? c with
    | none =>
      have hdead : T.step (.active f fs) c = .dead := by simp [System.step, hc, he]
      rw [hdead]
      rfl
    | some q =>
      rw [step_call hc he hm]
      rfl

theorem replaces_ret : T.Replaces (some [T.alphabet.ret]) [.ret T.alphabet.ret] := by
  intro f fs hfs
  rw [Option.elim_some, run_cons, run_nil, localVerdict]
  cases hm : T.advance f T.alphabet.ret with
  | none =>
    rw [step_eq_dead hm]
    rfl
  | some g =>
    rw [step_ret hm, isAccepting_of_ret hfs]
    rfl

/-- Nothing can follow an unusable call or a return. -/
theorem replaces_none {l x : LocalSymbol α} (hl : l.isReturn = true ∨ ∃ c, l = .call c false) :
    T.Replaces none (l :: x :: w) := by
  intro f fs _
  rcases hl with hl | ⟨c, rfl⟩
  · cases l with
    | ret a => rfl
    | internal a => cases hl
    | call c usable => cases hl
  · rfl

end System

namespace SequenceStore

theorem invocations_eq {S : SequenceStore α} (hS : S.Genuine T) {w : List (LocalSymbol α)}
    (hw : S.Askable w) : ∃ r, S.invocations w = .ok r ∧ T.Replaces r w := by
  induction w with
  | nil => exact ⟨some [], rfl, fun f fs _ => rfl⟩
  | cons l w ih =>
    obtain ⟨r, hr, hreplaces⟩ := ih hw.tail
    have hproper := hw.proper l List.mem_cons_self
    rw [LocalSymbol.Proper, hS.alphabet] at hproper
    cases l with
    | internal a => exact ⟨_, by rw [invocations, hr]; rfl, hreplaces.internal hproper⟩
    | call c usable =>
      cases usable with
      | true =>
        obtain ⟨t, ht⟩ := AssocMap.mem_keys_iff.1 (hw.usable c List.mem_cons_self)
        refine ⟨_, ?_, hreplaces.call hproper (hS.terminating c t ht).2⟩
        rw [invocations, terminatingSequence, ht, hr, ← hS.alphabet]
        rfl
      | false =>
        cases w with
        | cons x w => exact ⟨none, rfl, System.replaces_none (.inr ⟨c, rfl⟩)⟩
        | nil => exact ⟨some [c], rfl, System.replaces_unusable hproper⟩
    | ret a =>
      obtain rfl := Alphabet.kind?_eq_ret_iff.1 hproper
      cases w with
      | cons x w => exact ⟨none, rfl, System.replaces_none (.inl rfl)⟩
      | nil => exact ⟨some [T.alphabet.ret], rfl, System.replaces_ret⟩

/-- What the oracle answers to a local question. -/
theorem askLocal_eq {m : Type → Type} [Monad m] [MonadExceptOf (LearningError α) m]
    {ask : List α → m Bool} (hask : ∀ v, ask v = pure (T.accepts v)) {S : SequenceStore α}
    (hS : S.Genuine T) {c : α} (hc : c ∈ S.access.keys) {w : List (LocalSymbol α)}
    (hw : S.Askable w) : S.askLocal ask c w = pure (T.localLanguage c w) := by
  obtain ⟨u, hu⟩ := AssocMap.mem_keys_iff.1 hc
  obtain ⟨_, q, fs, hq, hreached⟩ := hS.access c u hu
  obtain ⟨r, hr, hreplaces⟩ := invocations_eq hS hw
  have hfs : ∀ g ∈ fs, T.frameAccepts g = true := by
    have := System.settled_reached (S := T) (u ++ [c])
    rwa [hreached] at this
  have hembed : S.embed c w = .ok (r.map (u ++ [c] ++ ·)) := by
    rw [embed, accessSequence, hu, hr]
    rfl
  have hlocal := hreplaces ⟨c, q⟩ fs hfs
  rw [askLocal, hembed, System.localLanguage_eq hq, ← hlocal]
  cases r with
  | none => rfl
  | some v =>
    change ask (u ++ [c] ++ v) = _
    rw [hask, System.accepts, System.reached_append, hreached]
    rfl

end SequenceStore

end BehavioralAutomata
