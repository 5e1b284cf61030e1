import BehavioralAutomata.Learning.SequenceStore
import Mathlib.Logic.Basic

/-!
# What searching hypotheses changes

* `SequenceStore.Betters`: some terminating sequences are new or shorter, and nothing else is changed.
* `SequenceStore.scanHypotheses_betters`: searching hypotheses is of that kind, and answers for which calls
  there is a change.
-/

namespace BehavioralAutomata.SequenceStore

variable {α : Type} [DecidableEq α]

/-- A first sequence has come in, or one that is shorter than what was there. -/
def Bettered (before after : Option (List α)) : Prop :=
  ∃ t, after = some t ∧ ∀ u, before = some u → t.length < u.length

omit [DecidableEq α] in
theorem Bettered.trans {x y z : Option (List α)} (h : Bettered x y) (h' : Bettered y z) :
    Bettered x z := by
  obtain ⟨t, rfl, ht⟩ := h
  obtain ⟨t', rfl, ht'⟩ := h'
  exact ⟨t', rfl, fun u hu => Nat.lt_trans (ht' t rfl) (ht u hu)⟩

omit [DecidableEq α] in
theorem Bettered.ne {x y : Option (List α)} (h : Bettered x y) : y ≠ x := by
  obtain ⟨t, rfl, ht⟩ := h
  rintro rfl
  exact Nat.lt_irrefl _ (ht t rfl)

/-- The terminating sequences of some calls are new or shorter, and nothing else is changed. -/
structure Betters (S S' : SequenceStore α) (changed : α → Prop) : Prop where
  rest : S' = { S with terminating := S'.terminating }
  bettered : ∀ c, changed c → Bettered (S.terminating.get? c) (S'.terminating.get? c)
  kept : ∀ c, ¬ changed c → S'.terminating.get? c = S.terminating.get? c

namespace Betters

variable {S S' S'' : SequenceStore α} {changed changed' : α → Prop}

theorem refl (S : SequenceStore α) : Betters S S fun _ => False :=
  ⟨rfl, fun _ h => h.elim, fun _ _ => rfl⟩

theorem trans (h : Betters S S' changed) (h' : Betters S' S'' changed') :
    Betters S S'' fun c => changed c ∨ changed' c where
  rest := by
    rw [h'.rest, h.rest]
  bettered c hc := by
    -- a sequence that was changed twice is shorter than the first one
    by_cases h₁ : changed c
    · by_cases h₂ : changed' c
      · exact (h.bettered c h₁).trans (h'.bettered c h₂)
      · rw [h'.kept c h₂]
        exact h.bettered c h₁
    · rw [← h.kept c h₁]
      exact h'.bettered c (hc.resolve_left h₁)
  kept c hc := (h'.kept c fun h₂ => hc (.inr h₂)).trans (h.kept c fun h₁ => hc (.inl h₁))

theorem congr (h : Betters S S' changed) (hiff : ∀ c, changed c ↔ changed' c) :
    Betters S S' changed' :=
  ⟨h.rest, fun c hc => h.bettered c ((hiff c).2 hc), fun c hc => h.kept c (mt (hiff c).1 hc)⟩

theorem access (h : Betters S S' changed) : S'.access = S.access := by
  rw [h.rest]

theorem mem_keys_iff (h : Betters S S' changed) {c : α} :
    c ∈ S'.terminating.keys ↔ c ∈ S.terminating.keys ∨ changed c := by
  by_cases hc : changed c
  · obtain ⟨t, ht, _⟩ := h.bettered c hc
    exact iff_of_true (AssocMap.mem_keys_iff.2 ⟨t, ht⟩) (.inr hc)
  · rw [AssocMap.mem_keys_iff, AssocMap.mem_keys_iff, h.kept c hc, or_iff_left hc]

theorem changed_iff (h : Betters S S' changed) (c : α) :
    changed c ↔ S'.terminating.get? c ≠ S.terminating.get? c :=
  ⟨fun hc => (h.bettered c hc).ne, fun hne => by_contra fun hc => hne (h.kept c hc)⟩

end Betters

theorem offer_betters (S : SequenceStore α) (c : α) (H : Acceptor (LocalSymbol α))
    (ret : LocalSymbol α) (w : List (LocalSymbol α)) :
    Betters S (S.offer c H ret w).2 fun d => (S.offer c H ret w).1 = true ∧ d = c := by
  have hidle : Betters S S fun d => false = true ∧ d = c :=
    (Betters.refl S).congr fun d => by simp
  rw [offer]
  split
  · split
    · next t _ =>
      split
      · next himproves =>
        refine ⟨rfl, fun d hd => ⟨t, ?_, fun u hu => ?_⟩, fun d hd => ?_⟩
        · rw [hd.2, AssocMap.get?_insert, if_pos rfl]
        · rw [hd.2] at hu
          simpa [improves, hu] using himproves
        · rw [AssocMap.get?_insert, if_neg fun hdc => hd ⟨rfl, hdc⟩]
      · exact hidle
    · exact hidle
  · exact hidle

theorem scanHypothesis_betters (S : SequenceStore α) (c : α) (H : Acceptor (LocalSymbol α))
    (representative : List (LocalSymbol α) → List (LocalSymbol α))
    (inputs : List (LocalSymbol α)) (ret : LocalSymbol α) :
    Betters S (S.scanHypothesis c H representative inputs ret).2
      fun d => (S.scanHypothesis c H representative inputs ret).1 = true ∧ d = c := by
  rw [scanHypothesis]
  refine List.foldlRecOn
    (motive := fun x : Bool × SequenceStore α => Betters S x.2 fun d => x.1 = true ∧ d = c) _ _
    ((Betters.refl S).congr fun d => by simp) ?_
  rintro ⟨used, S₁⟩ h₁ w _
  refine (h₁.trans (S₁.offer_betters c H ret (representative w))).congr fun d => ?_
  simp only [Bool.or_eq_true, or_and_right]

/-- The search answers the calls whose terminating sequences it has changed, each once. -/
theorem scanHypotheses_betters (S : SequenceStore α)
    (hypotheses : List (α × Acceptor (LocalSymbol α)))
    (representative? : α → Option (List (LocalSymbol α) → List (LocalSymbol α)))
    (inputs : List (LocalSymbol α)) :
    (S.scanHypotheses hypotheses representative? inputs).1.Nodup ∧
      Betters S (S.scanHypotheses hypotheses representative? inputs).2
        (· ∈ (S.scanHypotheses hypotheses representative? inputs).1) := by
  have hidle : Betters S S (· ∈ []) := (Betters.refl S).congr fun d => by simp
  rw [scanHypotheses.eq_def]
  split
  · next ret _ _ =>
    refine List.foldlRecOn
      (motive := fun x : List α × SequenceStore α => x.1.Nodup ∧ Betters S x.2 (· ∈ x.1)) _ _
      ⟨List.nodup_nil, hidle⟩ ?_
    rintro ⟨out, S₁⟩ ⟨hnodup, h₁⟩ ⟨c, H⟩ _
    cases hrep : representative? c with
    | none => simpa only [hrep] using ⟨hnodup, h₁⟩
    | some representative =>
      simp only [hrep]
      have h₂ := S₁.scanHypothesis_betters c H representative inputs ret
      constructor
      · split
        · next hnew =>
          have hc : c ∉ out := by simpa using (Bool.and_eq_true_iff.1 hnew).2
          refine List.nodup_append.2 ⟨hnodup, by simp, fun d hd e he hde => hc ?_⟩
          rwa [← List.mem_singleton.1 he, ← hde]
        · exact hnodup
      · refine (h₁.trans h₂).congr fun d => ?_
        split <;> grind
  · exact ⟨List.nodup_nil, hidle⟩

end BehavioralAutomata.SequenceStore
