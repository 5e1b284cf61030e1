import BehavioralAutomata.Proofs.Learning.HypothesisSearch
import BehavioralAutomata.Proofs.Learning.Scans
import Mathlib.Data.List.Induction

/-!
# What is known after many words

* `SequenceStore.scanned_first`: the first sequences that any words show, and what one more word shows.
* `SequenceStore.scanned_shortest`: the shortest sequences that they show. A store that prefers these finds
  the same calls as any other one.
-/

namespace BehavioralAutomata.SequenceStore

variable {α : Type} [DecidableEq α]

/-- What is known after the words of a list, one after the other. -/
def scanned (A : Alphabet α) (preference : Preference) (ws : List (List α)) : SequenceStore α :=
  ws.foldl (fun S w => (S.scan w).2) (.empty A preference)

theorem scanned_append_singleton (A : Alphabet α) (preference : Preference) (ws : List (List α))
    (w : List α) :
    scanned A preference (ws ++ [w]) = ((scanned A preference ws).scan w).2 := by
  rw [scanned, List.foldl_append, List.foldl_cons, List.foldl_nil, ← scanned]

theorem scanned_eq (A : Alphabet α) (preference : Preference) (ws : List (List α)) :
    scanned A preference ws = {
      alphabet := A
      preference
      access := (∅ : AssocMap α (List α)).enter (ws.flatMap A.accesses)
      terminating := (scanned A preference ws).terminating } := by
  induction ws using List.reverseRecOn with
  | nil => rfl
  | append_singleton ws w ih =>
    rw [scanned_append_singleton]
    refine (scan_snd _ w).trans ?_
    rw [ih, List.flatMap_append, List.flatMap_singleton, AssocMap.enter_append]

theorem terminating_scanned_first (A : Alphabet α) (ws : List (List α)) :
    (scanned A .first ws).terminating = (∅ : AssocMap α (List α)).enter (ws.flatMap A.bodies) := by
  induction ws using List.reverseRecOn with
  | nil => rfl
  | append_singleton ws w ih =>
    rw [scanned_append_singleton, scan_of_first (by rw [scanned_eq]), List.flatMap_append,
      List.flatMap_singleton, AssocMap.enter_append, ← ih, noting, scanned_eq]

theorem access_scanned (A : Alphabet α) (preference : Preference) (ws : List (List α)) :
    (scanned A preference ws).access = (∅ : AssocMap α (List α)).enter (ws.flatMap A.accesses) := by
  rw [scanned_eq]

theorem get?_access_scanned (A : Alphabet α) (preference : Preference) (ws : List (List α)) (c : α) :
    (scanned A preference ws).access.get? c = (ws.flatMap A.accesses).lookup c := by
  rw [scanned_eq, AssocMap.get?_enter, AssocMap.get?_empty, Option.none_or]

theorem get?_terminating_scanned_first (A : Alphabet α) (ws : List (List α)) (c : α) :
    (scanned A .first ws).terminating.get? c = (ws.flatMap A.bodies).lookup c := by
  rw [terminating_scanned_first, AssocMap.get?_enter, AssocMap.get?_empty, Option.none_or]

theorem get?_terminating_scanned_shortest (A : Alphabet α) (ws : List (List α)) (c : α) :
    (scanned A .shortest ws).terminating.get? c =
      (ws.flatMap fun w => ((A.bodies w).filter (·.1 = c)).map Prod.snd).argmin List.length := by
  induction ws using List.reverseRecOn with
  | nil => rfl
  | append_singleton ws w ih =>
    have hA : (scanned A .shortest ws).alphabet = A := by rw [scanned_eq]
    rw [scanned_append_singleton, get?_scan_of_shortest (by rw [scanned_eq]), hA, ih,
      ← argmin_append, List.flatMap_append, List.flatMap_singleton]

/-- Whatever is preferred, the same calls have terminating sequences. -/
theorem contains_terminating_scanned (A : Alphabet α) (preference : Preference)
    (ws : List (List α)) (c : α) :
    (scanned A preference ws).terminating.contains c = ((ws.flatMap A.bodies).lookup c).isSome := by
  induction ws using List.reverseRecOn with
  | nil => rfl
  | append_singleton ws w ih =>
    have hA : (scanned A preference ws).alphabet = A := by rw [scanned_eq]
    rw [scanned_append_singleton, contains_terminating_scan, AssocMap.contains_enter, ih, hA,
      List.flatMap_append, List.flatMap_singleton, List.lookup_append, Option.isSome_or]

/-- The first sequences of any words, and the calls for which one more word shows one. -/
theorem scanned_first (A : Alphabet α) (ws : List (List α)) :
    (∀ c, (scanned A .first ws).access.get? c = (ws.flatMap A.accesses).lookup c ∧
      (scanned A .first ws).terminating.get? c = (ws.flatMap A.bodies).lookup c) ∧
    (∀ c, (scanned A .first ws).access.get? c ≠ none ↔
      ∃ w ∈ ws, ∃ i : Nat, w[i]? = some c ∧ A.isCall c = true) ∧
    (∀ c, (scanned A .first ws).terminating.get? c ≠ none ↔
      ∃ w ∈ ws, ∃ i j : Nat, w[i]? = some c ∧ A.isCall c = true ∧ A.findReturn? w (i + 1) = some j) ∧
    (∀ c t, (scanned A .first ws).terminating.get? c = some t → A.pending? t = some 0) ∧
    ∀ w d S, (scanned A .first ws).scan w = (d, S) → S = scanned A .first (ws ++ [w]) ∧
      d.calls = ((A.accesses w).map Prod.fst).eraseDups.filter
        (!(scanned A .first ws).access.contains ·) ∧
      d.terminations = ((A.bodies w).map Prod.fst).eraseDups.filter
        (!(scanned A .first ws).terminating.contains ·) ∧
      (∀ c, c ∈ d.calls ↔
        (scanned A .first ws).access.get? c = none ∧ S.access.get? c ≠ none) ∧
      (∀ c, c ∈ d.terminations ↔
        (scanned A .first ws).terminating.get? c = none ∧ S.terminating.get? c ≠ none) ∧
      d.calls.Nodup ∧ d.terminations.Nodup := by
  have hA : (scanned A .first ws).alphabet = A := by rw [scanned_eq]
  have hfirst : (scanned A .first ws).preference = .first := by rw [scanned_eq]
  refine ⟨fun c => ⟨get?_access_scanned A .first ws c, get?_terminating_scanned_first A ws c⟩,
    fun c => ?_, fun c => ?_, fun c t ht => ?_, fun w d S h => ?_⟩
  · simp only [get?_access_scanned, AssocMap.lookup_ne_none_iff, List.mem_flatMap,
      Alphabet.mem_accesses_iff]
    grind
  · simp only [get?_terminating_scanned_first, AssocMap.lookup_ne_none_iff, List.mem_flatMap,
      Alphabet.mem_bodies_iff]
    grind
  · rw [get?_terminating_scanned_first] at ht
    obtain ⟨es, fs, h, _⟩ := List.lookup_eq_some_iff.1 ht
    obtain ⟨w, _, hw⟩ := List.mem_flatMap.1 (h ▸ List.mem_append_right es List.mem_cons_self)
    obtain ⟨_, _, _, _, hbalanced⟩ := Alphabet.mem_bodies_iff_append.1 hw
    exact hbalanced
  · have hS : S = scanned A .first (ws ++ [w]) := by rw [scanned_append_singleton, h]
    rw [scan_of_first hfirst, hA] at h
    cases h
    exact ⟨hS, rfl, rfl, fun _ => AssocMap.mem_newKeys_iff, fun _ => AssocMap.mem_newKeys_iff,
      AssocMap.nodup_newKeys .., AssocMap.nodup_newKeys ..⟩

/-- If short sequences are preferred, the same calls are found, the access sequences are the same, and the
terminating sequence of a call is the first one of the shortest bodies of its invocations. A search
of hypotheses answers the calls for which it has found a first or a shorter sequence. -/
theorem scanned_shortest (A : Alphabet α) :
    (∀ ws, (scanned A .shortest ws).access = (scanned A .first ws).access ∧
      (∀ w, ((scanned A .shortest ws).scan w).1 = ((scanned A .first ws).scan w).1) ∧
      ∀ c, (scanned A .shortest ws).terminating.get? c =
        (ws.flatMap fun w => ((A.bodies w).filter (·.1 = c)).map Prod.snd).argmin List.length) ∧
    ∀ (S S' : SequenceStore α) hypotheses representative? inputs out,
      S.scanHypotheses hypotheses representative? inputs = (out, S') →
      S'.access = S.access ∧ out.Nodup ∧ ∀ c,
        (c ∈ out ↔ S'.terminating.get? c ≠ S.terminating.get? c) ∧
        (c ∈ out → Bettered (S.terminating.get? c) (S'.terminating.get? c)) := by
  refine ⟨fun ws => ⟨?_, fun w => ?_, get?_terminating_scanned_shortest A ws⟩, ?_⟩
  · rw [access_scanned, access_scanned]
  · have hA : ∀ preference, (scanned A preference ws).alphabet = A := fun _ => by rw [scanned_eq]
    have hsame : ∀ c, (scanned A .shortest ws).terminating.contains c =
        (scanned A .first ws).terminating.contains c := fun c => by
      rw [contains_terminating_scanned, contains_terminating_scanned]
    rw [scan_fst, scan_fst, hA, hA, news, news, access_scanned, access_scanned,
      AssocMap.newKeys_congr hsame]
  · intro S S' hypotheses representative? inputs out h
    obtain ⟨hnodup, hbetters⟩ := S.scanHypotheses_betters hypotheses representative? inputs
    rw [h] at hnodup hbetters
    exact ⟨hbetters.access, hnodup, fun c => ⟨hbetters.changed_iff c, hbetters.bettered c⟩⟩

end BehavioralAutomata.SequenceStore
