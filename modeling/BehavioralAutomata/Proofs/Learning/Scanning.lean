import BehavioralAutomata.Proofs.Learning.Questions
import BehavioralAutomata.Proofs.Learning.Scans
import BehavioralAutomata.Proofs.System.Nesting
import Mathlib.Logic.Relation

/-!
# What accepted words show

* `SequenceStore.Records`: what scanning adds to a store and to the list of first sequences.
* `SequenceStore.scan_records`: a scanned word leaves an access sequence of each of its calls and a
  terminating sequence of every call whose invocation ends in it, whatever the word is.
* `SequenceStore.Shown`, `SequenceStore.scan_shown`: the sequences are taken from the word one by one.
* `SequenceStore.scan_spec`: a word that the system reads keeps the store genuine.
-/

namespace BehavioralAutomata

variable {α : Type} {β : Type} [DecidableEq α] [DecidableEq β] {T : System α β}

namespace SequenceStore

/-! ## What is added -/

/-- The sequences that a store has in addition to another one are those of the new discoveries. -/
structure Records (S S' : SequenceStore α) (d d' : Discoveries α) : Prop where
  alphabet : S'.alphabet = S.alphabet
  preference : S'.preference = S.preference
  access : ∃ new, d'.calls = d.calls ++ new ∧ new.Nodup ∧ (∀ c ∈ new, c ∉ S.access.keys) ∧
    ∀ c, c ∈ S'.access.keys ↔ c ∈ S.access.keys ∨ c ∈ new
  terminating : ∃ new, d'.terminations = d.terminations ++ new ∧
    ∀ c, c ∈ S'.terminating.keys ↔ c ∈ S.terminating.keys ∨ c ∈ new

namespace Records

variable {S S' : SequenceStore α} {d d' : Discoveries α}

omit [DecidableEq α] in
theorem access_mono (h : Records S S' d d') {c : α} (hc : c ∈ S.access.keys) :
    c ∈ S'.access.keys := by
  obtain ⟨new, _, _, _, hmem⟩ := h.access
  exact (hmem c).2 (.inl hc)

omit [DecidableEq α] in
theorem terminating_mono (h : Records S S' d d') {c : α} (hc : c ∈ S.terminating.keys) :
    c ∈ S'.terminating.keys := by
  obtain ⟨new, _, hmem⟩ := h.terminating
  exact (hmem c).2 (.inl hc)

end Records

/-- What a scanned word leaves. -/
theorem scan_records {S : SequenceStore α} {w : List α} {S' : SequenceStore α} {d : Discoveries α}
    (hscan : S.scan w = (d, S')) :
    Records S S' ⟨[], []⟩ d ∧ (∀ c ∈ w, S.alphabet.kind? c = some .call → c ∈ S'.access.keys) ∧
      ∀ c, S.alphabet.kind? c = some .call → S.alphabet.Invokes w c → c ∈ S'.terminating.keys := by
  have hfound := S.scan_fst w
  have hstore := S.scan_snd w
  have hknown := S.contains_terminating_scan w
  rw [hscan] at hfound hstore hknown
  dsimp only at hfound hstore hknown
  have haccess : S'.access = S.access.enter (S.alphabet.accesses w) := by rw [hstore]
  have hterminating : ∀ c, c ∈ S'.terminating.keys ↔
      c ∈ (S.terminating.enter (S.alphabet.bodies w)).keys := fun c => by
    rw [← AssocMap.contains_iff, hknown, AssocMap.contains_iff]
  subst hfound
  refine ⟨⟨by rw [hstore], by rw [hstore], ?_, ?_⟩, fun c hc hk => ?_, fun c hk hinvokes => ?_⟩
  · refine ⟨_, (List.nil_append _).symm, AssocMap.nodup_newKeys .., fun c hc => ?_, fun c => ?_⟩
    · exact AssocMap.get?_eq_none_iff.1 (AssocMap.mem_newKeys_iff.1 hc).1
    · rw [haccess]
      exact AssocMap.mem_keys_enter_iff_newKeys
  · refine ⟨_, (List.nil_append _).symm, fun c => ?_⟩
    rw [hterminating]
    exact AssocMap.mem_keys_enter_iff_newKeys
  · obtain ⟨u, v, rfl⟩ := List.append_of_mem hc
    rw [haccess, AssocMap.mem_keys_enter]
    exact .inr ⟨u, Alphabet.mem_accesses_iff_append.2 ⟨Alphabet.isCall_iff.2 hk, v, rfl⟩⟩
  · rw [hterminating, AssocMap.mem_keys_enter]
    exact .inr ((Alphabet.invokes_iff (Alphabet.isCall_iff.2 hk)).1 hinvokes)

/-! ## One sequence at a time -/

/-- A sequence of the word `w` is recorded: an access sequence where there was none, or a terminating
sequence where there was none or a longer one that the store does not prefer. -/
inductive Shown (w : List α) : SequenceStore α → SequenceStore α → Prop where
  | access {S : SequenceStore α} {u v : List α} {c : α} (split : w = u ++ c :: v)
      (call : S.alphabet.kind? c = some .call) (fresh : c ∉ S.access.keys) :
      Shown w S { S with access := S.access.insert c u }
  | terminating {S : SequenceStore α} {u t v : List α} {c : α}
      (split : w = u ++ c :: (t ++ S.alphabet.ret :: v)) (call : S.alphabet.kind? c = some .call)
      (balanced : S.alphabet.Balanced t)
      (better : c ∉ S.terminating.keys ∨ S.preference = .shortest ∧ S.improves c t.length = true) :
      Shown w S { S with terminating := S.terminating.insert c t }

open Relation (ReflTransGen)

/-- Neither the alphabet nor the preference is changed by what is shown. -/
theorem same_of_shown {S S' : SequenceStore α} {w : List α} (h : ReflTransGen (Shown w) S S') :
    S'.alphabet = S.alphabet ∧ S'.preference = S.preference := by
  induction h with
  | refl => exact ⟨rfl, rfl⟩
  | tail _ hstep ih =>
    cases hstep with
    | access => exact ih
    | terminating => exact ih

/-- Sequences are recorded for calls only. -/
theorem isCall_of_shown {S S' : SequenceStore α} {w : List α} {A : Alphabet α} (hA : S.alphabet = A)
    (haccess : ∀ c ∈ S.access.keys, A.kind? c = some .call)
    (hterminating : ∀ c ∈ S.terminating.keys, A.kind? c = some .call)
    (h : ReflTransGen (Shown w) S S') : (∀ c ∈ S'.access.keys, A.kind? c = some .call) ∧
      ∀ c ∈ S'.terminating.keys, A.kind? c = some .call := by
  induction h with
  | refl => exact ⟨haccess, hterminating⟩
  | tail hsteps hstep ih =>
    obtain ⟨ha, ht⟩ := ih
    have hA' := (same_of_shown hsteps).1.trans hA
    cases hstep with
    | access _ hc _ =>
      refine ⟨fun e he => ?_, ht⟩
      rcases AssocMap.mem_keys_insert.1 he with rfl | he
      · exact hA' ▸ hc
      · exact ha e he
    | terminating _ hc _ _ =>
      refine ⟨ha, fun e he => ?_⟩
      rcases AssocMap.mem_keys_insert.1 he with rfl | he
      · exact hA' ▸ hc
      · exact ht e he

theorem shown_of_accesses {S : SequenceStore α} {w : List α} {es : List (α × List α)}
    (h : ∀ e ∈ es, e ∈ S.alphabet.accesses w) : ReflTransGen (Shown w) S (S.noting es []) := by
  induction es generalizing S with
  | nil => exact .refl
  | cons e es ih =>
    obtain ⟨c, u⟩ := e
    obtain ⟨hu, hes⟩ := List.forall_mem_cons.1 h
    have hrest : ReflTransGen (Shown w) (S.noting [(c, u)] []) (S.noting ((c, u) :: es) []) :=
      S.noting_noting [(c, u)] es [] [] ▸ ih hes
    refine .trans ?_ hrest
    obtain ⟨hc, v, hw⟩ := Alphabet.mem_accesses_iff_append.1 hu
    rw [noting, AssocMap.enter_singleton]
    split
    · exact .refl
    · next hnew =>
      have hfresh : c ∉ S.access.keys := fun hk => hnew (AssocMap.contains_iff.2 hk)
      exact .single (.access hw (Alphabet.isCall_iff.1 hc) hfresh)

theorem shown_of_bodies {S : SequenceStore α} {w : List α} {es : List (α × List α)}
    (h : ∀ e ∈ es, e ∈ S.alphabet.bodies w) : ReflTransGen (Shown w) S (S.noting [] es) := by
  induction es generalizing S with
  | nil => exact .refl
  | cons e es ih =>
    obtain ⟨c, t⟩ := e
    obtain ⟨ht, hes⟩ := List.forall_mem_cons.1 h
    have hrest : ReflTransGen (Shown w) (S.noting [] [(c, t)]) (S.noting [] ((c, t) :: es)) :=
      S.noting_noting [] [] [(c, t)] es ▸ ih hes
    refine .trans ?_ hrest
    obtain ⟨hc, u, v, hw, hbalanced⟩ := Alphabet.mem_bodies_iff_append.1 ht
    rw [noting, AssocMap.enter_singleton]
    split
    · exact .refl
    · next hnew =>
      have hfresh : c ∉ S.terminating.keys := fun hk => hnew (AssocMap.contains_iff.2 hk)
      exact .single (.terminating hw (Alphabet.isCall_iff.1 hc) hbalanced (.inl hfresh))

theorem shown_foldl_shorten {S : SequenceStore α} (hp : S.preference = .shortest) {w : List α}
    {es : List (α × List α)} (h : ∀ e ∈ es, e ∈ S.alphabet.bodies w) :
    ReflTransGen (Shown w) S (es.foldl shorten S) := by
  induction es generalizing S with
  | nil => exact .refl
  | cons e es ih =>
    obtain ⟨c, t⟩ := e
    obtain ⟨ht, hes⟩ := List.forall_mem_cons.1 h
    obtain ⟨hc, u, v, hw, hbalanced⟩ := Alphabet.mem_bodies_iff_append.1 ht
    rw [List.foldl_cons, shorten]
    split
    · next himproves =>
      refine .head (.terminating hw (Alphabet.isCall_iff.1 hc) hbalanced (.inr ⟨hp, himproves⟩)) ?_
      exact ih hp hes
    · exact ih hp hes

/-- A scan records sequences of the word one by one. -/
theorem scan_shown (S : SequenceStore α) (w : List α) :
    ReflTransGen (Shown w) S (S.scan w).2 := by
  have hfirst : ReflTransGen (Shown w) S
      (S.noting (S.alphabet.accesses w) (S.alphabet.bodies w)) := by
    have haccesses := shown_of_accesses (S := S) (w := w) fun e he => he
    have hbodies := shown_of_bodies (S := S.noting (S.alphabet.accesses w) []) (w := w)
      fun e he => he
    exact haccesses.trans hbodies
  cases hp : S.preference with
  | first =>
    rw [scan_of_first hp]
    exact hfirst
  | shortest =>
    rw [scan_of_shortest hp]
    have hshorter := shown_foldl_shorten (w := w)
      (S := S.noting (S.alphabet.accesses w) (S.alphabet.bodies w)) hp fun e he => he
    exact hfirst.trans hshorter

/-! ## Words that the system reads -/

theorem Genuine.insert_access {S : SequenceStore α} (hS : S.Genuine T) {c : α} {u : List α}
    (hc : T.alphabet.kind? c = some .call) (h : T.reached (u ++ [c]) ≠ .dead) :
    Genuine { S with access := S.access.insert c u } T where
  alphabet := hS.alphabet
  access e v he := by
    rw [AssocMap.get?_insert] at he
    split at he
    · next hec =>
      cases he
      subst hec
      exact ⟨hc, System.reached_call hc h⟩
    · exact hS.access e v he
  terminating := hS.terminating

theorem Genuine.insert_terminating {S : SequenceStore α} (hS : S.Genuine T) {c : α} {t : List α}
    (hc : T.alphabet.kind? c = some .call) (h : T.Returns c t) :
    Genuine { S with terminating := S.terminating.insert c t } T where
  alphabet := hS.alphabet
  access := hS.access
  terminating e v he := by
    rw [AssocMap.get?_insert] at he
    split at he
    · next hec =>
      cases he
      exact hec ▸ ⟨hc, h⟩
    · exact hS.terminating e v he

/-- What an invocation of a word that is read reads before it returns can be read by its procedure. -/
theorem returns_of_reached {u t v : List α} {c : α} (hc : T.alphabet.kind? c = some .call)
    (ht : T.alphabet.Balanced t) (h : T.reached (u ++ c :: (t ++ T.alphabet.ret :: v)) ≠ .dead) :
    T.Returns c t := by
  have hsplit : u ++ c :: (t ++ T.alphabet.ret :: v) =
      (u ++ [c]) ++ ((t ++ [T.alphabet.ret]) ++ v) := by simp
  rw [hsplit, System.reached_append] at h
  have hcall : T.reached (u ++ [c]) ≠ .dead := fun hd => h (by rw [hd, System.run_dead])
  obtain ⟨q, fs, hq, hreached⟩ := System.reached_call hc hcall
  rw [hreached, System.run_append] at h
  exact System.returns_of_balanced hq ht fun hd => h (by rw [hd, System.run_dead])

/-- A sequence of a word that the system reads is genuine. -/
theorem Shown.genuine {S S' : SequenceStore α} {w : List α} (h : Shown w S S')
    (hw : T.reached w ≠ .dead) (hS : S.Genuine T) : S'.Genuine T := by
  cases h with
  | @access u v c hsplit hc _ =>
    have hcall : T.reached (u ++ [c]) ≠ .dead := by
      intro hd
      rw [hsplit, List.append_cons, System.reached_append, hd, System.run_dead] at hw
      exact hw rfl
    exact hS.insert_access (hS.alphabet ▸ hc) hcall
  | @terminating u t v c hsplit hc ht _ =>
    rw [hS.alphabet] at hc ht hsplit
    exact hS.insert_terminating hc (returns_of_reached hc ht (hsplit ▸ hw))

/-- What a word that is read shows is recorded. -/
theorem scan_spec {S : SequenceStore α} (hS : S.Genuine T) {w : List α} (h : T.reached w ≠ .dead)
    {S' : SequenceStore α} {d : Discoveries α} (hscan : S.scan w = (d, S')) :
    S'.Genuine T ∧ Records S S' ⟨[], []⟩ d ∧
      (∀ c ∈ w, T.alphabet.kind? c = some .call → c ∈ S'.access.keys) ∧
      ∀ c, T.alphabet.kind? c = some .call → T.alphabet.Invokes w c →
        c ∈ S'.terminating.keys := by
  have hshown := S.scan_shown w
  rw [hscan] at hshown
  change ReflTransGen (Shown w) S S' at hshown
  have hgenuine : S'.Genuine T := by
    clear hscan
    induction hshown with
    | refl => exact hS
    | tail _ hstep ih => exact hstep.genuine h ih
  rw [← hS.alphabet]
  exact ⟨hgenuine, scan_records hscan⟩

end SequenceStore

end BehavioralAutomata
