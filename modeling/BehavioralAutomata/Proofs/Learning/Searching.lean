import BehavioralAutomata.Learning.SequenceStore
import BehavioralAutomata.Learning.LocalLearner
import BehavioralAutomata.Proofs.Acceptor.Exploration
import BehavioralAutomata.Proofs.Learning.HypothesisSearch
import BehavioralAutomata.Proofs.Learning.Scanning
import BehavioralAutomata.Proofs.Learning.TableRefinement

/-!
# Tables of procedures, and terminating sequences from them

* `Learns`: a closed table for the language of a procedure whose questions can be answered through a
  store.
* `SequenceStore.scanHypotheses_improves`: searching a hypothesis adds or replaces a terminating sequence
  of its procedure at most.
* `SequenceStore.scanHypotheses_genuine`: a terminating sequence that the hypothesis of such a table shows
  is one of the system, because the table has asked for the words in question.
-/

namespace BehavioralAutomata

variable {α : Type} {β : Type} [DecidableEq α] [DecidableEq β] {T : System α β}

/-- The limit of the tables is not below the number of local states of any procedure. -/
def LimitSuffices (T : System α β) (limit : Nat) : Prop :=
  ∀ c A, T.procedures.get? c = some A → A.acceptingCount + 2 ≤ limit

omit [DecidableEq β] in
theorem limitSuffices_iff {limit : Nat} :
    LimitSuffices T limit ↔ ∀ A ∈ T.procedures.values, A.acceptingCount + 2 ≤ limit := by
  constructor
  · intro h A hA
    obtain ⟨⟨c, A⟩, he, rfl⟩ := List.mem_map.1 hA
    exact h c A (AssocMap.get?_eq_some_iff.2 he)
  · intro h c A hA
    exact h A (AssocMap.mem_values_of_get? hA)

instance (T : System α β) (limit : Nat) : Decidable (LimitSuffices T limit) :=
  decidable_of_iff _ limitSuffices_iff.symm

/-- A closed table that learns the procedure of `c` by asking through the store `S`. -/
structure Learns (T : System α β) (S : SequenceStore α) (limit : Nat) (c : α)
    (l : ObservationTable (LocalSymbol α)) : Prop where
  closed : l.Closed (T.localLanguage c)
  experiments_subset : ∀ e ∈ l.experiments, e ⊆ l.alphabet
  askable : S.Askable l.alphabet
  limit : l.limit = limit
  access : c ∈ S.access.keys

namespace SequenceStore

theorem Askable.mono {S : SequenceStore α} {v w : List (LocalSymbol α)} (h : S.Askable w)
    (hvw : v ⊆ w) : S.Askable v :=
  ⟨fun l hl => h.proper l (hvw hl), fun c hc => h.usable c (hvw hc)⟩

theorem Askable.of_le {S S' : SequenceStore α} {w : List (LocalSymbol α)} (h : S.Askable w)
    (hA : S'.alphabet = S.alphabet)
    (ht : ∀ c, c ∈ S.terminating.keys → c ∈ S'.terminating.keys) : S'.Askable w :=
  ⟨fun l hl => hA ▸ h.proper l hl, fun c hc => ht c (h.usable c hc)⟩

theorem Askable.append {S : SequenceStore α} {v w : List (LocalSymbol α)} (hv : S.Askable v)
    (hw : S.Askable w) : S.Askable (v ++ w) :=
  ⟨fun l hl => (List.mem_append.1 hl).elim (hv.proper l) (hw.proper l),
    fun c hc => (List.mem_append.1 hc).elim (hv.usable c) (hw.usable c)⟩

/-- A call whose terminating sequence is known can be put to the oracle as usable. -/
theorem Genuine.askable_call {S : SequenceStore α} (hS : S.Genuine T) {c : α}
    (hc : c ∈ S.terminating.keys) :
    T.alphabet.kind? c = some .call ∧ S.Askable [.call c true] := by
  obtain ⟨t, ht⟩ := AssocMap.mem_keys_iff.1 hc
  have hk := (hS.terminating c t ht).1
  refine ⟨hk, fun x hx => ?_, fun d hd => ?_⟩
  · obtain rfl := List.mem_singleton.1 hx
    rw [hS.alphabet]
    exact hk
  · cases List.mem_singleton.1 hd
    exact hc

theorem Genuine.entry {S : SequenceStore α} (hS : S.Genuine T) {c : α}
    (hc : c ∈ S.access.keys) : T.alphabet.kind? c = some .call ∧ ∃ q, T.entry? c = some q := by
  obtain ⟨u, hu⟩ := AssocMap.mem_keys_iff.1 hc
  obtain ⟨hk, q, _, hq, _⟩ := hS.access c u hu
  exact ⟨hk, q, hq⟩

theorem Genuine.exists_procedure {S : SequenceStore α} (hS : S.Genuine T) {c : α}
    (hc : c ∈ S.access.keys) : ∃ A, T.procedures.get? c = some A := by
  obtain ⟨_, q, hq⟩ := hS.entry hc
  obtain ⟨A, hA, _⟩ := System.exists_procedure hq
  exact ⟨A, hA⟩

end SequenceStore

open SequenceStore

variable {S : SequenceStore α} {limit : Nat} {c : α} {l : ObservationTable (LocalSymbol α)}

theorem Learns.of_le {S' : SequenceStore α} (h : Learns T S limit c l)
    (hA : S'.alphabet = S.alphabet) (ha : ∀ c, c ∈ S.access.keys → c ∈ S'.access.keys)
    (ht : ∀ c, c ∈ S.terminating.keys → c ∈ S'.terminating.keys) : Learns T S' limit c l :=
  ⟨h.closed, h.experiments_subset, h.askable.of_le hA ht, h.limit, ha c h.access⟩

/-- The oracle behind a genuine store has the verdicts of the procedure. -/
theorem tells_askLocal {m : Type → Type} [Monad m] [MonadExceptOf (LearningError α) m]
    {ask : List α → m Bool} (hask : ∀ v, ask v = pure (T.accepts v)) (hS : S.Genuine T)
    (hc : c ∈ S.access.keys) {symbols : List (LocalSymbol α)} (h : S.Askable symbols) :
    ObservationTable.Tells (S.askLocal ask c) (T.localLanguage c) symbols :=
  fun _ hw => askLocal_eq hask hS hc (h.mono hw)

/-- The limit is not below the number of words that a procedure tells apart. -/
theorem LimitSuffices.bounded (hlimit : LimitSuffices T limit) (hT : T.EntriesAccept)
    (hS : S.Genuine T) (hc : c ∈ S.access.keys) :
    ObservationTable.Bounded (T.localLanguage c) limit := by
  obtain ⟨A, hA⟩ := hS.exists_procedure hc
  exact (System.bounded_localLanguage hT hA).mono (hlimit c A hA)

namespace ObservationTable

variable {f : List (LocalSymbol α) → Bool}

/-- The table knows whether a base word can be followed by a symbol. -/
theorem Closed.language_of_mayReturn (hl : l.Closed f) {b : List (LocalSymbol α)}
    (hb : b ∈ l.base) {ret : LocalSymbol α} (hret : ret ∈ l.alphabet)
    (h : mayReturn l.hypothesis ret b = true) : f (b ++ [ret]) = true := by
  obtain ⟨i, hi⟩ := List.getElem?_of_mem hb
  obtain ⟨j, b', hj, hb', hcells⟩ := hl.successor hi hret
  rw [mayReturn, hl.reached_base hi] at h
  have hj' : l.hypothesis.isAccepting j = true := by
    cases hacc : l.hypothesis.isAccepting i with
    | false => simp [Option.filter, hacc] at h
    | true => simpa [Option.filter, hacc, hj] using h
  rw [hl.isAccepting hb'] at hj'
  have := congrArg List.head? hcells
  rw [hl.cells_head, hl.cells_head, Option.some.injEq] at this
  rw [← this, hj']

end ObservationTable

namespace SequenceStore

/-- The word that a local word stands for leads a frame where the local word leads it. -/
theorem run_of_expand? (hS : S.Genuine T) {w : List (LocalSymbol α)} (hw : S.Askable w)
    {t : List α} (h : S.expand? w = some t) (f : Frame α) :
    T.localState f w = .dead ∨
      ∃ g, T.localState f w = .running g ∧ T.run (.active f []) t = .active g [] := by
  induction w generalizing f t with
  | nil =>
    cases h
    exact .inr ⟨f, rfl, rfl⟩
  | cons x w ih =>
    have hproper := hw.proper x List.mem_cons_self
    rw [LocalSymbol.Proper, hS.alphabet] at hproper
    have moved : ∀ a u v, S.expand? w = some v → (∀ g, T.advance f a = some g →
        T.run (.active f []) (a :: u) = .active g []) →
        (T.advance f a).elim .dead (T.localState · w) = .dead ∨
        ∃ g, (T.advance f a).elim .dead (T.localState · w) = .running g ∧
          T.run (.active f []) (a :: u ++ v) = .active g [] := by
      intro a u v hv hu
      cases hm : T.advance f a with
      | none => exact .inl rfl
      | some g =>
        rcases ih hw.tail hv g with hd | ⟨k, hk, hrun⟩
        · exact .inl hd
        · refine .inr ⟨k, hk, ?_⟩
          rw [System.run_append, hu g hm]
          exact hrun
    cases x with
    | internal a =>
      change T.alphabet.kind? a = some .internal at hproper
      rw [expand?] at h
      obtain ⟨v, hv, rfl⟩ := Option.map_eq_some_iff.1 h
      exact moved a [] v hv fun g hm => System.step_internal hproper hm []
    | call d usable =>
      change T.alphabet.kind? d = some .call at hproper
      cases usable with
      | false => cases h
      | true =>
        rw [expand?] at h
        obtain ⟨u, hu, h⟩ := Option.bind_eq_some_iff.1 h
        obtain ⟨v, hv, h⟩ := Option.bind_eq_some_iff.1 h
        obtain rfl := Option.some.inj h
        apply moved d (u ++ [S.alphabet.ret]) v hv
        intro g hm
        rw [hS.alphabet]
        exact System.run_call_return hproper (hS.terminating d u hu).2 hm []
    | ret a => cases h

/-- A terminating sequence that the table of a procedure shows is one of the system. -/
theorem returns_of_mayReturn (hS : S.Genuine T) (hl : Learns T S limit c l)
    {b : List (LocalSymbol α)} (hb : b ∈ l.base) {ret : LocalSymbol α} (hret : ret ∈ l.alphabet)
    (hisReturn : ret.isReturn = true) (h : mayReturn l.hypothesis ret b = true) {t : List α}
    (ht : S.expand? b = some t) : T.Returns c t := by
  obtain ⟨_, q, hq⟩ := hS.entry hl.access
  obtain rfl := (hS.alphabet ▸ hl.askable.proper ret hret).eq_ret hisReturn
  have hlang := hl.closed.language_of_mayReturn hb hret h
  rw [System.localLanguage_eq hq, System.localVerdict_append] at hlang
  have hask := hl.askable.mono (hl.closed.base_subset b hb)
  rcases run_of_expand? hS hask ht ⟨c, q⟩ with hd | ⟨g, hg, hrun⟩
  · rw [hd] at hlang
    cases hlang
  · rw [hg] at hlang
    change ([] : List (LocalSymbol α)).isEmpty && (T.advance g T.alphabet.ret).isSome at hlang
    obtain ⟨k, hk⟩ := Option.isSome_iff_exists.1 (by simpa using hlang)
    refine ⟨q, hq, ?_⟩
    rw [System.run_append, hrun, System.run_cons, System.step_ret hk]
    rfl

/-- The store has the same sequences, apart from a terminating sequence of `c` if it was used. -/
structure Improves (S S' : SequenceStore α) (c : α) (used : Bool) : Prop where
  alphabet : S'.alphabet = S.alphabet
  preference : S'.preference = S.preference
  access : S'.access = S.access
  terminating : ∀ e, e ∈ S'.terminating.keys ↔ e ∈ S.terminating.keys ∨ used = true ∧ e = c

namespace Improves

omit [DecidableEq α] in
theorem refl (S : SequenceStore α) (c : α) : Improves S S c false :=
  ⟨rfl, rfl, rfl, fun e => by simp⟩

omit [DecidableEq α] in
theorem trans {S S' S'' : SequenceStore α} {used used' : Bool} (h : Improves S S' c used)
    (h' : Improves S' S'' c used') : Improves S S'' c (used || used') where
  alphabet := h'.alphabet.trans h.alphabet
  preference := h'.preference.trans h.preference
  access := h'.access.trans h.access
  terminating e := by
    rw [h'.terminating, h.terminating, Bool.or_eq_true, or_assoc, or_and_right]

theorem learns {S' : SequenceStore α} {used : Bool} (h : Improves S S' c used) {d : α}
    (hl : Learns T S limit d l) : Learns T S' limit d l :=
  hl.of_le h.alphabet (fun _ he => h.access ▸ he) fun e he => (h.terminating e).2 (.inl he)

end Improves

omit [DecidableEq β] in
theorem Betters.improves {S' : SequenceStore α} {used : Bool}
    (h : Betters S S' fun d => used = true ∧ d = c) : Improves S S' c used where
  alphabet := by rw [h.rest]
  preference := by rw [h.rest]
  access := h.access
  terminating _ := h.mem_keys_iff

omit [DecidableEq β] in
/-- Searching one hypothesis adds a terminating sequence of its procedure at most. -/
theorem scanHypotheses_improves {S S' : SequenceStore α} {H : Acceptor (LocalSymbol α)}
    {representative? : α → Option (List (LocalSymbol α) → List (LocalSymbol α))}
    {inputs : List (LocalSymbol α)} {out : List α}
    (h : S.scanHypotheses [(c, H)] representative? inputs = (out, S')) :
    ∃ used, Improves S S' c used ∧ out = if used then [c] else [] := by
  rw [scanHypotheses.eq_def] at h
  split at h
  · next ret _ _ =>
    rw [List.foldl_cons, List.foldl_nil] at h
    cases hrep : representative? c with
    | none =>
      simp only [hrep] at h
      cases h
      exact ⟨false, .refl S c, rfl⟩
    | some representative =>
      simp only [hrep] at h
      have himproves := (S.scanHypothesis_betters c H representative inputs ret).improves
      generalize S.scanHypothesis c H representative inputs ret = x at h himproves
      obtain ⟨used, S₁⟩ := x
      cases h
      exact ⟨used, himproves, by cases used <;> rfl⟩
  · cases h
    exact ⟨false, .refl S c, rfl⟩

/-- What searching one table ends with, for the call `c` and the store `S` before. -/
def Searched (T : System α β) (S : SequenceStore α) (c : α) (x : Bool × SequenceStore α) : Prop :=
  x.2.Genuine T ∧ Improves S x.2 c x.1

theorem offer_spec (hS : S.Genuine T) (hl : Learns T S limit c l) {b : List (LocalSymbol α)}
    (hb : b ∈ l.base) {ret : LocalSymbol α} (hret : ret ∈ l.alphabet)
    (hisReturn : ret.isReturn = true) : Searched T S c (S.offer c l.hypothesis ret b) := by
  refine ⟨?_, (S.offer_betters c l.hypothesis ret b).improves⟩
  rw [offer]
  split
  · next hmay =>
    split
    · next t ht =>
      split
      · exact hS.insert_terminating (hS.entry hl.access).1
          (returns_of_mayReturn hS hl hb hret hisReturn hmay ht)
      · exact hS
    · exact hS
  · exact hS

theorem scanHypothesis_spec (hS : S.Genuine T) (hl : Learns T S limit c l)
    (symbols : List (LocalSymbol α)) {ret : LocalSymbol α} (hret : ret ∈ l.alphabet)
    (hisReturn : ret.isReturn = true) :
    Searched T S c (S.scanHypothesis c l.hypothesis l.representative symbols ret) := by
  apply List.foldlRecOn _ _ (motive := Searched T S c) ⟨hS, .refl S c⟩
  rintro ⟨used, S₁⟩ ⟨hS₁, h₁⟩ w hw
  obtain ⟨i, hi⟩ := Acceptor.exists_reached_of_mem_stateCover hw
  have hbase : l.representative w ∈ l.base := hl.closed.representative_mem hi
  obtain ⟨hS₂, h₂⟩ := offer_spec hS₁ (h₁.learns hl) hbase hret hisReturn
  exact ⟨hS₂, h₁.trans h₂⟩

/-- A first table is searched for a terminating sequence of its procedure. -/
theorem scanHypotheses_genuine (hS : S.Genuine T) (hl : Learns T S limit c l)
    {representative? : α → Option (List (LocalSymbol α) → List (LocalSymbol α))}
    (hrep : representative? c = some l.representative) {out : List α} {S' : SequenceStore α}
    (h : S.scanHypotheses [(c, l.hypothesis)] representative? l.alphabet = (out, S')) :
    S'.Genuine T := by
  rw [scanHypotheses.eq_def] at h
  split at h
  · next ret _ hfind =>
    rw [List.foldl_cons, List.foldl_nil] at h
    simp only [hrep] at h
    have hisReturn : ret.isReturn = true := List.find?_some hfind
    have hsearched := scanHypothesis_spec hS hl l.alphabet
      (List.mem_of_find?_eq_some hfind) hisReturn
    generalize S.scanHypothesis c l.hypothesis l.representative l.alphabet ret = x at h hsearched
    obtain ⟨used, S₁⟩ := x
    cases h
    exact hsearched.1
  · cases h
    exact hS

end SequenceStore

end BehavioralAutomata
