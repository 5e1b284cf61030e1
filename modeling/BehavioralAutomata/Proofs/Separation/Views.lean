import BehavioralAutomata.Proofs.System.Views
import BehavioralAutomata.Separation.Search

/-!
# The search does not see how edges are stored

Systems that look alike can take each other's place in the search for a separating word. There is one
lemma for each function of the search.

* `System.Alike.revival?_eq`: the search for words that lead back to acceptance.
* `separatingWord?_congr`: the search for separating words.
* `LocalSystem.looks_plain`: a system over local symbols behaves as the system over the symbols
  themselves that has its edges for current local symbols.
-/

namespace BehavioralAutomata

namespace System

variable {α : Type u} {β : Type v} {γ : Type w} [DecidableEq α] [DecidableEq β] [DecidableEq γ]
  {S : System α β} {T : System α γ}

/-! ## Words that lead back to acceptance -/

namespace Alike

theorem revivalFrom?_eq (h : S.Alike T) (known : AssocMap α (List α)) {P : Procedure α β}
    {Q : Procedure α γ} (hPQ : P.Alike Q) (q : Nat) :
    T.revivalFrom? known Q q = S.revivalFrom? known P q := by
  simp only [revivalFrom?, h.alphabet, hPQ.isAccepting, hPQ.liveSuccessor]

theorem addRevival_eq (h : S.Alike T) (known : AssocMap α (List α)) (c : α) {A : Acceptor β}
    {B : Acceptor γ} (hAB : (Procedure.mk A S.read).Alike (Procedure.mk B T.read)) :
    T.addRevival known c B = S.addRevival known c A := by
  have hstart : B.start = A.start := hAB.start
  simp only [addRevival, hstart, funext (h.revivalFrom?_eq known hAB)]

theorem addRevivals_eq (h : S.Alike T) (known : AssocMap α (List α)) :
    T.addRevivals known = S.addRevivals known := by
  rw [addRevivals, addRevivals]
  have hentries := h.forall₂_entries
  generalize S.procedures.entries = es, T.procedures.entries = fs at hentries
  induction hentries generalizing known with
  | nil => rfl
  | @cons e f es fs hef _ ih =>
    have hstep : T.addRevival known f.1 f.2 = S.addRevival known e.1 e.2 := by
      rw [← hef.1, h.addRevival_eq known e.1 hef.2]
    rw [List.foldl_cons, List.foldl_cons]
    exact (congrArg (List.foldl _ · fs) hstep).trans (ih _)

theorem revivals_eq (h : S.Alike T) (rounds : Nat) (known : AssocMap α (List α)) :
    T.revivals rounds known = S.revivals rounds known := by
  induction rounds generalizing known with
  | zero => rfl
  | succ n ih => simp only [revivals, h.addRevivals_eq, ih]

theorem revival?_eq (h : S.Alike T) (c : α) : T.revival? c = S.revival? c := by
  have hsize : T.procedures.size = S.procedures.size := by
    rw [← AssocMap.length_keys, h.keys, AssocMap.length_keys]
  rw [revival?, revival?, hsize, h.revivals_eq]

end Alike

end System

/-! ## Separating words -/

namespace Separation

variable {α β β' γ γ' : Type} [DecidableEq α] [DecidableEq β] [DecidableEq β'] [DecidableEq γ]
  [DecidableEq γ'] {S : System α β} {T : System α β'} {L : System α β} {L' : System α β'}
  {R : System α γ} {R' : System α γ'}

theorem entryVerdict?_congr (h : S.Alike T) (c : α) : entryVerdict? T c = entryVerdict? S c := by
  have hrel := h.rel_procedure? c
  rw [entryVerdict?, entryVerdict?]
  generalize S.procedure? c = x, T.procedure? c = y at hrel
  cases hrel with
  | none => rfl
  | some hPQ =>
    rw [Option.bind_some, Option.bind_some, hPQ.start, funext hPQ.isAccepting]

theorem oneSided_congr (h : S.Alike T) (w : List α) (c : α) : oneSided T w c = oneSided S w c := by
  rw [oneSided, oneSided, h.revival?_eq]

theorem visitFirst_congr (hL : L.Alike L') (hR : R.Alike R') (F : Findings α) (a : α) :
    visitFirst L' R' F a = visitFirst L R F a := by
  simp only [visitFirst, hL.reached_eq, hR.reached_eq, hL.isAccepting_eq, hR.isAccepting_eq,
    hL.alphabet, oneSided_congr hL, oneSided_congr hR]

theorem visit_congr (hL : L.Alike L') (hR : R.Alike R') (c : α) (w u : List α) (E : Progress α)
    (a : α) (l r : Option Nat) : visit L' R' c w u E a l r = visit L R c w u E a l r := by
  simp only [visit, hL.alphabet, entryVerdict?_congr hL, entryVerdict?_congr hR,
    oneSided_congr hL, oneSided_congr hR]

theorem leave_congr (hL : L.Alike L') (hR : R.Alike R') (c : α) (w : List α) {A : Acceptor β}
    {A' : Acceptor β'} {B : Acceptor γ} {B' : Acceptor γ'}
    (hA : (Procedure.mk A L.read).Alike (Procedure.mk A' L'.read))
    (hB : (Procedure.mk B R.read).Alike (Procedure.mk B' R'.read))
    (p q : Nat) (u : List α) (E : Progress α) :
    leave L' R' (letters L' R') c w A' B' p q u E = leave L R (letters L R) c w A B p q u E := by
  rw [leave, leave, letters, letters, List.foldlM_map, List.foldlM_map, hL.alphabet]
  congr 1
  funext E a
  have hl : (L'.read a).bind (A'.liveEdges p).get? = (L.read a).bind (A.liveEdges p).get? := by
    rw [← Procedure.liveSuccessor_eq ⟨A', L'.read⟩, ← Procedure.liveSuccessor_eq ⟨A, L.read⟩,
      hA.liveSuccessor]
  have hr : (R'.read a).bind (B'.liveEdges q).get? = (R.read a).bind (B.liveEdges q).get? := by
    rw [← Procedure.liveSuccessor_eq ⟨B', R'.read⟩, ← Procedure.liveSuccessor_eq ⟨B, R.read⟩,
      hB.liveSuccessor]
  rw [hl, hr, visit_congr hL hR]

theorem explorePairs_congr (hL : L.Alike L') (hR : R.Alike R') (c : α) (w : List α)
    {A : Acceptor β} {A' : Acceptor β'} {B : Acceptor γ} {B' : Acceptor γ'}
    (hA : (Procedure.mk A L.read).Alike (Procedure.mk A' L'.read))
    (hB : (Procedure.mk B R.read).Alike (Procedure.mk B' R'.read)) (fuel : Nat) (E : Progress α) :
    explorePairs L' R' (letters L' R') c w A' B' fuel E =
      explorePairs L R (letters L R) c w A B fuel E := by
  induction fuel generalizing E with
  | zero => rfl
  | succ n ih => simp only [explorePairs, leave_congr hL hR c w hA hB, ih]

theorem explore_congr (hL : L.Alike L') (hR : R.Alike R') (F : Findings α) (c : α) :
    explore L' R' (letters L' R') F c = explore L R (letters L R) F c := by
  have hl := hL.rel_get? c
  have hr := hR.rel_get? c
  rw [explore, explore]
  generalize L.procedures.get? c = x, L'.procedures.get? c = x' at hl
  generalize R.procedures.get? c = y, R'.procedures.get? c = y' at hr
  cases F.access.get? c with
  | none => rfl
  | some w =>
    cases hl with
    | none => rfl
    | @some A A' hA =>
      cases hr with
      | none => rfl
      | @some B B' hB =>
        have hstart : A'.start = A.start := hA.start
        have hstart' : B'.start = B.start := hB.start
        have hsize : A'.size = A.size := hA.size
        have hsize' : B'.size = B.size := hB.size
        simp only [hstart, hstart', hsize, hsize', explorePairs_congr hL hR c w hA hB]

theorem saturate_congr (hL : L.Alike L') (hR : R.Alike R') (rounds : Nat) (F : Findings α) :
    saturate L' R' rounds F = saturate L R rounds F := by
  induction rounds generalizing F with
  | zero => rfl
  | succ n ih => simp only [saturate, funext₂ (explore_congr hL hR), ih]

theorem search_congr (hL : L.Alike L') (hR : R.Alike R') : search L' R' = search L R := by
  simp only [search, hL.alphabet, funext₂ (visitFirst_congr hL hR), saturate_congr hL hR]

end Separation

variable {α β β' γ γ' : Type} [DecidableEq α] [DecidableEq β] [DecidableEq β'] [DecidableEq γ]
  [DecidableEq γ']

/-- Systems that look alike are told apart from others by the same word. -/
theorem separatingWord?_congr {L : System α β} {L' : System α β'} {R : System α γ}
    {R' : System α γ'} (hL : L.Alike L') (hR : R.Alike R') :
    separatingWord? L' R' = separatingWord? L R := by
  rw [separatingWord?, separatingWord?, Separation.search_congr hL hR]

/-! ## Systems over local symbols -/

namespace LocalSystem

/-- A system over local symbols whose procedures belong to calls can be presented over the symbols
themselves, by a system whose procedures have the same states and, for every symbol, the edges for the
current local symbol of this symbol. Such a system passes through the same configurations, accepts the
same words, has as many states and is told apart from others by the same word. Edges for local symbols
that are not current have no influence on this, whatever the local alphabet is. -/
theorem looks_plain (M : LocalSystem α)
    (h : ∀ c ∈ M.procedures.keys, M.alphabet.isCall c = true) :
    (∃ K : PlainSystem α, M.toSystem.Alike K.toSystem) ∧
    (∀ K : PlainSystem α, M.toSystem.Alike K.toSystem →
      (∀ w, K.trace .initial w = M.trace .initial w) ∧
      (∀ c, K.isAccepting c = M.isAccepting c) ∧
      (∀ w, K.accepts w = M.accepts w) ∧
      K.size = M.size ∧
      ∀ {δ : Type} [DecidableEq δ] (X : System α δ),
        separatingWord? K.toSystem X = separatingWord? M.toSystem X ∧
        separatingWord? X K.toSystem = separatingWord? X M.toSystem) ∧
    (∀ N : LocalSystem α, M.AgreesOnCurrent N →
      (∀ w, N.trace .initial w = M.trace .initial w) ∧
      (∀ w, N.accepts w = M.accepts w) ∧
      ∀ {δ : Type} [DecidableEq δ] (X : System α δ),
        separatingWord? N.toSystem X = separatingWord? M.toSystem X) := by
  refine ⟨⟨M.toPlain h, M.alike_toPlain h⟩, fun K hK => ?_, fun N hN => ?_⟩
  · exact ⟨hK.trace_eq .initial, hK.isAccepting_eq, hK.accepts_eq, hK.size_eq,
      fun X => ⟨separatingWord?_congr hK (.refl X), separatingWord?_congr (.refl X) hK⟩⟩
  · exact ⟨hN.alike.trace_eq .initial, hN.alike.accepts_eq,
      fun X => separatingWord?_congr hN.alike (.refl X)⟩

/-- `S` calls `T` once. Its edge for the unusable call is left over from the time when nothing could follow
a call of `T`. -/
def outgrownSystem : LocalSystem Char :=
  .ofProcedures ⟨['c'], ['S', 'T'], 'R', by decide⟩
    (.set ⟨.ofList [('c', .internal 'c'), ('S', .call 'S' false), ('R', .ret 'R')]⟩ (.call 'T' true))
    (some 'S')
    (.ofList [
      ('S', {
        states := #[⟨true, .ofList [(.call 'T' false, 2), (.call 'T' true, 1)]⟩,
          ⟨true, .ofList [(.ret 'R', 1)]⟩, ⟨false, ∅⟩]
        start := some 0
        target_lt := by decide
        start_lt := by decide }),
      ('T', {
        states := #[⟨true, .ofList [(.internal 'c', 0), (.ret 'R', 0)]⟩]
        start := some 0
        target_lt := by decide
        start_lt := by decide })])

theorem looks_plain_outgrownSystem :
    (∀ c ∈ outgrownSystem.procedures.keys, outgrownSystem.alphabet.isCall c = true) ∧
    ∃ K : PlainSystem Char, outgrownSystem.toSystem.Alike K.toSystem ∧
      K.accepts ['S', 'T', 'c', 'R', 'R'] = true ∧ K.size = 4 := by
  have h : ∀ c ∈ outgrownSystem.procedures.keys, outgrownSystem.alphabet.isCall c = true :=
    List.all_eq_true.1 (by decide)
  obtain ⟨⟨K, hK⟩, hplain, _⟩ := outgrownSystem.looks_plain h
  obtain ⟨_, _, haccepts, hsize, _⟩ := hplain K hK
  exact ⟨h, K, hK, (haccepts _).trans (by decide), hsize.trans (by decide)⟩

end LocalSystem

end BehavioralAutomata
