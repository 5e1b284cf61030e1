import BehavioralAutomata.Proofs.Learning.Resolution

/-!
# Procedures that end with their return

* `LocalLearner.exists_of_violation?`, `LocalLearner.accepts_eq_false`: the words behind which a learner
  looks for an accepted word that goes on behind a return.
* `Learns.violation_spec`: a word that a table wrongly accepts behind a return names a symbol that has
  not been an experiment behind the return before.
* `Violation.length_lt`: there are at most as many violations as symbols.
* `Session.repair_spec`, `Session.repairAll_spec`: repairing does not fail, and no table goes on behind
  a return afterwards.
-/

namespace BehavioralAutomata

variable {α : Type} {β : Type} [DecidableEq α] [DecidableEq β] {T : System α β} {limit : Nat}

/-! ## The words that are tried -/

namespace LocalLearner

variable {L : Type} [LocalLearner L α] {l : L}

theorem exists_of_violation? {q : LabelledWord (LocalSymbol α)} (h : violation? l = some q) :
    ∃ w ∈ (hypothesis l).stateCover (inputs l), ∃ ret ∈ inputs l, ret.isReturn = true ∧
      ∃ x ∈ inputs l, q = ⟨representative l w ++ [ret, x], false⟩ ∧
        (hypothesis l).accepts q.word = true := by
  obtain ⟨b, hb, h⟩ := List.exists_of_findSome?_eq_some h
  obtain ⟨w, hw, rfl⟩ := List.mem_map.1 (List.mem_eraseDups.1 hb)
  obtain ⟨i, hi, h⟩ := Option.bind_eq_some_iff.1 h
  obtain ⟨ret, hret, h⟩ := List.exists_of_findSome?_eq_some h
  obtain ⟨hret, hisReturn⟩ := List.mem_filter.1 hret
  obtain ⟨p, hp, h⟩ := Option.bind_eq_some_iff.1 h
  obtain ⟨x, hx, rfl⟩ := Option.map_eq_some_iff.1 h
  refine ⟨w, hw, ret, hret, hisReturn, x, List.mem_of_find?_eq_some hx, rfl, ?_⟩
  rw [Acceptor.accepts, Acceptor.reached_append, hi, Option.bind_some, Acceptor.reachedFrom, hp]
  have hacc := List.find?_some hx
  cases hq : (hypothesis l).successor p x with
  | none =>
    rw [hq] at hacc
    cases hacc
  | some r =>
    rw [hq] at hacc
    simpa [Acceptor.reachedFrom, hq] using hacc

/-- If no word is found, none of those that are tried is accepted. -/
theorem accepts_eq_false {w : List (LocalSymbol α)} {ret x : LocalSymbol α} (h : violation? l = none)
    (hw : w ∈ (hypothesis l).stateCover (inputs l)) (hret : ret ∈ inputs l)
    (hisReturn : ret.isReturn = true) (hx : x ∈ inputs l) :
    (hypothesis l).accepts (representative l w ++ [ret, x]) = false := by
  have hfrom := List.findSome?_eq_none_iff.1 h (representative l w)
    (List.mem_eraseDups.2 (List.mem_map.2 ⟨w, hw, rfl⟩))
  rw [Acceptor.accepts, Acceptor.reached_append]
  cases hi : (hypothesis l).reached (representative l w) with
  | none => rfl
  | some i =>
    rw [violationFrom?, hi, Option.bind_some] at hfrom
    have hnone := List.findSome?_eq_none_iff.1 hfrom ret (List.mem_filter.2 ⟨hret, hisReturn⟩)
    rw [Option.bind_some, Acceptor.reachedFrom]
    cases hp : (hypothesis l).successor i ret with
    | none => rfl
    | some p =>
      rw [hp, Option.bind_some, Option.map_eq_none_iff, List.find?_eq_none] at hnone
      have hrejected := hnone x hx
      cases hq : (hypothesis l).successor p x with
      | none => simp [Acceptor.reachedFrom, hq]
      | some r => simpa [Acceptor.reachedFrom, hq] using hrejected

end LocalLearner

/-- No procedure goes on behind its return. -/
theorem System.localLanguage_ret (T : System α β) (c a : α) (b : List (LocalSymbol α))
    (x : LocalSymbol α) : T.localLanguage c (b ++ [.ret a, x]) = false := by
  cases hq : T.entry? c with
  | none => rw [System.localLanguage, hq]; rfl
  | some q =>
    rw [System.localLanguage_eq hq, System.localVerdict_append]
    cases T.localState ⟨c, q⟩ b <;> rfl

/-- What is known of a word that a table accepts although it goes on behind a return. -/
structure Violation (T : System α β) (l : ObservationTable (LocalSymbol α))
    (q : LabelledWord (LocalSymbol α)) (x : LocalSymbol α) : Prop where
  label : q.accepted = false
  accepts : l.hypothesis.accepts q.word = true
  subset : q.word ⊆ l.alphabet
  mem : x ∈ l.alphabet
  suffix : [.ret T.alphabet.ret, x] <:+ q.word
  wrong : ∀ c, T.localLanguage c q.word = false
  fresh : [.ret T.alphabet.ret, x] ∉ l.experiments

theorem Learns.violation_spec {S : SequenceStore α} {c : α} {l : ObservationTable (LocalSymbol α)}
    (hS : S.Genuine T) (hl : Learns T S limit c l) {q : LabelledWord (LocalSymbol α)}
    (h : LocalLearner.violation? l = some q) : ∃ x, Violation T l q x := by
  obtain ⟨w, hw, ret, hret, hisReturn, x, hmem, rfl, haccepts⟩ := LocalLearner.exists_of_violation? h
  obtain ⟨i, hi⟩ := Acceptor.exists_reached_of_mem_stateCover hw
  have hbase : l.representative w ∈ l.base := hl.closed.representative_mem hi
  change x ∈ l.alphabet at hmem
  change ret ∈ l.alphabet at hret
  change l.hypothesis.accepts (l.representative w ++ [ret, x]) = true at haccepts
  change ∃ y, Violation T l ⟨l.representative w ++ [ret, x], false⟩ y
  generalize l.representative w = b at hbase haccepts
  obtain rfl := (hS.alphabet ▸ hl.askable.proper ret hret).eq_ret hisReturn
  refine ⟨x, rfl, haccepts, ?_, hmem, List.suffix_append .., fun d => T.localLanguage_ret ..,
    fun hE => ?_⟩
  · refine List.append_subset.2 ⟨hl.closed.base_subset b hbase, ?_⟩
    exact List.cons_subset.2 ⟨hret, List.cons_subset.2 ⟨hmem, List.nil_subset _⟩⟩
  · rw [hl.closed.accepts_append (.inl hbase) hE (hl.experiments_subset _ hE), T.localLanguage_ret]
      at haccepts
    cases haccepts

/-- The symbols of `done` are different and have been experiments behind the return. -/
structure Tried (T : System α β) (l : ObservationTable (LocalSymbol α))
    (done : List (LocalSymbol α)) : Prop where
  nodup : done.Nodup
  subset : done ⊆ l.alphabet
  experiments : ∀ x ∈ done, [.ret T.alphabet.ret, x] ∈ l.experiments

section

variable {l l' : ObservationTable (LocalSymbol α)} {q : LabelledWord (LocalSymbol α)}
  {x : LocalSymbol α} {done : List (LocalSymbol α)}

omit [DecidableEq β] in
theorem Tried.nil : Tried T l [] :=
  ⟨List.nodup_nil, List.nil_subset _, fun _ h => absurd h List.not_mem_nil⟩

theorem Violation.nodup (hx : Violation T l q x) (h : Tried T l done) : (x :: done).Nodup :=
  List.nodup_cons.2 ⟨fun hmem => hx.fresh (h.experiments x hmem), h.nodup⟩

/-- There is a violation only as long as not all symbols have been tried. -/
theorem Violation.length_lt (hx : Violation T l q x) (h : Tried T l done) :
    done.length < l.alphabet.length :=
  (hx.nodup h).length_le_of_subset (List.cons_subset.2 ⟨hx.mem, h.subset⟩)

theorem Violation.tried (hx : Violation T l q x) (h : Tried T l done)
    (hA : l'.alphabet = l.alphabet)
    (hE : ∀ e, e ∈ l'.experiments ↔ e ∈ l.experiments ∨ e <:+ q.word) :
    Tried T l' (x :: done) := by
  refine ⟨hx.nodup h, ?_, fun y hy => (hE _).2 ?_⟩
  · rw [hA]
    exact List.cons_subset.2 ⟨hx.mem, h.subset⟩
  · rcases List.mem_cons.1 hy with rfl | hy
    · exact .inr hx.suffix
    · exact .inl (h.experiments y hy)

end

namespace Session

variable {m : Type → Type} [Monad m] [LawfulMonad m] [MonadExceptOf (LearningError α) m]
  {ask : List α → m Bool} {s : TableSession α} {c : α} {l : ObservationTable (LocalSymbol α)}

theorem violation?_eq (hl : s.learners.get? c = some l) :
    s.violation? c = LocalLearner.violation? l := by
  rw [violation?, hl, Option.bind_some]

omit [LawfulMonad m] in
theorem repair_of_violation? (h : s.violation? c = none) (n : Nat) :
    repair ask c n s = (pure (false, s) : m _) := by
  cases n with
  | zero => rw [repair, h]
  | succ n =>
    rw [repair]
    cases hl : s.learners.get? c with
    | none => rfl
    | some l =>
      rw [violation?_eq hl] at h
      simp only [h]

variable (hask : ∀ v, ask v = pure (T.accepts v)) (hT : T.EntriesAccept)
  (hlimit : LimitSuffices T limit)

include hask hT hlimit

/-- A violation is used: the table grows, and repairing goes on with it. -/
theorem exists_repair (hs : s.Sound T limit) (hl : s.learners.get? c = some l)
    {q : LabelledWord (LocalSymbol α)} (hq : LocalLearner.violation? l = some q)
    {x : LocalSymbol α} (hx : Violation T l q x) :
    ∃ l', (∀ n, (repair ask c (n + 1) s : m _) =
        repair ask c n (s.withLearner c l') >>= fun r => pure (true, r.2)) ∧
      s.Advances T limit true (s.withLearner c l') ∧ l'.alphabet = l.alphabet ∧
      ∀ e, e ∈ l'.experiments ↔ e ∈ l.experiments ∨ e <:+ q.word := by
  have hlearns := hs.learns c l hl
  have hne : l.hypothesis.accepts q.word ≠ q.accepted := by
    rw [hx.accepts, hx.label]
    exact Bool.false_ne_true.symm
  obtain ⟨l', _, hrefine, hlearns', hgrows, hA, hE⟩ :=
    hlearns.exists_refine hask hT hlimit hs.store hx.subset hne
  have hlt : l.base.length < l'.base.length := by
    refine hlearns.closed.length_base_lt hlearns'.closed hgrows hA
      ((hE _).2 (.inr List.suffix_rfl)) hx.subset ?_
    rw [hx.accepts, hx.wrong c]
    exact Bool.false_ne_true.symm
  refine ⟨l', fun n => ?_, advances_withLearner hs hl hlearns' hgrows hlt, hA, hE⟩
  rw [repair, hl]
  simp only [hq, hrefine, pure_bind, decide_eq_true hlt]
  rfl

/-- The budget of one refinement for every symbol suffices, because every symbol is used once. -/
theorem repair_spec (hs : s.Sound T limit) (hl : s.learners.get? c = some l)
    {done : List (LocalSymbol α)} (hdone : Tried T l done) {n : Nat}
    (hn : l.alphabet.length ≤ n + done.length) :
    ∃ b s', repair ask c n s = (pure (b, s') : m _) ∧ s.Advances T limit b s' ∧
      s'.violation? c = none ∧ ∀ d, d ≠ c → s'.learners.get? d = s.learners.get? d := by
  induction n generalizing s l done with
  | zero =>
    cases hq : LocalLearner.violation? l with
    | none =>
      have hnone := (violation?_eq hl).trans hq
      exact ⟨false, s, repair_of_violation? hnone 0, .refl hs, hnone, fun _ _ => rfl⟩
    | some q =>
      obtain ⟨x, hx⟩ := (hs.learns c l hl).violation_spec hs.store hq
      have hlt := hx.length_lt hdone
      omega
  | succ n ih =>
    cases hq : LocalLearner.violation? l with
    | none =>
      have hnone := (violation?_eq hl).trans hq
      exact ⟨false, s, repair_of_violation? hnone _, .refl hs, hnone, fun _ _ => rfl⟩
    | some q =>
      obtain ⟨x, hx⟩ := (hs.learns c l hl).violation_spec hs.store hq
      obtain ⟨l', hstep, hadvances, hA, hE⟩ := exists_repair hask hT hlimit hs hl hq hx
      have hget : (s.withLearner c l').learners.get? c = some l' := by
        rw [get?_withLearner, if_pos rfl]
      have hn' : l'.alphabet.length ≤ n + (x :: done).length := by
        rw [hA, List.length_cons]
        omega
      obtain ⟨b, s', hrepair, hadvances', hviol, hothers⟩ :=
        ih hadvances.sound hget (hx.tried hdone hA hE) hn'
      refine ⟨true, s', ?_, hadvances.trans hadvances', hviol, fun d hd => ?_⟩
      · rw [hstep, hrepair, pure_bind]
      · rw [hothers d hd, get?_withLearner, if_neg hd]

theorem repairAll_spec (hs : s.Sound T limit) (cs : List α) :
    ∃ b s', repairAll ask cs s = (pure (b, s') : m _) ∧ s.Advances T limit b s' ∧
      (cs.Nodup → ∀ c ∈ cs, s'.violation? c = none) ∧
      ∀ d, d ∉ cs → s'.learners.get? d = s.learners.get? d := by
  induction cs generalizing s with
  | nil => exact ⟨false, s, rfl, .refl hs, fun _ => List.forall_mem_nil _, fun _ _ => rfl⟩
  | cons c cs ih =>
    have hfirst : ∃ b s', repair ask c (s.repairBudget c) s = (pure (b, s') : m _) ∧
        s.Advances T limit b s' ∧ s'.violation? c = none ∧
        ∀ d, d ≠ c → s'.learners.get? d = s.learners.get? d := by
      cases hl : s.learners.get? c with
      | none =>
        have hnone : s.violation? c = none := by rw [violation?, hl, Option.bind_none]
        exact ⟨false, s, repair_of_violation? hnone _, .refl hs, hnone, fun _ _ => rfl⟩
      | some l =>
        have hbudget : s.repairBudget c = l.alphabet.length := by
          rw [repairBudget, hl]
          rfl
        rw [hbudget]
        exact repair_spec hask hT hlimit hs hl .nil (Nat.le_add_right ..)
    obtain ⟨b₁, s₁, h₁, hadvances₁, hviol₁, hothers₁⟩ := hfirst
    obtain ⟨b₂, s₂, h₂, hadvances₂, hviol₂, hothers₂⟩ := ih hadvances₁.sound
    refine ⟨b₁ || b₂, s₂, ?_, hadvances₁.trans hadvances₂, fun hnodup d hd => ?_, fun d hd => ?_⟩
    · rw [repairAll, h₁, pure_bind]
      change (repairAll ask cs s₁ >>= _) = _
      rw [h₂, pure_bind]
    · obtain ⟨hnot, hnodup⟩ := List.nodup_cons.1 hnodup
      rcases List.mem_cons.1 hd with rfl | hd
      · rw [violation?, hothers₂ d hnot]
        exact hviol₁
      · exact hviol₂ hnodup d hd
    · rw [hothers₂ d fun h => hd (List.mem_cons_of_mem _ h),
        hothers₁ d fun h => hd (h ▸ List.mem_cons_self)]

end Session

end BehavioralAutomata
