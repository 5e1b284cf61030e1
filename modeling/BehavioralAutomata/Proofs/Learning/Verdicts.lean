import BehavioralAutomata.Proofs.Learning.Questions
import BehavioralAutomata.Proofs.System.Nesting
import BehavioralAutomata.System.Plain

/-!
# Verdicts on local words

* `System.Accesses`, `System.Terminates`: what an access sequence and a terminating sequence are meant to
  be, said by runs of the system. `SequenceStore.Genuine.of_runs`: a store of such sequences is genuine.
* `System.ReadsLocally`: what a local word has to be like for its procedure to accept it.
* `SequenceStore.askLocal_eq_ok`: that is what the oracle answers, whatever the genuine sequences are.
-/

namespace BehavioralAutomata

variable {α : Type} {β : Type} [DecidableEq α] [DecidableEq β]

/-! ## Genuine sequences -/

namespace System

variable {T : System α β}

/-- Behind `u` the call `c` can be read, and its procedure is in its initial state then. -/
def Accesses (T : System α β) (c : α) (u : List α) : Prop :=
  ∃ q fs, T.entry? c = some q ∧ T.reached (u ++ [c]) = .active ⟨c, q⟩ fs

/-- From the entry of the procedure of `c`, whatever waits below it, `t` and a return are read and end
exactly this invocation. -/
def Terminates (T : System α β) (c : α) (t : List α) : Prop :=
  T.alphabet.Balanced t ∧ ∃ q, T.entry? c = some q ∧ ∀ fs,
    T.run (.active ⟨c, q⟩ fs) (t ++ [T.alphabet.ret]) = Configuration.finished.above fs

theorem terminates_iff_returns {c : α} {t : List α} : T.Terminates c t ↔ T.Returns c t := by
  constructor
  · rintro ⟨_, q, hq, hrun⟩
    exact ⟨q, hq, hrun []⟩
  · rintro ⟨q, hq, hrun⟩
    have halive : T.run (.active ⟨c, q⟩ []) (t ++ [T.alphabet.ret]) ≠ .dead := by simp [hrun]
    refine ⟨balanced_of_finished hrun, q, hq, fun fs => ?_⟩
    have habove := run_above halive fs
    rwa [List.nil_append, hrun] at habove

end System

/-- In a plain system only calls have procedures. -/
theorem PlainSystem.kind?_of_entry? {T : PlainSystem α} {c : α} {q : Nat}
    (h : T.entry? c = some q) : T.alphabet.kind? c = some .call := by
  obtain ⟨A, hA, _⟩ := System.exists_procedure h
  exact of_decide_eq_true (T.isCall_of_mem c (AssocMap.mem_keys_iff.2 ⟨A, hA⟩))

/-- A store is genuine if its sequences do in the system what they are meant for. -/
theorem SequenceStore.Genuine.of_runs {T : PlainSystem α} {S : SequenceStore α}
    (hA : S.alphabet = T.alphabet)
    (haccess : ∀ c u, S.access.get? c = some u → T.Accesses c u)
    (hterminating : ∀ c t, S.terminating.get? c = some t → T.Terminates c t) :
    S.Genuine T.toSystem where
  alphabet := hA
  access c u hu := by
    obtain ⟨q, fs, hq, hreached⟩ := haccess c u hu
    exact ⟨PlainSystem.kind?_of_entry? hq, q, fs, hq, hreached⟩
  terminating c t ht := by
    obtain ⟨q, hq, hfinished⟩ := System.terminates_iff_returns.1 (hterminating c t ht)
    exact ⟨PlainSystem.kind?_of_entry? hq, q, hq, hfinished⟩

/-! ## Local words -/

omit [DecidableEq α] in
theorem Procedure.accepts_of_start (P : Procedure α β) {q : Nat} (h : P.start = some q)
    (w : List α) : P.accepts w = (P.reachedFrom q w).any P.isAccepting := by
  rw [accepts, reached, h, Option.bind_some]

namespace System

variable {T : System α β}

/-- Nothing follows a return or an unusable call in `w`, the procedure of `c` reads `w` over accepting
states only, and if the last symbol is an unusable call, the called procedure starts in an accepting
state. -/
structure ReadsLocally (T : System α β) (c : α) (w : List (LocalSymbol α)) : Prop where
  continues : ∀ l ∈ w.dropLast, l.isReturn = false ∧ l.isUsable = true
  reads : ∃ P, T.procedure? c = some P ∧ (w = [] → P.accepts [] = true) ∧
    ∀ u, u ≠ [] → u <+: w.map LocalSymbol.symbol → P.accepts u = true
  enters : ∀ d, w.getLast? = some (.call d false) → ∃ P, T.procedure? d = some P ∧
    P.accepts [] = true

/-- A frame follows a word if its procedure reads all beginnings of the word to accepting states. -/
theorem exists_follow_iff {f : Frame α} {P : Procedure α β} (hP : T.procedure? f.procedure = some P)
    {w : List α} : (∃ g, T.follow f w = some g) ↔
      ∀ u, u ≠ [] → u <+: w → (P.reachedFrom f.state u).any P.isAccepting = true := by
  induction w generalizing f with
  | nil =>
    refine ⟨fun _ u hne hu => absurd (List.prefix_nil.1 hu) hne, fun _ => ⟨f, rfl⟩⟩
  | cons a w ih =>
    constructor
    · rintro ⟨g, hg⟩ u hne hu
      obtain ⟨k, hk, hrest⟩ := Option.bind_eq_some_iff.1 hg
      obtain ⟨P', q, hP', hq, rfl⟩ := advance_eq_some_iff.1 hk
      cases hP.symm.trans hP'
      obtain ⟨hsucc, hacc⟩ := Option.filter_eq_some_iff.1 hq
      obtain ⟨b, v, rfl⟩ := List.exists_cons_of_ne_nil hne
      obtain ⟨rfl, hv⟩ := List.cons_prefix_cons.1 hu
      rw [Procedure.reachedFrom, hsucc, Option.bind_some]
      by_cases hnil : v = []
      · subst hnil
        exact hacc
      · exact (ih (f := ⟨f.procedure, q⟩) hP).1 ⟨g, hrest⟩ v hnil hv
    · intro h
      have hprefixes : ∀ v, v <+: w → (P.reachedFrom f.state (a :: v)).any P.isAccepting = true :=
        fun v hv => h (a :: v) (List.cons_ne_nil a v) (List.cons_prefix_cons.2 ⟨rfl, hv⟩)
      obtain ⟨q, hq, hacc⟩ := (Option.any_eq_true _ _).1 (hprefixes [] List.nil_prefix)
      obtain ⟨p, hp, hpq⟩ := Option.bind_eq_some_iff.1 hq
      cases hpq
      have hadvance : T.advance f a = some ⟨f.procedure, q⟩ :=
        advance_eq_some_iff.2 ⟨P, q, hP, Option.filter_eq_some_iff.2 ⟨hp, hacc⟩, rfl⟩
      obtain ⟨g, hg⟩ := (ih (f := ⟨f.procedure, q⟩) hP).2 fun v _ hv => by
        have hcons := hprefixes v hv
        rwa [Procedure.reachedFrom, hp] at hcons
      exact ⟨g, by rw [follow, hadvance]; exact hg⟩

/-- The verdict of a frame on a local word: nothing follows what can not be continued, the frame follows
the symbols, and a last call that is not usable is entered. -/
theorem localVerdict_cons_eq_true_iff {f : Frame α} {l : LocalSymbol α} {w : List (LocalSymbol α)} :
    T.localVerdict f (l :: w) = true ↔
      (∀ x ∈ (l :: w).dropLast, x.isReturn = false ∧ x.isUsable = true) ∧
      (∃ g, T.follow f ((l :: w).map LocalSymbol.symbol) = some g) ∧
      ∀ d, (l :: w).getLast? = some (.call d false) → ∃ q, T.entry? d = some q ∧
        T.frameAccepts ⟨d, q⟩ = true := by
  induction w generalizing f l with
  | nil =>
    have hfollow : (∃ g, T.follow f ([l].map LocalSymbol.symbol) = some g) ↔
        ∃ g, T.advance f l.symbol = some g := by
      simp only [List.map_cons, List.map_nil, follow, Option.bind_fun_some]
    rw [localVerdict_last, hfollow]
    simp
  | cons x w ih =>
    rw [List.dropLast_cons_cons, List.getLast?_cons_cons, List.forall_mem_cons, List.map_cons, follow]
    by_cases hl : l.isReturn = false ∧ l.isUsable = true
    · rw [localVerdict_moved hl]
      cases hadvance : T.advance f l.symbol with
      | none => simp
      | some k =>
        rw [Option.any_some, Option.bind_some, ih]
        simp only [hl, and_self, true_and]
    · rw [localVerdict_stopped hl f (List.cons_ne_nil x w)]
      simp only [hl, false_and, Bool.false_eq_true]

/-- The procedure of `c` exists and starts in an accepting state. -/
theorem exists_frameAccepts_iff {c : α} :
    (∃ q, T.entry? c = some q ∧ T.frameAccepts ⟨c, q⟩ = true) ↔
      ∃ P, T.procedure? c = some P ∧ P.accepts [] = true := by
  constructor
  · rintro ⟨q, hq, hacc⟩
    obtain ⟨P, hP, hstart⟩ := Option.bind_eq_some_iff.1 hq
    rw [frameAccepts, hP, Option.any_some] at hacc
    exact ⟨P, hP, (P.accepts_of_start hstart []).trans hacc⟩
  · rintro ⟨P, hP, hacc⟩
    rw [Procedure.accepts, Option.any_eq_true] at hacc
    obtain ⟨q, hq, hacc⟩ := hacc
    obtain ⟨p, hp, hpq⟩ := Option.bind_eq_some_iff.1 hq
    cases hpq
    refine ⟨q, Option.bind_eq_some_iff.2 ⟨P, hP, hp⟩, ?_⟩
    rw [frameAccepts, hP, Option.any_some]
    exact hacc

/-- What the procedure of a call says to a local word. -/
theorem localLanguage_eq_true_iff {c : α} {q : Nat} (hq : T.entry? c = some q)
    {w : List (LocalSymbol α)} : T.localLanguage c w = true ↔ T.ReadsLocally c w := by
  obtain ⟨P, hP, hstart⟩ := Option.bind_eq_some_iff.1 hq
  have hfollow := exists_follow_iff (f := ⟨c, q⟩) hP (w := w.map LocalSymbol.symbol)
  simp only [← P.accepts_of_start hstart] at hfollow
  rw [localLanguage_eq hq]
  cases w with
  | nil =>
    have hnil : T.localVerdict ⟨c, q⟩ [] = P.accepts [] := by
      rw [localVerdict, frameAccepts, hP, Option.any_some, P.accepts_of_start hstart]
      rfl
    rw [hnil]
    refine ⟨fun h => ⟨by rintro _ ⟨⟩, ⟨P, hP, fun _ => h, fun u hne hu => ?_⟩, by rintro _ ⟨⟩⟩,
      fun h => ?_⟩
    · exact absurd (List.prefix_nil.1 hu) hne
    · obtain ⟨P', hP', haccepts, _⟩ := h.reads
      cases hP.symm.trans hP'
      exact haccepts rfl
  | cons l w =>
    rw [localVerdict_cons_eq_true_iff, hfollow]
    simp only [exists_frameAccepts_iff]
    constructor
    · rintro ⟨hcontinues, hreads, henters⟩
      exact ⟨hcontinues, ⟨P, hP, by rintro ⟨⟩, hreads⟩, henters⟩
    · rintro ⟨hcontinues, ⟨P', hP', _, hreads⟩, henters⟩
      cases hP.symm.trans hP'
      exact ⟨hcontinues, hreads, henters⟩

end System

/-! ## The oracle -/

/-- The oracle for local words of `c` tells exactly which of them the procedure of `c` reads, and every
other store of sequences that do what they are meant for makes it say the same. -/
theorem SequenceStore.askLocal_eq_ok {T : PlainSystem α} {S : SequenceStore α}
    (hA : S.alphabet = T.alphabet)
    (haccess : ∀ c u, S.access.get? c = some u → T.Accesses c u)
    (hterminating : ∀ c t, S.terminating.get? c = some t → T.Terminates c t)
    {c : α} (hc : c ∈ S.access.keys) {w : List (LocalSymbol α)} (hw : S.Askable w) :
    ∃ b, S.askLocal T.oracle c w = .ok b ∧ (b = true ↔ T.ReadsLocally c w) ∧
      ∀ S' : SequenceStore α, S'.alphabet = T.alphabet →
        (∀ d u, S'.access.get? d = some u → T.Accesses d u) →
        (∀ d t, S'.terminating.get? d = some t → T.Terminates d t) →
        c ∈ S'.access.keys → S'.Askable w → S'.askLocal T.oracle c w = .ok b := by
  have hS : S.Genuine T.toSystem := .of_runs hA haccess hterminating
  obtain ⟨u, hu⟩ := AssocMap.mem_keys_iff.1 hc
  obtain ⟨q, _, hq, _⟩ := haccess c u hu
  refine ⟨T.localLanguage c w, askLocal_eq T.oracle_eq hS hc hw,
    System.localLanguage_eq_true_iff hq, ?_⟩
  intro S' hA' haccess' hterminating' hc' hw'
  exact askLocal_eq T.oracle_eq (.of_runs hA' haccess' hterminating') hc' hw'

/-- The procedure of `S` reads one `b` or calls `T` once, and returns; that of `T` reads any `b` and
returns. -/
def returningSystem : PlainSystem Char where
  alphabet := ⟨['b'], ['S', 'T'], 'R', by decide⟩
  initialCall := some 'S'
  procedures := .ofList [
    ('S', {
      states := #[⟨true, .ofList [('b', 1), ('T', 1)]⟩, ⟨true, .ofList [('R', 2)]⟩, ⟨true, ∅⟩]
      start := some 0
      target_lt := by decide
      start_lt := by decide }),
    ('T', {
      states := #[⟨true, .ofList [('b', 0), ('R', 1)]⟩, ⟨true, ∅⟩]
      start := some 0
      target_lt := by decide
      start_lt := by decide })]
  read := some
  read_eq := rfl
  isCall_of_mem := List.all_eq_true.1 (by decide)

/-- Sequences of the system, of which the one that ends `T` is not the shortest. -/
def returningStore : SequenceStore Char where
  alphabet := returningSystem.alphabet
  preference := .first
  access := .ofList [('S', []), ('T', ['S'])]
  terminating := .ofList [('T', ['b'])]

theorem askLocal_returningStore :
    returningStore.askLocal returningSystem.oracle 'S' [.call 'T' true, .ret 'R'] = .ok true ∧
      returningSystem.ReadsLocally 'S' [.call 'T' true, .ret 'R'] := by
  have haccess : ∀ c u, returningStore.access.get? c = some u → returningSystem.Accesses c u := by
    intro c u hu
    have hmem : (c, u) ∈ [('S', []), ('T', ['S'])] := AssocMap.get?_eq_some_iff.1 hu
    rcases List.mem_cons.1 hmem with h | h
    · cases h
      exact ⟨0, [], by decide, by decide⟩
    · cases List.mem_singleton.1 h
      exact ⟨0, [⟨'S', 1⟩], by decide, by decide⟩
  have hterminating : ∀ c t, returningStore.terminating.get? c = some t →
      returningSystem.Terminates c t := by
    intro c t ht
    have hmem : (c, t) ∈ [('T', ['b'])] := AssocMap.get?_eq_some_iff.1 ht
    cases List.mem_singleton.1 hmem
    exact System.terminates_iff_returns.2 ⟨0, by decide, by decide⟩
  have haskable : returningStore.Askable [.call 'T' true, .ret 'R'] := by
    refine ⟨fun l hl => ?_, fun c hc => ?_⟩
    · rcases List.mem_cons.1 hl with rfl | hl
      · exact rfl
      · obtain rfl := List.mem_singleton.1 hl
        exact rfl
    · rcases List.mem_cons.1 hc with hc | hc
      · cases hc
        decide
      · cases List.mem_singleton.1 hc
  have haccepted : returningStore.askLocal returningSystem.oracle 'S' [.call 'T' true, .ret 'R'] =
      .ok true := by decide
  obtain ⟨b, hb, hverdict, _⟩ :=
    SequenceStore.askLocal_eq_ok rfl haccess hterminating (c := 'S') (by decide) haskable
  cases Except.ok.inj (haccepted.symm.trans hb)
  exact ⟨haccepted, hverdict.1 rfl⟩

end BehavioralAutomata
