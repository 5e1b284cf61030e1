import BehavioralAutomata.Learning.SequenceStore
import BehavioralAutomata.Proofs.Alphabet.Invocations
import BehavioralAutomata.Proofs.Entering
import Mathlib.Data.List.MinMax

/-!
# Scans without their passes

A scan records access sequences and terminating sequences in one pass over its word, and a store that
prefers short sequences makes a second one. Here they are put apart: either kind of sequences comes from
the list of what the word shows of its calls.

* `SequenceStore.scanFirst_eq`: the first pass enters the accesses and the bodies of the word.
* `SequenceStore.scanShorter_eq`, `SequenceStore.get?_foldl_shorten`: the second pass goes through the
  bodies and finds the first one of the shortest.
* `SequenceStore.scan_fst`, `SequenceStore.scan_snd`, `SequenceStore.contains_terminating_scan`: what does
  not depend on what is preferred.
-/

namespace BehavioralAutomata.SequenceStore

variable {α : Type} [DecidableEq α] {S : SequenceStore α} {A : Alphabet α}

/-! ## The pass for first sequences -/

/-- Records the sequences of calls that have none. -/
def noting (S : SequenceStore α) (accesses bodies : List (α × List α)) : SequenceStore α :=
  { S with access := S.access.enter accesses, terminating := S.terminating.enter bodies }

/-- The calls for which the sequences are the first ones. -/
def news (S : SequenceStore α) (accesses bodies : List (α × List α)) : Discoveries α :=
  ⟨S.access.newKeys accesses, S.terminating.newKeys bodies⟩

theorem noting_noting (S : SequenceStore α) (es es' fs fs' : List (α × List α)) :
    (S.noting es fs).noting es' fs' = S.noting (es ++ es') (fs ++ fs') := by
  simp only [noting, AssocMap.enter_append]

theorem recordFirst_eq (S : SequenceStore α) (d : Discoveries α) (before : List α) (c : α)
    (ret? : Option Nat) (after : List (α × Option Nat)) :
    S.recordFirst d before c ret? after =
      (S.noting [(c, before.reverse)] (ret?.map fun n => (c, body after n)).toList,
        ⟨d.calls ++ S.access.newKeys [(c, before.reverse)], d.terminations ++
          S.terminating.newKeys (ret?.map fun n => (c, body after n)).toList⟩) := by
  rw [recordFirst.eq_def, noting, AssocMap.enter_singleton, AssocMap.newKeys_singleton]
  cases ret? with
  | none =>
    cases S.access.contains c <;> cases S.terminating.contains c <;> simp
  | some n =>
    rw [Option.map_some, Option.toList_some, AssocMap.enter_singleton, AssocMap.newKeys_singleton]
    cases S.access.contains c <;> cases ht : S.terminating.contains c <;> simp [ht]

theorem body_withReturns (A : Alphabet α) (w : List α) (n : Nat) :
    body (A.withReturns w) n = w.take n := by
  rw [body, List.map_take, Alphabet.map_fst_withReturns]

/-- The pass finds what stands in front of the calls, behind `before`, and the bodies. -/
theorem scanFirst_eq (hA : S.alphabet = A) (d : Discoveries α) (before w : List α) :
    S.scanFirst d before (A.withReturns w) =
      (S.noting ((A.accesses w).map fun e => (e.1, before.reverse ++ e.2)) (A.bodies w),
        ⟨d.calls ++ S.access.newKeys ((A.accesses w).map fun e => (e.1, before.reverse ++ e.2)),
          d.terminations ++ S.terminating.newKeys (A.bodies w)⟩) := by
  -- behind each symbol the pass goes on with what has been noted, and with one more symbol before
  induction w generalizing S d before with
  | nil => simp [scanFirst, noting]
  | cons s w ih =>
    rw [Alphabet.withReturns_cons, scanFirst, hA, Alphabet.accesses_cons, Alphabet.bodies_cons]
    have hbehind : ((A.accesses w).map fun e => (e.1, s :: e.2)).map
        (fun e => (e.1, before.reverse ++ e.2)) =
          (A.accesses w).map fun e => (e.1, (s :: before).reverse ++ e.2) := by
      simp
    rw [List.map_append, hbehind]
    cases A.isCall s with
    | false => exact ih hA d (s :: before)
    | true =>
      simp only [if_true, recordFirst_eq, body_withReturns, List.map_singleton, List.append_nil]
      rw [ih (S := S.noting _ _) hA, noting_noting, AssocMap.newKeys_append,
        AssocMap.newKeys_append, ← List.append_assoc, ← List.append_assoc]
      rfl

/-! ## The pass for shorter sequences -/

/-- Takes a body of a call as its terminating sequence if it is the first one or a shorter one. -/
def shorten (S : SequenceStore α) (e : α × List α) : SequenceStore α :=
  if S.improves e.1 e.2.length then { S with terminating := S.terminating.insert e.1 e.2 } else S

/-- The pass takes the bodies one after the other. -/
theorem scanShorter_eq (hA : S.alphabet = A) (w : List α) :
    S.scanShorter (A.withReturns w) = (A.bodies w).foldl shorten S := by
  induction w generalizing S with
  | nil => rfl
  | cons s w ih =>
    have hcall : S.alphabet.isCall s = A.isCall s := by rw [hA]
    rw [Alphabet.withReturns_cons, scanShorter.eq_def, Alphabet.bodies_cons]
    dsimp only
    rw [hcall]
    cases A.isCall s with
    | false => exact ih hA
    | true =>
      cases hr : A.returnOffset? 0 w with
      | none => exact ih hA
      | some n =>
        have hlen : (w.take n).length = n :=
          List.length_take_of_le (Nat.le_of_lt (Alphabet.returnOffset?_lt hr))
        simp only [if_true, Option.map_some, Option.toList_some, List.singleton_append,
          List.foldl_cons, shorten, hlen, body_withReturns]
        split <;> exact ih hA

/-- The pass changes nothing but terminating sequences. -/
theorem foldl_shorten_eq (S : SequenceStore α) (es : List (α × List α)) :
    es.foldl shorten S = { S with terminating := (es.foldl shorten S).terminating } := by
  induction es generalizing S with
  | nil => rfl
  | cons e es ih =>
    rw [List.foldl_cons]
    refine (ih _).trans ?_
    rw [shorten]
    split <;> rfl

/-- What stands in front of the first element of a list is kept only if the element is not smaller. -/
theorem argmin_toList_cons {δ : Type} (f : δ → Nat) (o : Option δ) (b : δ) (l : List δ) :
    (o.toList ++ b :: l).argmin f =
      ((if o.all (f b < f ·) then some b else o).toList ++ l).argmin f := by
  cases o with
  | none => rfl
  | some a =>
    by_cases h : f b < f a
    · simp [List.argmin, List.argAux, h]
    · simp [List.argmin, List.argAux, h]

theorem argmin_append {δ : Type} (f : δ → Nat) (l l' : List δ) :
    (l ++ l').argmin f = ((l.argmin f).toList ++ l').argmin f := by
  rw [List.argmin, List.foldl_append, ← List.argmin]
  cases l.argmin f <;> rfl

theorem isSome_argmin {δ : Type} (f : δ → Nat) (l : List δ) :
    (l.argmin f).isSome = l.head?.isSome := by
  cases l with
  | nil => rfl
  | cons x l =>
    rw [List.head?_cons, Option.isSome_some, Option.isSome_iff_ne_none, ne_eq,
      List.argmin_eq_none]
    exact List.cons_ne_nil x l

/-- The pass finds the first one of the shortest bodies, if it is shorter than what is known. -/
theorem get?_foldl_shorten (S : SequenceStore α) (es : List (α × List α)) (c : α) :
    (es.foldl shorten S).terminating.get? c = ((S.terminating.get? c).toList ++
      (es.filter (·.1 = c)).map Prod.snd).argmin List.length := by
  induction es generalizing S with
  | nil =>
    rw [List.foldl_nil]
    cases S.terminating.get? c <;> rfl
  | cons e es ih =>
    obtain ⟨k, t⟩ := e
    rw [List.foldl_cons, ih, shorten]
    by_cases hk : k = c
    · -- for the call itself this is one step of the search for the first one of the shortest
      subst hk
      rw [List.filter_cons_of_pos (by simp), List.map_cons, argmin_toList_cons, improves]
      split <;> simp
    · rw [List.filter_cons_of_neg (by simpa using hk)]
      split <;> simp [Ne.symm hk]

/-! ## Whole scans -/

/-- The pass for first sequences, for a whole word. -/
theorem scanFirst_whole (S : SequenceStore α) (w : List α) :
    S.scanFirst ⟨[], []⟩ [] (S.alphabet.withReturns w) =
      (S.noting (S.alphabet.accesses w) (S.alphabet.bodies w),
        S.news (S.alphabet.accesses w) (S.alphabet.bodies w)) := by
  have hmap : ((S.alphabet.accesses w).map fun e => (e.1, [].reverse ++ e.2)) =
      S.alphabet.accesses w := by simp
  rw [scanFirst_eq rfl, hmap]
  rfl

theorem scan_of_first (h : S.preference = .first) (w : List α) : S.scan w =
    (S.news (S.alphabet.accesses w) (S.alphabet.bodies w),
      S.noting (S.alphabet.accesses w) (S.alphabet.bodies w)) := by
  obtain ⟨A, preference, access, terminating⟩ := S
  subst h
  rw [scan, scanFirst_whole]
  rfl

theorem scan_of_shortest (h : S.preference = .shortest) (w : List α) : S.scan w =
    (S.news (S.alphabet.accesses w) (S.alphabet.bodies w),
      (S.alphabet.bodies w).foldl shorten
        (S.noting (S.alphabet.accesses w) (S.alphabet.bodies w))) := by
  obtain ⟨A, preference, access, terminating⟩ := S
  subst h
  rw [scan, scanFirst_whole]
  exact congrArg (Prod.mk _) (scanShorter_eq rfl w)

/-- Whatever a store prefers, a scan reports what is new to it. -/
theorem scan_fst (S : SequenceStore α) (w : List α) :
    (S.scan w).1 = S.news (S.alphabet.accesses w) (S.alphabet.bodies w) := by
  cases h : S.preference with
  | first => rw [scan_of_first h]
  | shortest => rw [scan_of_shortest h]

/-- Whatever a store prefers, a scan keeps access sequences and enters new ones. -/
theorem scan_snd (S : SequenceStore α) (w : List α) : (S.scan w).2 = { S with
    access := S.access.enter (S.alphabet.accesses w)
    terminating := (S.scan w).2.terminating } := by
  obtain ⟨A, preference, access, terminating⟩ := S
  cases preference with
  | first => rw [scan_of_first rfl]; rfl
  | shortest => rw [scan_of_shortest rfl]; exact foldl_shorten_eq _ _

theorem lookup_eq_head? (es : List (α × List α)) (c : α) :
    es.lookup c = ((es.filter (·.1 = c)).map Prod.snd).head? := by
  induction es with
  | nil => rfl
  | cons e es ih =>
    obtain ⟨k, v⟩ := e
    rw [List.lookup_cons, ih]
    by_cases hc : c = k
    · simp [hc]
    · simp [Ne.symm hc, beq_eq_false_iff_ne.2 hc]

/-- A store that prefers short sequences has the first one of the shortest when it has scanned a word. -/
theorem get?_scan_of_shortest (h : S.preference = .shortest) (w : List α) (c : α) :
    (S.scan w).2.terminating.get? c = ((S.terminating.get? c).toList ++
      ((S.alphabet.bodies w).filter (·.1 = c)).map Prod.snd).argmin List.length := by
  rw [scan_of_shortest h]
  dsimp only
  rw [get?_foldl_shorten, noting, AssocMap.get?_enter, lookup_eq_head?]
  cases S.terminating.get? c with
  | some t => rfl
  | none =>
    cases ((S.alphabet.bodies w).filter (·.1 = c)).map Prod.snd with
    | nil => rfl
    | cons t ts =>
      -- the pass for first sequences has recorded `t` already
      rw [Option.none_or, List.head?_cons, argmin_toList_cons]
      simp

/-- Whatever a store prefers, the calls of bodies have terminating sequences. -/
theorem contains_terminating_scan (S : SequenceStore α) (w : List α) (c : α) :
    (S.scan w).2.terminating.contains c =
      (S.terminating.enter (S.alphabet.bodies w)).contains c := by
  cases h : S.preference with
  | first =>
    rw [scan_of_first h]
    rfl
  | shortest =>
    rw [AssocMap.contains_enter, AssocMap.contains, get?_scan_of_shortest h, isSome_argmin,
      lookup_eq_head?, AssocMap.contains]
    cases S.terminating.get? c <;> rfl

end BehavioralAutomata.SequenceStore
