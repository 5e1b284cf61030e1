import BehavioralAutomata.PairSet
import BehavioralAutomata.Queue
import BehavioralAutomata.Separation.Revival

/-!
# Words that tell two systems apart

Two systems over one alphabet are compared procedure by procedure. For each procedure that both can
enter, the pairs of states that both reach together are explored, where an invocation of a procedure
that is known to end in both systems counts as one step. What is found in one procedure, how to enter
another one and how to end it, makes further pairs reachable, so rounds follow each other until one
finds nothing new.

* `separatingWord?`: a word that one system accepts and the other one does not, while they agree on
  every shorter beginning of it.
* `equivalent`: there is no such word.
-/

namespace BehavioralAutomata

namespace Separation

/-- A search that stops as soon as it finds a separating word. -/
abbrev Search (α : Type) : Type → Type := Except (List α)

/-- What is known of the procedures that both systems can enter. -/
structure Findings (α : Type) where
  /-- Words that end with the call and enter it in both systems. -/
  access : AssocMap α (List α)
  /-- Words that both systems can read from the entry of the call before they return from it. -/
  terminating : AssocMap α (List α)

/-- How far the exploration of a pair of procedures has come. -/
structure Progress (α : Type) where
  findings : Findings α
  /-- The pairs that were seen. -/
  seen : PairSet
  /-- Pairs that were seen but not left yet, with the words that lead there from the entry. Each word is
  given from its end, so that it shares memory with the word before it. -/
  queue : Queue ((Nat × Nat) × List α)

variable {α β γ : Type} [DecidableEq α] [DecidableEq β] [DecidableEq γ]

/-- Remembers a pair that was not seen before. -/
def Progress.push (E : Progress α) (p : Nat × Nat) (w : List α) : Progress α :=
  if E.seen.contains p then E
  else { E with seen := E.seen.insert p, queue := E.queue.push (p, w) }

/-- At the entries of the two procedures. -/
def Progress.start (F : Findings α) (p : Nat × Nat) : Progress α where
  findings := F
  seen := (∅ : PairSet).insert p
  queue := .singleton (p, [])

/-- The verdict on entering a call, if it can be entered. -/
def entryVerdict? (S : System α β) (c : α) : Option Bool :=
  (S.procedure? c).bind fun P => P.start.map P.isAccepting

/-- Only `S` survives the call `c` behind `w`, with a rejecting entry. The other system rejects from
now on, so they differ if `S` comes back to acceptance. -/
@[macro_inline] def oneSided (S : System α β) (w : List α) (c : α) : Search α Unit :=
  match S.revival? c with
  | some v => .error (w ++ c :: v)
  | none => .ok ()

/-- Compares the systems on a single symbol from the beginning. -/
def visitFirst (L : System α β) (R : System α γ) (F : Findings α) (a : α) :
    Search α (Findings α) := do
  let l := L.reached [a]
  let r := R.reached [a]
  if L.isAccepting l != R.isAccepting r then
    .error [a]
  else if L.alphabet.isCall a then
    match l.isDead, r.isDead with
    | false, false => .ok { F with access := F.access.insert a [a] }
    | false, true => oneSided L [] a; .ok F
    | true, false => oneSided R [] a; .ok F
    | true, true => .ok F
  else
    .ok F

/-- A symbol with what it is for the procedures of the two systems. -/
structure Letter (α β γ : Type) where
  symbol : α
  left : Option β
  right : Option γ

def letters (L : System α β) (R : System α γ) : List (Letter α β γ) :=
  L.alphabet.symbols.map fun a => ⟨a, L.read a, R.read a⟩

/-- Compares two procedures of the call `c` on the symbol `a`, in the states that a word leads to from the
entry. `u` is this word from its end, and `w` enters the call. The accepting successors of these states
are `l` and `r`. -/
def visit (L : System α β) (R : System α γ) (c : α) (w u : List α) (E : Progress α) (a : α)
    (l r : Option Nat) : Search α (Progress α) :=
  match l, r with
  | none, none => .ok E
  | l, r =>
    match L.alphabet.kind? a with
    | some .internal =>
      match l, r with
      | some p, some q => .ok (E.push (p, q) (a :: u))
      | _, _ => .error (w ++ u.reverse ++ [a])
    | some .ret =>
      match l, r with
      | some _, some _ =>
        .ok { E with findings.terminating := E.findings.terminating.insertNew c u.reverse }
      | _, _ => .error (w ++ u.reverse ++ [a])
    | some .call =>
      let lv := l.bind fun _ => entryVerdict? L a
      let rv := r.bind fun _ => entryVerdict? R a
      if lv.getD false != rv.getD false then
        .error (w ++ u.reverse ++ [a])
      else
        match l, r, lv, rv with
        | some p, some q, some _, some _ =>
          let E := { E with
            findings.access := E.findings.access.insertNew a (w ++ u.reverse ++ [a]) }
          match E.findings.terminating.get? a with
          | some t => .ok (E.push (p, q) (L.alphabet.ret :: t.reverseAux (a :: u)))
          | none => .ok E
        | _, _, some _, none => do oneSided L (w ++ u.reverse) a; .ok E
        | _, _, none, some _ => do oneSided R (w ++ u.reverse) a; .ok E
        | _, _, _, _ => .ok E
    | none => .ok E

/-- Leaves the pair of `p` and `q`: visits the successors for all letters. -/
def leave (L : System α β) (R : System α γ) (letters : List (Letter α β γ)) (c : α) (w : List α)
    (P : Acceptor β) (Q : Acceptor γ) (p q : Nat) (u : List α) (E : Progress α) :
    Search α (Progress α) :=
  let left := P.liveEdges p
  let right := Q.liveEdges q
  letters.foldlM
    (fun E s => visit L R c w u E s.symbol (s.left.bind left.get?) (s.right.bind right.get?)) E

/-- Breadth-first exploration of the pairs of states of two procedures. -/
def explorePairs (L : System α β) (R : System α γ) (letters : List (Letter α β γ)) (c : α)
    (w : List α) (P : Acceptor β) (Q : Acceptor γ) :
    (fuel : Nat) → Progress α → Search α (Findings α)
  | 0, E => .ok E.findings
  | fuel + 1, E =>
    match E.queue.pop? with
    | none => .ok E.findings
    | some (((p, q), u), queue) => do
      let E ← leave L R letters c w P Q p q u { E with queue }
      explorePairs L R letters c w P Q fuel E

/-- Explores the procedures of one call. Every pair of states is left at most once, which bounds the
number of steps. -/
def explore (L : System α β) (R : System α γ) (letters : List (Letter α β γ)) (F : Findings α)
    (c : α) : Search α (Findings α) :=
  match F.access.get? c, L.procedures.get? c, R.procedures.get? c with
  | some w, some P, some Q =>
    match P.start, Q.start with
    | some p, some q =>
      explorePairs L R letters c w P Q (P.size * Q.size) (.start F (p, q))
    | _, _ => .ok F
  | _, _, _ => .ok F

/-- Rounds of exploration until one finds nothing new. -/
def saturate (L : System α β) (R : System α γ) : (rounds : Nat) → Findings α → Search α (Findings α)
  | 0, F => .ok F
  | n + 1, F => do
    let G ← F.access.keys.foldlM (explore L R (letters L R)) F
    if G.access.size = F.access.size ∧ G.terminating.size = F.terminating.size then .ok G
    else saturate L R n G

/-- The whole search. Every round but the last enters or ends a call that it did not before, so there
are at most twice as many rounds as calls, and one more. -/
def search (L : System α β) (R : System α γ) : Search α (Findings α) := do
  let F ← L.alphabet.symbols.foldlM (visitFirst L R) ⟨∅, ∅⟩
  saturate L R (2 * L.alphabet.calls.length + 1) F

end Separation

variable {α β γ : Type} [DecidableEq α] [DecidableEq β] [DecidableEq γ]

/-- A word on which the systems disagree although they agree on all shorter beginnings of it. -/
def separatingWord? (L : System α β) (R : System α γ) : Option (List α) :=
  match Separation.search L R with
  | .error w => some w
  | .ok _ => none

/-- The systems accept the same words. -/
def equivalent (L : System α β) (R : System α γ) : Bool := (separatingWord? L R).isNone

end BehavioralAutomata
