import BehavioralAutomata.Learning.Embedding
import BehavioralAutomata.Learning.LocalLearner
import BehavioralAutomata.System.Local

/-!
# Learning sessions

A `Session` learns a system procedure by procedure. Accepted words reveal the initial procedure, access
sequences and terminating sequences; each procedure gets a learner when its access sequence is found,
and each call becomes usable when its terminating sequence is. A counterexample is cut down to the
first position at which the hypothesis goes wrong, and the local word of the procedure that is active
there goes to its learner.

* `Session.hypothesis`: the system that the hypotheses of the learners make up.
* `Session.refine`: learns from a labelled word until the hypothesis agrees with it and no procedure
  goes on behind a return.

The words that are asked depend on the learners; how they are answered is a parameter.
-/

namespace BehavioralAutomata

/-- A change of the procedures or of the local alphabets. -/
inductive SessionEvent (α : Type) where
  /-- The procedure has a learner now. -/
  | discovered (procedure : α)
  /-- The local symbol belongs to every local alphabet now and is current. -/
  | grown (symbol : LocalSymbol α)
deriving DecidableEq

/-- What is known of the system, with learners of type `L`. -/
structure Session (L α : Type) where
  alphabet : Alphabet α
  store : SequenceStore α
  localAlphabet : LocalAlphabet α
  learners : AssocMap α L
  initialCall : Option α
  /-- All changes, in the order in which they were made. -/
  events : List (SessionEvent α)

namespace Session

variable {L α : Type} [DecidableEq α]

def start (A : Alphabet α) (preference : Preference) : Session L α where
  alphabet := A
  store := .empty A preference
  localAlphabet := .ofAlphabet A
  learners := ∅
  initialCall := none
  events := []

/-- The procedures that have learners, in the order in which they were found. -/
def discovered (s : Session L α) : List α := s.learners.keys

section

variable [LocalLearner L α]

/-- The system of the current hypotheses. It is empty as long as no procedure was found. -/
def hypothesis (s : Session L α) : LocalSystem α :=
  if s.learners.size = 0 then .empty s.alphabet s.localAlphabet
  else .ofProcedures s.alphabet s.localAlphabet s.initialCall
    (s.learners.mapValues LocalLearner.hypothesis)

/-- A word that the hypothesis of a procedure accepts although it goes on behind a return. -/
def violation? (s : Session L α) (c : α) : Option (LabelledWord (LocalSymbol α)) :=
  (s.learners.get? c).bind LocalLearner.violation?

/-- No hypothesis goes on behind a return. -/
def isReturnClosed (s : Session L α) : Bool := s.discovered.all fun c => (s.violation? c).isNone

/-- The hypothesis gives a word its label. -/
def agrees (s : Session L α) (q : LabelledWord α) : Bool := s.hypothesis.accepts q.word = q.accepted

end

/-! ## Attributing counterexamples -/

/-- The position of the first symbol behind which the system rejects. -/
def firstRejection? {β : Type} [DecidableEq β] (S : System α β) (c : Configuration α) :
    List α → Option Nat
  | [] => none
  | a :: w =>
    if S.isAccepting (S.step c a) then (firstRejection? S (S.step c a) w).map (· + 1) else some 0

/-- Where a system goes wrong on a word that it mislabels: where it first rejects a word that it should
accept, and at the end of a word that it should reject. -/
def mismatch {β : Type} [DecidableEq β] (S : System α β) (q : LabelledWord α) : Nat :=
  let last := q.word.length - 1
  if q.accepted then (firstRejection? S .initial q.word).getD last else last

variable [LocalLearner L α]

/-- The procedure that mislabels a word, and its local word up to the position where it goes wrong. -/
def localCounterexample (s : Session L α) (q : LabelledWord α) :
    Except (LearningError α) (α × LabelledWord (LocalSymbol α)) :=
  let i := mismatch s.hypothesis.toSystem q
  match (s.alphabet.findCall? q.word i).bind fun j => q.word[j]?.map (j, ·) with
  | none => .error (.noActiveProcedure i q.word)
  | some (j, c) =>
    let v := s.alphabet.normalize ((q.word.take i).drop (j + 1)) ++ (q.word.drop i).take 1
    match s.localAlphabet.localWord? v with
    | none => .error (.unknownSymbols q.word)
    | some v => .ok (c, ⟨v, q.accepted⟩)

/-- How many refinements with one word can succeed: one for every position of the word, apart from
those that the learners may waste. -/
def resolveBudget (s : Session L α) (q : LabelledWord α) : Nat :=
  s.learners.values.foldl (fun n l => n + LocalLearner.spare l) q.word.length

/-- How many refinements of a procedure can succeed until it does not go on behind a return: one for
every symbol that follows a return, apart from those that the learner may waste. -/
def repairBudget (s : Session L α) (c : α) : Nat :=
  ((s.learners.get? c).map fun l => (LocalLearner.inputs l).length + LocalLearner.spare l).getD 0

end Session

/-! ## Learning -/

namespace Session

variable {L α : Type} [DecidableEq α] {m : Type → Type} [Monad m]
  [MonadExceptOf (LearningError α) m] [LocalLearning m L α] (ask : List α → m Bool)

/-- Gives a procedure a learner, which `create` makes from the current local symbols. -/
def discover (create : α → List (LocalSymbol α) → L) (s : Session L α) (c : α) :
    m (Session L α) := do
  let l ← LocalLearning.start (s.store.askLocal ask c) (create c s.localAlphabet.symbols)
  return { s with learners := s.learners.insert c l, events := s.events ++ [.discovered c] }

/-- Adds a symbol to the inputs of one learner. -/
def growLearner (store : SequenceStore α) (symbol : LocalSymbol α) (learners : AssocMap α L)
    (c : α) : m (AssocMap α L) :=
  match learners.get? c with
  | some l => do
    let l ← LocalLearning.grow (store.askLocal ask c) symbol l
    return learners.insert c l
  | none => return learners

/-- Makes a local symbol current and adds it to the inputs of all learners. -/
def growAll (s : Session L α) (symbol : LocalSymbol α) : m (Session L α) := do
  let learners ← s.learners.keys.foldlM (growLearner ask s.store symbol) s.learners
  return { s with
    localAlphabet := s.localAlphabet.set symbol
    learners
    events := s.events ++ [.grown symbol] }

/-- Makes a call usable, and answers whether it was not before. -/
def makeUsable (s : Session L α) (c : α) : m (Bool × Session L α) :=
  match s.localAlphabet.get? c with
  | some l => if l.isUsable then return (false, s) else return (true, ← s.growAll ask (.call c true))
  | none => return (false, s)

/-- Makes several calls usable, and answers whether one of them was not before. -/
def makeAllUsable : List α → Session L α → m (Bool × Session L α)
  | [], s => return (false, s)
  | c :: cs, s => do
    let (b, s) ← s.makeUsable ask c
    let (b', s) ← makeAllUsable cs s
    return (b || b', s)

/-- Gives a procedure a learner, and searches its first hypothesis for terminating sequences. -/
def discoverAndSearch (create : α → List (LocalSymbol α) → L) (s : Session L α) (c : α) :
    m (Session L α) := do
  let s ← s.discover ask create c
  match s.learners.get? c with
  | some l =>
    let (improved, store) := s.store.scanHypotheses [(c, LocalLearner.hypothesis l)]
      (fun d => (s.learners.get? d).map LocalLearner.representative) (LocalLearner.inputs l)
    return (← makeAllUsable ask improved { s with store }).2
  | none => return s

/-- Takes what an accepted word shows of the procedures, and answers whether any of it is new. -/
def extract (create : α → List (LocalSymbol α) → L) (s : Session L α) (q : LabelledWord α) :
    m (Bool × Session L α) :=
  if q.accepted then do
    let (found, store) := s.store.scan q.word
    let (usable, s) ← makeAllUsable ask found.terminations
      { s with initialCall := q.word.head?, store }
    let s ← found.calls.foldlM (discoverAndSearch ask create) s
    return (usable || !found.calls.isEmpty, s)
  else
    return (false, s)

/-- Passes the local word of a mislabelled word to the learner of its procedure. -/
def refineLocal (s : Session L α) (q : LabelledWord α) : m (Session L α) :=
  match s.localCounterexample q with
  | .error e => throw e
  | .ok (c, v) =>
    match s.learners.get? c with
    | none => throw (.unknownProcedure c : LearningError α)
    | some l => do
      let (used, l) ← LocalLearning.refine (s.store.askLocal ask c) v l
      if used then return { s with learners := s.learners.insert c l }
      else throw (.unusedCounterexample c v : LearningError α)

/-- Refines until the hypothesis agrees with the word, and answers whether it did not before. -/
def resolve (q : LabelledWord α) : (budget : Nat) → Session L α → m (Bool × Session L α)
  | 0, s =>
    if s.agrees q then return (false, s)
    else match s.localCounterexample q with
      | .error e => throw e
      | .ok (c, v) => throw (.unusedCounterexample c v : LearningError α)
  | n + 1, s =>
    if s.agrees q then return (false, s)
    else do
      let s ← s.refineLocal ask q
      let (_, s) ← resolve q n s
      return (true, s)

/-- Refines one procedure until it does not go on behind a return, and answers whether it did. -/
def repair (c : α) : (budget : Nat) → Session L α → m (Bool × Session L α)
  | 0, s =>
    match s.violation? c with
    | some _ => throw (.unrepaired c : LearningError α)
    | none => return (false, s)
  | n + 1, s =>
    match s.learners.get? c with
    | none => return (false, s)
    | some l =>
      match LocalLearner.violation? l with
      | none => return (false, s)
      | some v => do
        let (used, l) ← LocalLearning.refine (s.store.askLocal ask c) v l
        if used then
          let (_, s) ← repair c n { s with learners := s.learners.insert c l }
          return (true, s)
        else throw (.unrepaired c : LearningError α)

/-- Refines the procedures one after the other until none goes on behind a return. -/
def repairAll : List α → Session L α → m (Bool × Session L α)
  | [], s => return (false, s)
  | c :: cs, s => do
    let (b, s) ← repair ask c (s.repairBudget c) s
    let (b', s) ← repairAll cs s
    return (b || b', s)

/-- Learns from a labelled word, and answers whether anything changed. -/
def refine (create : α → List (LocalSymbol α) → L) (s : Session L α) (q : LabelledWord α) :
    m (Bool × Session L α) :=
  if q.word = [] then return (false, s)
  else do
    let (extracted, s) ← s.extract ask create q
    let (resolved, s) ← resolve ask q (s.resolveBudget q) s
    let (repaired, s) ← repairAll ask s.discovered s
    return (extracted || resolved || repaired, s)

end Session

end BehavioralAutomata
