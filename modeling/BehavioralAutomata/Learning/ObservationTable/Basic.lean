import BehavioralAutomata.Learning.Answers
import BehavioralAutomata.Learning.LabelledWord

/-!
# Observation tables

An `ObservationTable` learns an acceptor from membership queries. Its rows belong to the base words and
their extensions by one symbol; the cell of a row and an experiment is the verdict on the row's word
followed by the experiment. The base words are the states of the hypothesis.

* `ObservationTable.close`: fills the table and promotes rows to the base until every row is the row of
  a base word. The number of rounds is limited.
* `ObservationTable.refine`: makes experiments of all suffixes of a counterexample.
* `ObservationTable.grow`: adds a symbol to the alphabet.
* `ObservationTable.representative`: the base word of the state that a word leads to.

No word is asked twice.
-/

namespace BehavioralAutomata

structure ObservationTable (β : Type) [DecidableEq β] where
  alphabet : List β
  alphabet_nodup : alphabet.Nodup
  /-- The words of the states, in the order in which they were found. -/
  base : List (List β)
  experiments : List (List β)
  /-- The cells of each row, in the order of the experiments. -/
  rows : WordMap β (List Bool)
  /-- What the oracle was asked. -/
  answers : Answers β
  hypothesis : Acceptor β
  /-- How many rounds a table may take to close. -/
  limit : Nat

/-- A table did not close within the limit. -/
structure LimitExceeded where
  limit : Nat
deriving DecidableEq

namespace ObservationTable

variable {β : Type} [DecidableEq β]

theorem nodup_eraseDups : (l : List β) → l.eraseDups.Nodup
  | [] => by simp
  | a :: l => by
    rw [List.eraseDups_cons, List.nodup_cons]
    exact ⟨by simp [List.mem_eraseDups], nodup_eraseDups _⟩
termination_by l => l.length
decreasing_by simpa [Nat.lt_succ_iff] using List.length_filter_le _ l

/-- The table before the first query. -/
def ofAlphabet (alphabet : List β) (limit : Nat) : ObservationTable β where
  alphabet := alphabet.eraseDups
  alphabet_nodup := nodup_eraseDups alphabet
  base := [[]]
  experiments := [[]]
  rows := ∅
  answers := ∅
  hypothesis := .empty
  limit := limit

/-- The words that are one symbol longer than one of the given words. -/
def extensions (T : ObservationTable β) (ws : List (List β)) : List (List β) :=
  ws.flatMap fun w => T.alphabet.map (w ++ [·])

/-- The words of the rows: each base word, followed by its extensions that are no base words. -/
def words (T : ObservationTable β) : List (List β) :=
  let base := WordMap.positions T.base
  T.base.flatMap fun w => w :: (T.extensions [w]).filter (!base.contains ·)

/-- The cells of a row. -/
def row (T : ObservationTable β) (w : List β) : List Bool := (T.rows.get? w).getD []

/-- The table was filled before. -/
def isFilled (T : ObservationTable β) : Bool := T.rows.contains []

def queryCount (T : ObservationTable β) : Nat := T.answers.size

/-! ## Filling -/

section

variable {m : Type → Type} [Monad m] (ask : List β → m Bool)

/-- The verdict on a word, which is asked for only if it is not known. -/
def answer (K : Answers β) (w : List β) : m (Bool × Answers β) :=
  match K.get? w with
  | some b => return (b, K)
  | none => do
    let b ← ask w
    return (b, K.insert w b)

/-- The cells of `w` for the given experiments, behind the ones that are there, latest first. -/
def fillCells (w : List β) : List (List β) → List Bool → Answers β → m (List Bool × Answers β)
  | [], cells, K => return (cells.reverse, K)
  | e :: es, cells, K => do
    let (b, K) ← answer ask K (w ++ e)
    fillCells w es (b :: cells) K

/-- Adds the cells that the row of `w` lacks. -/
def fillRow (T : ObservationTable β) (w : List β) : m (ObservationTable β) :=
  let row := T.row w
  match T.experiments.drop row.length with
  | [] => return T
  | es => do
    let (cells, answers) ← fillCells ask w es row.reverse T.answers
    return { T with answers, rows := T.rows.insert cells w }

/-- Fills the rows of the given words. -/
def fillRows (T : ObservationTable β) (ws : List (List β)) : m (ObservationTable β) :=
  ws.foldlM (fillRow ask) T

end

/-! ## Closing -/

/-- The words whose rows are none of `known` and no row of an earlier word. -/
def newRows (T : ObservationTable β) (known : WordMap Bool Unit) : List (List β) → List (List β)
  | [] => []
  | w :: ws =>
    if known.contains (T.row w) then T.newRows known ws
    else w :: T.newRows (known.insert () (T.row w)) ws

/-- Adds the rows of the given words to `known`. -/
def addRows (T : ObservationTable β) (known : WordMap Bool Unit) (ws : List (List β)) :
    WordMap Bool Unit :=
  ws.foldl (fun known w => known.insert () (T.row w)) known

/-- The rows of the base words. -/
def baseRows (T : ObservationTable β) : List (List Bool) := T.base.map T.row

/-- The state of a base word: its verdict is its first cell, and a symbol leads to the base word that
has the row of the extension. -/
def stateOf (T : ObservationTable β) (base : WordMap Bool Nat) (w : List β) :
    Acceptor.State β where
  accepting := (T.row w).headD false
  edges := .ofKeys T.alphabet T.alphabet_nodup fun a => base.get? (T.row (w ++ [a]))

/-- The acceptor whose states are the base words. -/
def toAcceptor (T : ObservationTable β) : Acceptor β where
  states := (T.base.map (T.stateOf (.positions T.baseRows))).toArray
  start := T.base.head?.map fun _ => 0
  target_lt s hs q hq := by
    obtain ⟨w, _, rfl⟩ := List.mem_map.1 (List.mem_toArray.1 hs)
    obtain ⟨a, _, hi⟩ := AssocMap.mem_values_ofKeys T.alphabet_nodup hq
    simpa [baseRows] using WordMap.lt_of_get?_positions hi
  start_lt q hq := by
    obtain ⟨w, hw, rfl⟩ := Option.map_eq_some_iff.1 hq
    rw [List.size_toArray, List.length_map]
    exact List.length_pos_of_mem (List.mem_of_mem_head? hw)

section

variable {m : Type → Type} [Monad m] (ask : List β → m Bool)

/-- Fills the rows of `ws` and promotes the first words of the rows that no base word has, for the
given number of rounds at most. The rows of all other words are known: those of the base words but
`fresh` are in `known`, and every extension has one of them. -/
def closeWithin : (rounds : Nat) → (known : WordMap Bool Unit) → (fresh ws : List (List β)) →
    ObservationTable β → ExceptT LimitExceeded m (ObservationTable β)
  | 0, _, _, _, T => throw ⟨T.limit⟩
  | n + 1, known, fresh, ws, T => do
    let T ← (T.fillRows ask ws : m (ObservationTable β))
    let known := T.addRows known fresh
    match T.newRows known ws with
    | [] => return { T with hypothesis := T.toAcceptor }
    | fresh => closeWithin n known fresh (T.extensions fresh) { T with base := T.base ++ fresh }

/-- Closes the table and rebuilds the hypothesis. -/
def close (T : ObservationTable β) : ExceptT LimitExceeded m (ObservationTable β) :=
  T.closeWithin ask T.limit ∅ T.base T.words

/-! ## Learning -/

/-- The suffixes of a word but the empty one, longest first. -/
def suffixes : List β → List (List β)
  | [] => []
  | a :: w => (a :: w) :: suffixes w

/-- Makes an experiment of every suffix of a word. -/
def addExperiments (T : ObservationTable β) (w : List β) : ObservationTable β :=
  let known := WordMap.positions T.experiments
  { T with experiments := T.experiments ++ (suffixes w).filter (!known.contains ·) }

/-- Refines the hypothesis if it disagrees with the label of the word, and answers whether it has more
states than before. -/
def refine (T : ObservationTable β) (q : LabelledWord β) :
    ExceptT LimitExceeded m (Bool × ObservationTable β) := do
  if T.hypothesis.accepts q.word = q.accepted then return (false, T)
  let U ← (T.addExperiments q.word).close ask
  return (T.hypothesis.size < U.hypothesis.size, U)

/-- Adds a symbol to the alphabet. A table that was closed before is closed again. -/
def grow (T : ObservationTable β) (a : β) : ExceptT LimitExceeded m (ObservationTable β) :=
  if h : a ∈ T.alphabet then return T
  else
    let T := { T with
      alphabet := T.alphabet ++ [a]
      alphabet_nodup := List.nodup_append.2
        ⟨T.alphabet_nodup, by simp, fun b hb c hc => by
          rintro rfl
          exact h (List.mem_singleton.1 hc ▸ hb)⟩ }
    if T.isFilled then T.close ask else return T

end

/-- The base word of the state that `w` leads to, or `w` itself if it leads nowhere. -/
def representative (T : ObservationTable β) (w : List β) : List β :=
  ((T.hypothesis.reached w).bind (T.base[·]?)).getD w

end ObservationTable

end BehavioralAutomata
