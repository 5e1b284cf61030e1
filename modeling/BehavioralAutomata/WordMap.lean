/-!
# Finite maps whose keys are words

A `WordMap` is a tree whose branches are named by symbols, so looking a word up takes time in the length
of the word and not in the number of words. Where only one word is left, the rest of that word is kept
in one piece.

* `get?_insert` says what insertion does to look-up.
* `positions` finds words of a list: `get?_positions` and `contains_positions`.
-/

namespace BehavioralAutomata

/-- A finite map from words over `β` to `ν`. -/
inductive WordMap (β : Type u) (ν : Type v) where
  /-- One word with its value. -/
  | single (w : List β) (v : ν)
  /-- The value of the empty word, and a map for what follows each first symbol. -/
  | node (value : Option ν) (branches : List (β × WordMap β ν))

namespace WordMap

variable {β : Type u} {ν : Type v}

instance : EmptyCollection (WordMap β ν) := ⟨.node none []⟩

variable [DecidableEq β]

/-- The value of a word, if there is one. -/
def get? : WordMap β ν → List β → Option ν
  | .single u v, w => if w = u then some v else none
  | .node value _, [] => value
  | .node _ branches, a :: w =>
    match branches.find? (·.1 = a) with
    | some (_, m) => m.get? w
    | none => none

def contains (m : WordMap β ν) (w : List β) : Bool := (m.get? w).isSome

/-- The map of two words. If they are the same, the second value counts. -/
def pair (x v : ν) : List β → List β → WordMap β ν
  | [], [] => .node (some v) []
  | [], b :: w => .node (some x) [(b, .single w v)]
  | a :: u, [] => .node (some v) [(a, .single u x)]
  | a :: u, b :: w =>
    if b = a then .node none [(a, pair x v u w)]
    else .node none [(a, .single u x), (b, .single w v)]

/-- Changes the branch of a symbol, or adds one. -/
def alterBranch (a : β) (new : WordMap β ν) (f : WordMap β ν → WordMap β ν) :
    List (β × WordMap β ν) → List (β × WordMap β ν)
  | [] => [(a, new)]
  | (b, m) :: branches =>
    if b = a then (a, f m) :: branches else (b, m) :: alterBranch a new f branches

/-- Sets the value of a word. -/
def insert (v : ν) : List β → WordMap β ν → WordMap β ν
  | w, .single u x => if w = u then .single w v else pair x v u w
  | [], .node _ branches => .node (some v) branches
  | a :: w, .node value branches =>
    .node value (alterBranch a (.single w v) (insert v w) branches)

@[simp] theorem get?_empty (w : List β) : (∅ : WordMap β ν).get? w = none := by
  cases w <;> rfl

@[simp] theorem get?_single (u w : List β) (v : ν) :
    (single u v).get? w = if w = u then some v else none := by
  rw [get?]

@[simp] theorem get?_node_nil (value : Option ν) (branches : List (β × WordMap β ν)) :
    (node value branches).get? [] = value := by
  rw [get?]

theorem get?_node_cons (value : Option ν) (branches : List (β × WordMap β ν)) (a : β)
    (w : List β) :
    (node value branches).get? (a :: w) =
      (((branches.find? (·.1 = a)).map Prod.snd).getD ∅).get? w := by
  rw [get?]
  split <;> simp [*]

theorem get?_branch (value : Option ν) (a c : β) (m : WordMap β ν)
    (branches : List (β × WordMap β ν)) (w : List β) :
    (node value ((a, m) :: branches)).get? (c :: w) =
      if c = a then m.get? w else (node value branches).get? (c :: w) := by
  rw [get?_node_cons, get?_node_cons, List.find?_cons]
  by_cases h : c = a
  · simp [h]
  · simp [h, Ne.symm h]

@[simp] theorem get?_leaf_cons (value : Option ν) (a : β) (w : List β) :
    (node value []).get? (a :: w) = none := by
  simp [get?_node_cons]

theorem get?_pair (x v : ν) (u w y : List β) :
    (pair x v u w).get? y = if y = w then some v else (single u x).get? y := by
  induction u generalizing w y with
  | nil => cases w <;> cases y <;> grind [pair, get?_branch, get?_leaf_cons, get?_node_nil, get?_single]
  | cons a u ih =>
    cases w with
    | nil => cases y <;> grind [pair, get?_branch, get?_leaf_cons, get?_node_nil, get?_single]
    | cons b w =>
      by_cases h : b = a <;> cases y <;>
        grind [pair, get?_branch, get?_leaf_cons, get?_node_nil, get?_single]

theorem find?_alterBranch (a c : β) (new : WordMap β ν) (f : WordMap β ν → WordMap β ν)
    (branches : List (β × WordMap β ν)) :
    (alterBranch a new f branches).find? (·.1 = c) =
      if c = a then some (a, ((branches.find? (·.1 = a)).map fun e => f e.2).getD new)
      else branches.find? (·.1 = c) := by
  induction branches with
  | nil => by_cases h : c = a <;> grind [alterBranch]
  | cons e branches ih => by_cases h : e.1 = a <;> by_cases h' : c = a <;> grind [alterBranch]

theorem get?_insert (m : WordMap β ν) (v : ν) (w u : List β) :
    (m.insert v w).get? u = if u = w then some v else m.get? u := by
  induction w generalizing m u with
  | nil =>
    cases m with
    | single y x => by_cases h : [] = y <;> grind [insert, get?_pair, get?_single]
    | node value branches => cases u <;> simp [insert, get?_node_cons]
  | cons a w ih =>
    cases m with
    | single y x => by_cases h : a :: w = y <;> grind [insert, get?_pair, get?_single]
    | node value branches =>
      cases u with
      | nil => simp [insert]
      | cons c u =>
        rw [insert, get?_node_cons, find?_alterBranch, get?_node_cons]
        by_cases h : c = a
        · subst h
          cases branches.find? (·.1 = c) <;> simp [ih]
        · simp [h]

theorem contains_insert (m : WordMap β ν) (v : ν) (w u : List β) :
    (m.insert v w).contains u = (u == w || m.contains u) := by
  rw [contains, contains, get?_insert]
  by_cases h : u = w <;> simp [h]

/-! ## Words of a list -/

/-- The position of every word of a list, the first one if it occurs several times. -/
def positions (ws : List (List β)) : WordMap β Nat :=
  ws.zipIdx.foldr (fun (w, i) m => m.insert i w) ∅

private theorem get?_foldr_insert (ws : List (List β)) (n : Nat) (w : List β) :
    ((ws.zipIdx n).foldr (fun (w, i) m => m.insert i w) (∅ : WordMap β Nat)).get? w =
      (ws.findIdx? (· = w)).map (n + ·) := by
  induction ws generalizing n with
  | nil => simp
  | cons u ws ih =>
    rw [List.zipIdx_cons, List.foldr_cons, get?_insert, ih, List.findIdx?_cons]
    by_cases h : w = u
    · simp [h]
    · cases ws.findIdx? (· = w) <;> simp [h, Ne.symm h]; omega

theorem get?_positions (ws : List (List β)) (w : List β) :
    (positions ws).get? w = ws.findIdx? (· = w) := by
  rw [positions, get?_foldr_insert]
  simp

theorem contains_positions (ws : List (List β)) (w : List β) :
    (positions ws).contains w = true ↔ w ∈ ws := by
  rw [contains, get?_positions, List.findIdx?_isSome, List.any_eq_true]
  simp

theorem lt_of_get?_positions {ws : List (List β)} {w : List β} {i : Nat}
    (h : (positions ws).get? w = some i) : i < ws.length := by
  rw [get?_positions] at h
  exact (List.findIdx?_eq_some_iff_getElem.1 h).1

end WordMap

end BehavioralAutomata
