/-!
# Queues

A `Queue` gives its elements back in the order in which they came. `toList` is the view: `toList_push` and
`pop?_eq_none_iff`, `toList_of_pop?` say what the operations do to it.
-/

namespace BehavioralAutomata

/-- A queue whose elements are those of `front`, followed by those of `back` from its end. -/
structure Queue (α : Type u) where
  front : List α
  back : List α

namespace Queue

variable {α : Type u}

/-- The elements, the next one first. -/
def toList (q : Queue α) : List α := q.front ++ q.back.reverse

def singleton (a : α) : Queue α := ⟨[a], []⟩

def push (q : Queue α) (a : α) : Queue α := { q with back := a :: q.back }

/-- The next element and the queue without it. -/
def pop? (q : Queue α) : Option (α × Queue α) :=
  match q.front with
  | a :: front => some (a, { q with front })
  | [] => match q.back.reverse with
    | a :: front => some (a, ⟨front, []⟩)
    | [] => none

@[simp] theorem toList_singleton (a : α) : (singleton a).toList = [a] := rfl

@[simp] theorem toList_push (q : Queue α) (a : α) : (q.push a).toList = q.toList ++ [a] := by
  simp [toList, push]

theorem pop?_eq_some_iff_toList {q : Queue α} {a : α} {r : List α} :
    (q.pop?.map fun p => (p.1, p.2.toList)) = some (a, r) ↔ q.toList = a :: r := by
  obtain ⟨front, back⟩ := q
  cases front with
  | cons b front => simp [pop?, toList]
  | nil => cases h : back.reverse <;> simp [pop?, toList, h]

theorem pop?_eq_none_iff {q : Queue α} : q.pop? = none ↔ q.toList = [] := by
  obtain ⟨front, back⟩ := q
  cases front with
  | cons b front => simp [pop?, toList]
  | nil => cases h : back.reverse <;> simp [pop?, toList, h]

theorem toList_of_pop? {q r : Queue α} {a : α} (h : q.pop? = some (a, r)) :
    q.toList = a :: r.toList :=
  pop?_eq_some_iff_toList.1 (by simp [h])

end Queue

end BehavioralAutomata
