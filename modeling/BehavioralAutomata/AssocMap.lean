/-!
# Finite maps in order of first insertion

An `AssocMap` is a list of entries with distinct keys. A new key goes to the end and a known key keeps
its place, so a registry that grows during a computation lists its keys in the order in which they
were found.

* `get?_insert` and `keys_insert` say what insertion does to the two views of a map, look-up and keys.
* `get?_eq_some_iff` ties look-up to the entries.
-/

namespace BehavioralAutomata

/-- A finite map from `κ` to `ν`. -/
structure AssocMap (κ : Type u) (ν : Type v) where
  entries : List (κ × ν)
  nodup : (entries.map Prod.fst).Nodup
deriving DecidableEq

namespace AssocMap

variable {κ : Type u} {ν : Type v} {ω : Type w}

instance : EmptyCollection (AssocMap κ ν) := ⟨⟨[], List.nodup_nil⟩⟩

instance : Inhabited (AssocMap κ ν) := ⟨∅⟩

/-- The keys, in order of first insertion. -/
def keys (m : AssocMap κ ν) : List κ := m.entries.map Prod.fst

/-- The values, in the order of their keys. -/
def values (m : AssocMap κ ν) : List ν := m.entries.map Prod.snd

def size (m : AssocMap κ ν) : Nat := m.entries.length

@[simp] theorem length_keys (m : AssocMap κ ν) : m.keys.length = m.size := by simp [keys, size]

theorem nodup_keys (m : AssocMap κ ν) : m.keys.Nodup := m.nodup

@[simp] theorem keys_empty : (∅ : AssocMap κ ν).keys = [] := rfl

@[simp] theorem size_empty : (∅ : AssocMap κ ν).size = 0 := rfl

/-- Applies `f` to every value. -/
def mapValues (f : ν → ω) (m : AssocMap κ ν) : AssocMap κ ω where
  entries := m.entries.map fun e => (e.1, f e.2)
  nodup := by simpa [Function.comp_def] using m.nodup

@[simp] theorem keys_mapValues (f : ν → ω) (m : AssocMap κ ν) : (m.mapValues f).keys = m.keys := by
  simp [keys, mapValues, Function.comp_def]

/-- The entries whose values `p` holds of. -/
def filterValues (p : ν → Bool) (m : AssocMap κ ν) : AssocMap κ ν where
  entries := m.entries.filter fun e => p e.2
  nodup := m.nodup.sublist (List.filter_sublist.map _)

/-- The map that gives every key of a list the value that `f` has for it, if it has one. -/
def ofKeys (keys : List κ) (nodup : keys.Nodup) (f : κ → Option ν) : AssocMap κ ν where
  entries := keys.filterMap fun k => (f k).map (k, ·)
  nodup := by
    rw [List.map_filterMap]
    refine nodup.sublist ?_
    induction keys with
    | nil => simp
    | cons k keys ih =>
      have := ih (List.nodup_cons.1 nodup).2
      cases h : f k <;> simp_all

theorem mem_values_ofKeys {keys : List κ} (nodup : keys.Nodup) {f : κ → Option ν} {v : ν}
    (h : v ∈ (ofKeys keys nodup f).values) : ∃ k ∈ keys, f k = some v := by
  simpa [ofKeys, values] using h

variable [DecidableEq κ]

/-- The value of `k`, if there is one. -/
def get? (m : AssocMap κ ν) (k : κ) : Option ν := (m.entries.find? (·.1 = k)).map Prod.snd

def contains (m : AssocMap κ ν) (k : κ) : Bool := (m.get? k).isSome

@[simp] theorem get?_empty (k : κ) : (∅ : AssocMap κ ν).get? k = none := rfl

theorem get?_eq_some_iff {m : AssocMap κ ν} {k : κ} {v : ν} :
    m.get? k = some v ↔ (k, v) ∈ m.entries := by
  obtain ⟨es, h⟩ := m
  simp only [get?]
  induction es with
  | nil => simp
  | cons e es ih =>
    obtain ⟨k', v'⟩ := e
    simp only [List.map_cons, List.nodup_cons, List.mem_map, Prod.exists, exists_and_right,
      exists_eq_right, not_exists] at h
    by_cases hk : k' = k
    · subst hk
      simp only [decide_true, List.find?_cons_of_pos, Option.map_some, Option.some.injEq,
        List.mem_cons, Prod.mk.injEq, true_and]
      exact ⟨fun hv => .inl hv.symm, fun hv => hv.elim (·.symm) fun hm => absurd hm (h.1 v)⟩
    · simp [hk, ih h.2, Ne.symm hk]

theorem get?_mapValues (f : ν → ω) (m : AssocMap κ ν) (k : κ) :
    (m.mapValues f).get? k = (m.get? k).map f := by
  simp [get?, mapValues, List.find?_map, Function.comp_def]

theorem get?_filterValues (p : ν → Bool) (m : AssocMap κ ν) (k : κ) :
    (m.filterValues p).get? k = (m.get? k).filter p := by
  ext v
  simp [get?_eq_some_iff, filterValues, Option.filter_eq_some_iff]

theorem get?_ofKeys {keys : List κ} {nodup : keys.Nodup} {f : κ → Option ν} {k : κ} :
    (ofKeys keys nodup f).get? k = if k ∈ keys then f k else none := by
  ext v
  rw [get?_eq_some_iff]
  by_cases h : k ∈ keys <;> simp [ofKeys, h]

theorem mem_keys_iff {m : AssocMap κ ν} {k : κ} : k ∈ m.keys ↔ ∃ v, m.get? k = some v := by
  simp [keys, get?_eq_some_iff]

theorem contains_iff {m : AssocMap κ ν} {k : κ} : m.contains k = true ↔ k ∈ m.keys := by
  rw [contains, Option.isSome_iff_exists, mem_keys_iff]

theorem get?_eq_none_iff {m : AssocMap κ ν} {k : κ} : m.get? k = none ↔ k ∉ m.keys := by
  rw [mem_keys_iff, Option.eq_none_iff_forall_ne_some, not_exists]

theorem mem_values_of_get? {m : AssocMap κ ν} {k : κ} {v : ν} (h : m.get? k = some v) :
    v ∈ m.values :=
  List.mem_map.2 ⟨(k, v), get?_eq_some_iff.1 h, rfl⟩

/-! ## Insertion -/

/-- Puts `v` where `k` stands, or adds both at the end. -/
private def put (k : κ) (v : ν) : List (κ × ν) → List (κ × ν)
  | [] => [(k, v)]
  | e :: es => if e.1 = k then (k, v) :: es else e :: put k v es

private theorem map_fst_put (k : κ) (v : ν) (es : List (κ × ν)) :
    (put k v es).map Prod.fst =
      if k ∈ es.map Prod.fst then es.map Prod.fst else es.map Prod.fst ++ [k] := by
  induction es with
  | nil => simp [put]
  | cons e es ih => by_cases h : e.1 = k <;> grind [put]

private theorem find?_put (k k' : κ) (v : ν) (es : List (κ × ν)) :
    ((put k v es).find? (·.1 = k')).map Prod.snd =
      if k' = k then some v else (es.find? (·.1 = k')).map Prod.snd := by
  induction es with
  | nil => by_cases h : k' = k <;> grind [put]
  | cons e es ih => by_cases h : e.1 = k <;> by_cases h' : k' = k <;> grind [put]

private theorem put_of_not_mem {k : κ} {v : ν} {es : List (κ × ν)}
    (h : k ∉ es.map Prod.fst) : put k v es = es ++ [(k, v)] := by
  induction es with
  | nil => rfl
  | cons e es ih =>
    rw [List.map_cons, List.mem_cons, not_or] at h
    rw [put, if_neg (Ne.symm h.1), ih h.2, List.cons_append]

/-- Sets the value of `k`. -/
def insert (m : AssocMap κ ν) (k : κ) (v : ν) : AssocMap κ ν where
  entries := put k v m.entries
  nodup := by
    rw [map_fst_put]
    split
    · exact m.nodup
    · next h =>
      refine List.nodup_append.2 ⟨m.nodup, by simp, fun a ha b hb => ?_⟩
      rintro rfl
      exact h (List.mem_singleton.1 hb ▸ ha)

@[simp] theorem keys_insert (m : AssocMap κ ν) (k : κ) (v : ν) :
    (m.insert k v).keys = if k ∈ m.keys then m.keys else m.keys ++ [k] :=
  map_fst_put k v m.entries

theorem mem_keys_insert {m : AssocMap κ ν} {k k' : κ} {v : ν} :
    k' ∈ (m.insert k v).keys ↔ k' = k ∨ k' ∈ m.keys := by
  rw [keys_insert]
  split
  · next h =>
    constructor
    · exact .inr
    · rintro (rfl | h')
      · exact h
      · exact h'
  · simp [or_comm]

@[simp] theorem get?_insert (m : AssocMap κ ν) (k k' : κ) (v : ν) :
    (m.insert k v).get? k' = if k' = k then some v else m.get? k' :=
  find?_put k k' v m.entries

theorem entries_insert_of_not_mem {m : AssocMap κ ν} {k : κ} (h : k ∉ m.keys) (v : ν) :
    (m.insert k v).entries = m.entries ++ [(k, v)] :=
  put_of_not_mem h

theorem mem_values_insert {m : AssocMap κ ν} {k : κ} {v u : ν} (h : u ∈ (m.insert k v).values) :
    u = v ∨ u ∈ m.values := by
  obtain ⟨⟨k', u⟩, he, rfl⟩ := List.mem_map.1 h
  have := get?_eq_some_iff.2 he
  rw [get?_insert] at this
  split at this
  · exact .inl (Option.some.inj this).symm
  · exact .inr (mem_values_of_get? this)

/-- Sets the value of `k` unless there already is one. Only then the value is computed. -/
@[macro_inline] def insertNew (m : AssocMap κ ν) (k : κ) (v : ν) : AssocMap κ ν :=
  match m.get? k with
  | some _ => m
  | none => m.insert k v

/-- Applies `f` to the value of `k`, if there is one. -/
def modify (m : AssocMap κ ν) (k : κ) (f : ν → ν) : AssocMap κ ν :=
  match m.get? k with
  | some v => m.insert k (f v)
  | none => m

theorem get?_insertNew (m : AssocMap κ ν) (k k' : κ) (v : ν) :
    (m.insertNew k v).get? k' = if k' = k then some ((m.get? k).getD v) else m.get? k' := by
  rw [insertNew]
  split <;> by_cases h : k' = k <;> simp_all

theorem of_get?_insertNew {m : AssocMap κ ν} {k k' : κ} {v u : ν}
    (h : (m.insertNew k v).get? k' = some u) : m.get? k' = some u ∨ k' = k ∧ u = v := by
  rw [get?_insertNew] at h
  split at h
  · next hk =>
    subst hk
    cases hm : m.get? k' with
    | none => exact .inr ⟨rfl, by simpa [hm] using h.symm⟩
    | some x => exact .inl (by simpa [hm] using h)
  · exact .inl h

theorem mem_keys_insertNew (m : AssocMap κ ν) (k : κ) (v : ν) : k ∈ (m.insertNew k v).keys := by
  rw [mem_keys_iff, get?_insertNew, if_pos rfl]
  exact ⟨_, rfl⟩

/-- Insertion of what is new appends to the entries. -/
theorem entries_prefix_insertNew (m : AssocMap κ ν) (k : κ) (v : ν) :
    m.entries <+: (m.insertNew k v).entries := by
  rw [insertNew]
  split
  · exact List.prefix_rfl
  · next h => exact entries_insert_of_not_mem (get?_eq_none_iff.1 h) v ▸ List.prefix_append ..

/-- A map whose entries continue those of another one has the values of that map. -/
theorem get?_of_prefix {m n : AssocMap κ ν} (h : m.entries <+: n.entries) {k : κ} {v : ν}
    (hv : m.get? k = some v) : n.get? k = some v :=
  get?_eq_some_iff.2 (h.subset (get?_eq_some_iff.1 hv))

omit [DecidableEq κ] in
theorem eq_of_prefix {m n : AssocMap κ ν} (h : m.entries <+: n.entries) (hs : n.size = m.size) :
    m = n := by
  have he : m.entries = n.entries := h.eq_of_length hs.symm
  cases m
  cases n
  cases he
  rfl

theorem keys_modify (m : AssocMap κ ν) (k : κ) (f : ν → ν) : (m.modify k f).keys = m.keys := by
  rw [modify]
  split
  · next v h => rw [keys_insert, if_pos (mem_keys_iff.2 ⟨v, h⟩)]
  · rfl

theorem get?_modify (m : AssocMap κ ν) (k k' : κ) (f : ν → ν) :
    (m.modify k f).get? k' = if k' = k then (m.get? k').map f else m.get? k' := by
  rw [modify]
  split <;> by_cases h' : k' = k <;> simp_all

/-- Enters the pairs one after the other, so a repeated key keeps its first place and takes its last
value. -/
def ofList (es : List (κ × ν)) : AssocMap κ ν := es.foldl (fun m e => m.insert e.1 e.2) ∅

theorem entries_foldl_insert {m : AssocMap κ ν} {es : List (κ × ν)}
    (h : ((m.entries ++ es).map Prod.fst).Nodup) :
    (es.foldl (fun m e => m.insert e.1 e.2) m).entries = m.entries ++ es := by
  induction es generalizing m with
  | nil => rw [List.foldl_nil, List.append_nil]
  | cons e es ih =>
    have hnew : e.1 ∉ m.keys := by
      rw [List.map_append, List.nodup_append] at h
      exact fun hm => h.2.2 e.1 hm e.1 (by simp) rfl
    have hentries := entries_insert_of_not_mem hnew e.2
    rw [List.foldl_cons, ih (by simpa [hentries] using h), hentries, List.append_assoc]
    rfl

/-- Pairs with different keys stay as they are. -/
theorem entries_ofList {es : List (κ × ν)} (h : (es.map Prod.fst).Nodup) :
    (ofList es).entries = es :=
  entries_foldl_insert h

/-- A map that is given key by key. -/
theorem get?_ofList_map (xs : List κ) (g : κ → ν) (k : κ) :
    (ofList (xs.map fun x => (x, g x))).get? k = if k ∈ xs then some (g k) else none := by
  have key : ∀ m : AssocMap κ ν,
      ((xs.map fun x => (x, g x)).foldl (fun m e => m.insert e.1 e.2) m).get? k =
        if k ∈ xs then some (g k) else m.get? k := by
    induction xs with
    | nil => intro m; rfl
    | cons x xs ih =>
      intro m
      rw [List.map_cons, List.foldl_cons, ih, get?_insert]
      by_cases hk : k = x
      · subst hk
        simp
      · simp [hk]
  exact key ∅

/-- The keys of two maps are the same and so are their values, whatever the order. -/
def sameEntries [DecidableEq ν] (m n : AssocMap κ ν) : Bool :=
  m.size == n.size && m.entries.all fun e => n.get? e.1 = some e.2

end AssocMap

end BehavioralAutomata
