import BehavioralAutomata.Acceptor.Exploration
import Mathlib.Data.List.Induction
import Mathlib.Data.List.Nodup

/-!
# Words of a state cover

* `Acceptor.exists_reached_of_mem_stateCover`: every word of a state cover leads to a state.
* `Acceptor.exists_mem_stateCover`: every state that a word leads to has a word in the state cover, and by
  `Acceptor.nodup_representatives` only one. The search has `Acceptor.Exploring` as its invariant.
-/

namespace BehavioralAutomata.Acceptor

variable {α : Type u} [DecidableEq α] {A : Acceptor α}

/-- Either the edge for the first symbol leads to no state that is new, or it is the first of the new
edges. -/
theorem newEdges_cons_cases (A : Acceptor α) (q : Nat) (seen : List Nat) (b : α) (symbols : List α) :
    (A.newEdges q seen (b :: symbols) = A.newEdges q seen symbols ∧
      ∀ p, A.successor q b = some p → p ∈ seen) ∨
    ∃ p, p ∉ seen ∧ A.successor q b = some p ∧
      A.newEdges q seen (b :: symbols) = (b, p) :: A.newEdges q (p :: seen) symbols := by
  rw [newEdges]
  split
  · next p hp =>
    split
    · next hmem =>
      refine .inl ⟨rfl, fun r hr => ?_⟩
      cases hp.symm.trans hr
      exact hmem
    · next hmem => exact .inr ⟨p, hmem, hp, rfl⟩
  · next hnone =>
    refine .inl ⟨rfl, fun r hr => ?_⟩
    cases hnone.symm.trans hr

theorem successor_of_mem_newEdges {q p : Nat} {a : α} {seen : List Nat} {symbols : List α}
    (h : (a, p) ∈ A.newEdges q seen symbols) : A.successor q a = some p := by
  induction symbols generalizing seen with
  | nil => exact absurd h List.not_mem_nil
  | cons b symbols ih =>
    rcases A.newEdges_cons_cases q seen b symbols with ⟨heq, _⟩ | ⟨r, _, hr, heq⟩ <;> rw [heq] at h
    · exact ih h
    · rcases List.mem_cons.1 h with h | h
      · cases h
        exact hr
      · exact ih h

/-- The new edges carry symbols of the list, and they lead to different states that were not seen. -/
theorem newEdges_spec (A : Acceptor α) (q : Nat) (seen : List Nat) (symbols : List α) :
    (∀ x ∈ A.newEdges q seen symbols, x.1 ∈ symbols ∧ x.2 ∉ seen) ∧
      ((A.newEdges q seen symbols).map Prod.snd).Nodup := by
  induction symbols generalizing seen with
  | nil => exact ⟨List.forall_mem_nil _, .nil⟩
  | cons b symbols ih =>
    rcases A.newEdges_cons_cases q seen b symbols with ⟨heq, _⟩ | ⟨p, hp, _, heq⟩ <;> rw [heq]
    · obtain ⟨hmem, hnodup⟩ := ih seen
      exact ⟨fun x hx => ⟨List.mem_cons_of_mem b (hmem x hx).1, (hmem x hx).2⟩, hnodup⟩
    · obtain ⟨hmem, hnodup⟩ := ih (p :: seen)
      refine ⟨List.forall_mem_cons.2 ⟨⟨List.mem_cons_self, hp⟩, fun x hx => ?_⟩,
        List.nodup_cons.2 ⟨fun h => ?_, hnodup⟩⟩
      · obtain ⟨ha, hx⟩ := hmem x hx
        exact ⟨List.mem_cons_of_mem b ha, fun h => hx (List.mem_cons_of_mem p h)⟩
      · obtain ⟨x, hx, rfl⟩ := List.mem_map.1 h
        exact (hmem x hx).2 List.mem_cons_self

/-- No successor is missed. -/
theorem mem_seen_or_mem_newEdges {q p : Nat} {a : α} {seen : List Nat} {symbols : List α}
    (ha : a ∈ symbols) (h : A.successor q a = some p) :
    p ∈ seen ∨ p ∈ (A.newEdges q seen symbols).map Prod.snd := by
  induction symbols generalizing seen with
  | nil => exact absurd ha List.not_mem_nil
  | cons b symbols ih =>
    rcases A.newEdges_cons_cases q seen b symbols with ⟨heq, hb⟩ | ⟨r, _, hr, heq⟩ <;> rw [heq]
    · rcases List.mem_cons.1 ha with rfl | ha
      · exact .inl (hb p h)
      · exact ih ha
    · rw [List.map_cons, List.mem_cons]
      rcases List.mem_cons.1 ha with rfl | ha
      · exact .inr (.inl (Option.some.inj (h.symm.trans hr)))
      · have hp : p ∈ r :: seen ∨ _ := ih ha
        rwa [List.mem_cons, or_assoc, or_left_comm] at hp

/-- What holds of the queue and is kept along edges holds of every state that is found, with its word. -/
theorem forall_mem_discover {symbols : List α} {P : List α → Nat → Prop}
    (step : ∀ w q, P w q → ∀ a ∈ symbols, ∀ p, A.successor q a = some p → P (w ++ [a]) p)
    {seen : List Nat} {fuel : Nat} {queue : List (List α × Nat)} (hqueue : ∀ x ∈ queue, P x.1 x.2) :
    ∀ x ∈ A.discover symbols seen fuel queue, P x.1 x.2 := by
  intro x h
  induction fuel generalizing seen queue with
  | zero => exact absurd h List.not_mem_nil
  | succ fuel ih =>
    cases queue with
    | nil => exact absurd h List.not_mem_nil
    | cons y queue =>
      obtain ⟨w, q⟩ := y
      have hw : P w q := hqueue (w, q) List.mem_cons_self
      rcases List.mem_cons.1 h with rfl | h
      · exact hw
      · refine ih (fun z hz => ?_) h
        rcases List.mem_append.1 hz with hz | hz
        · exact hqueue z (List.mem_cons_of_mem _ hz)
        · obtain ⟨⟨a, p⟩, hp, rfl⟩ := List.mem_map.1 hz
          have ha : a ∈ symbols := ((A.newEdges_spec q seen symbols).1 _ hp).1
          exact step w q hw a ha p (successor_of_mem_newEdges hp)

theorem forall_mem_representatives {symbols : List α} {P : List α → Nat → Prop}
    (start : ∀ q, A.start = some q → P [] q)
    (step : ∀ w q, P w q → ∀ a ∈ symbols, ∀ p, A.successor q a = some p → P (w ++ [a]) p) :
    ∀ x ∈ A.representatives symbols, P x.1 x.2 := by
  intro x h
  rw [representatives] at h
  split at h
  · next q hq =>
    refine forall_mem_discover step (fun y hy => ?_) x h
    obtain rfl := List.mem_singleton.1 hy
    exact start q hq
  · exact absurd h List.not_mem_nil

theorem reached_of_mem_representatives {symbols : List α} {x : List α × Nat}
    (h : x ∈ A.representatives symbols) : A.reached x.1 = some x.2 := by
  refine forall_mem_representatives (P := fun w q => A.reached w = some q) (fun q hq => ?_) ?_ x h
  · rw [reached, hq]
    rfl
  · intro w q hw a _ p hp
    exact (reached_append_singleton hw a).trans hp

theorem exists_reached_of_mem_stateCover {symbols w : List α} (h : w ∈ A.stateCover symbols) :
    ∃ q, A.reached w = some q := by
  obtain ⟨x, hx, rfl⟩ := List.mem_map.1 h
  exact ⟨x.2, reached_of_mem_representatives hx⟩

/-- The words of a state cover are over the symbols of the list. -/
theorem subset_of_mem_stateCover {symbols w : List α} (h : w ∈ A.stateCover symbols) :
    w ⊆ symbols := by
  obtain ⟨x, hx, rfl⟩ := List.mem_map.1 h
  refine forall_mem_representatives (P := fun w _ => w ⊆ symbols) (fun _ _ => ?_) ?_ x hx
  · exact List.nil_subset _
  · intro w _ hw a ha _ _
    exact List.append_subset.2 ⟨hw, List.cons_subset.2 ⟨ha, List.nil_subset _⟩⟩

/-! ## Coverage -/

/-- What holds of a search that has left the states `left`. -/
structure Exploring (A : Acceptor α) (symbols : List α) (seen : List Nat) (fuel : Nat)
    (queue : List (List α × Nat)) (left : List Nat) : Prop where
  nodup : (left ++ queue.map Prod.snd).Nodup
  seen_iff : ∀ p, p ∈ seen ↔ p ∈ left ++ queue.map Prod.snd
  lt : ∀ p ∈ seen, p < A.size
  closed : ∀ q ∈ left, ∀ a ∈ symbols, ∀ p, A.successor q a = some p → p ∈ seen
  enough : A.size ≤ fuel + left.length

namespace Exploring

variable {symbols : List α} {seen left : List Nat} {fuel : Nat} {queue : List (List α × Nat)}

/-- The states that are seen are different numbers below the size of the acceptor. -/
theorem length_le (h : A.Exploring symbols seen fuel queue left) :
    left.length + queue.length ≤ A.size := by
  have hle : (left ++ queue.map Prod.snd).length ≤ (List.range A.size).length :=
    h.nodup.length_le_of_subset fun p hp => List.mem_range.2 (h.lt p ((h.seen_iff p).2 hp))
  simpa using hle

/-- When no step is left to take, no state is left in the queue. -/
theorem queue_eq_nil (h : A.Exploring symbols seen 0 queue left) : queue = [] := by
  have hle := h.length_le
  have henough := h.enough
  exact List.length_eq_zero_iff.1 (by omega)

theorem step {w : List α} {q : Nat}
    (h : A.Exploring symbols seen (fuel + 1) ((w, q) :: queue) left) :
    A.Exploring symbols ((A.newEdges q seen symbols).map Prod.snd ++ seen) fuel
      (queue ++ (A.newEdges q seen symbols).map fun (a, p) => (w ++ [a], p)) (left ++ [q]) := by
  obtain ⟨hfresh, hnew⟩ := A.newEdges_spec q seen symbols
  have hsplit : left ++ [q] ++
      (queue ++ (A.newEdges q seen symbols).map fun ((a, p) : α × Nat) =>
        (w ++ [a], p)).map Prod.snd =
        left ++ ((w, q) :: queue).map Prod.snd ++ (A.newEdges q seen symbols).map Prod.snd := by
    simp [Function.comp_def]
  refine ⟨?_, fun p => ?_, fun p hp => ?_, fun r hr a ha p hp => ?_, ?_⟩
  · rw [hsplit]
    refine List.nodup_append.2 ⟨h.nodup, hnew, fun p hp r hr heq => ?_⟩
    obtain ⟨x, hx, rfl⟩ := List.mem_map.1 hr
    exact (hfresh x hx).2 ((h.seen_iff _).2 (heq ▸ hp))
  · rw [hsplit, List.mem_append, h.seen_iff, or_comm, ← List.mem_append]
  · rcases List.mem_append.1 hp with hp | hp
    · obtain ⟨⟨a, p⟩, hx, rfl⟩ := List.mem_map.1 hp
      exact successor_lt (successor_of_mem_newEdges hx)
    · exact h.lt p hp
  · rcases List.mem_append.1 hr with hr | hr
    · exact List.mem_append_right _ (h.closed r hr a ha p hp)
    · obtain rfl := List.mem_singleton.1 hr
      exact List.mem_append.2 (mem_seen_or_mem_newEdges ha hp).symm
  · have := h.enough
    rw [List.length_append, List.length_singleton]
    omega

/-- When the search ends, it has left all states that it has seen, and no edge leads out of them. -/
theorem discover (h : A.Exploring symbols seen fuel queue left) :
    (∀ p ∈ seen, p ∈ left ++ (A.discover symbols seen fuel queue).map Prod.snd) ∧
      ∀ q ∈ left ++ (A.discover symbols seen fuel queue).map Prod.snd, ∀ a ∈ symbols, ∀ p,
        A.successor q a = some p → p ∈ left ++ (A.discover symbols seen fuel queue).map Prod.snd := by
  have idle : ∀ {seen left fuel}, A.Exploring symbols seen fuel [] left →
      (∀ p ∈ seen, p ∈ left ++ []) ∧
        ∀ q ∈ left ++ [], ∀ a ∈ symbols, ∀ p, A.successor q a = some p → p ∈ left ++ [] := by
    intro seen left fuel h
    refine ⟨fun p hp => (h.seen_iff p).1 hp, fun q hq a ha p hp => ?_⟩
    rw [List.append_nil] at hq
    exact (h.seen_iff p).1 (h.closed q hq a ha p hp)
  induction fuel generalizing seen queue left with
  | zero =>
    obtain rfl := h.queue_eq_nil
    exact idle h
  | succ fuel ih =>
    cases queue with
    | nil => exact idle h
    | cons x queue =>
      obtain ⟨w, q⟩ := x
      obtain ⟨hseen, hclosed⟩ := ih h.step
      rw [List.append_assoc] at hseen hclosed
      exact ⟨fun p hp => hseen p (List.mem_append_right _ hp), hclosed⟩

/-- The search leaves no state twice. -/
theorem nodup_discover (h : A.Exploring symbols seen fuel queue left) :
    (left ++ (A.discover symbols seen fuel queue).map Prod.snd).Nodup := by
  induction fuel generalizing seen queue left with
  | zero =>
    rw [Acceptor.discover, List.map_nil, List.append_nil]
    exact (List.nodup_append.1 h.nodup).1
  | succ fuel ih =>
    cases queue with
    | nil => exact h.nodup
    | cons x queue =>
      have hnodup := ih h.step
      rwa [List.append_assoc] at hnodup

theorem start {p : Nat} (hp : A.start = some p) : A.Exploring symbols [p] A.size [([], p)] [] where
  nodup := List.nodup_singleton p
  seen_iff _ := Iff.rfl
  lt _ hr := List.mem_singleton.1 hr ▸ A.start_lt p hp
  closed := List.forall_mem_nil _
  enough := Nat.le_add_right ..

end Exploring

/-- No two words of a state cover lead to one state. -/
theorem nodup_representatives (A : Acceptor α) (symbols : List α) :
    ((A.representatives symbols).map Prod.snd).Nodup := by
  rw [representatives]
  split
  · next p hp => exact (Exploring.start hp).nodup_discover
  · exact .nil

/-- Every state that a word over the symbols leads to is found. -/
theorem exists_mem_representatives {symbols w : List α} {q : Nat} (hw : w ⊆ symbols)
    (h : A.reached w = some q) : ∃ u, (u, q) ∈ A.representatives symbols := by
  obtain ⟨p, hp⟩ : ∃ p, A.start = some p := (Option.bind_eq_some_iff.1 h).imp fun _ h => h.1
  have hrep : A.representatives symbols = A.discover symbols [p] A.size [([], p)] := by
    rw [representatives, hp]
  have hstart : A.Exploring symbols [p] A.size [([], p)] [] := .start hp
  obtain ⟨hseen, hclosed⟩ := hstart.discover
  rw [List.nil_append, ← hrep] at hseen hclosed
  have hmem : q ∈ (A.representatives symbols).map Prod.snd := by
    induction w using List.reverseRecOn generalizing q with
    | nil =>
      rw [reached, hp] at h
      cases h
      exact hseen p List.mem_cons_self
    | append_singleton w a ih =>
      obtain ⟨hw, ha⟩ := List.append_subset.1 hw
      obtain ⟨r, hr, hsucc⟩ := exists_of_reached_append_singleton h
      exact hclosed r (ih hw hr) a (ha List.mem_cons_self) q hsucc
  obtain ⟨⟨u, r⟩, hx, rfl⟩ := List.mem_map.1 hmem
  exact ⟨u, hx⟩

/-- Every state that a word over the symbols leads to has a word in the state cover. -/
theorem exists_mem_stateCover {symbols w : List α} {q : Nat} (hw : w ⊆ symbols)
    (h : A.reached w = some q) : ∃ u ∈ A.stateCover symbols, A.reached u = some q := by
  obtain ⟨u, hu⟩ := exists_mem_representatives hw h
  exact ⟨u, List.mem_map.2 ⟨(u, q), hu, rfl⟩, reached_of_mem_representatives hu⟩

end BehavioralAutomata.Acceptor
