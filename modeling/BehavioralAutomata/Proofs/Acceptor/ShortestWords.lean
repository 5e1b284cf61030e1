import BehavioralAutomata.Proofs.Acceptor.Exploration
import Mathlib.Data.List.Shortlex

/-!
# The words of a state cover are the first ones

The search takes up the states in the order of their words, from the shortest on and with the symbols in the
order of the list. Symbols may be repeated in the list; then their first places count.

* `Acceptor.Before`: the length-lexicographic order of words.
* `Acceptor.FirstEdges`: of all edges to a state the one for the first symbol is taken.
* `Acceptor.Ordered`: the words of the queue come behind those of the states that were left, and not behind a
  word that goes on from the queue.
* `Acceptor.before_of_mem_representatives`: no word that leads to a state comes before the one that is found.
* `Acceptor.representatives_minimal`: which states are found, with which words and in which order.
-/

namespace BehavioralAutomata.Acceptor

variable {α : Type u} [DecidableEq α] {A : Acceptor α} {symbols : List α}

/-- The first word is shorter, or of the same length and first in the order of the list. -/
def Before (symbols : List α) : List α → List α → Prop :=
  List.Shortlex fun a b => symbols.idxOf a < symbols.idxOf b

namespace Before

variable {u v w : List α}

theorem trans (huv : Before symbols u v) (hvw : Before symbols v w) : Before symbols u w := by
  rcases List.shortlex_def.1 huv with hlt | ⟨heq, hlex⟩
  · rcases List.shortlex_def.1 hvw with hlt' | ⟨heq', _⟩
    · exact .of_length_lt (Nat.lt_trans hlt hlt')
    · exact .of_length_lt (heq' ▸ hlt)
  · rcases List.shortlex_def.1 hvw with hlt' | ⟨heq', hlex'⟩
    · exact .of_length_lt (heq ▸ hlt')
    · exact .of_lex (heq.trans heq') (List.lex_trans Nat.lt_trans hlex hlex')

theorem append_self (symbols u : List α) (a : α) : Before symbols u (u ++ [a]) :=
  .of_length_lt (by simp)

omit [DecidableEq α] in
theorem lex_append {r : α → α → Prop} (h : List.Lex r u v) (hlen : u.length = v.length)
    (s t : List α) : List.Lex r (u ++ s) (v ++ t) := by
  induction h with
  | nil => cases hlen
  | cons _ ih => exact .cons (ih (Nat.succ.inj hlen))
  | rel h => exact .rel h

theorem append_singleton (h : Before symbols u v) (a b : α) :
    Before symbols (u ++ [a]) (v ++ [b]) := by
  rcases List.shortlex_def.1 h with hlt | ⟨heq, hlex⟩
  · exact .of_length_lt (by simpa using hlt)
  · exact .of_lex (by simpa using heq) (lex_append hlex heq [a] [b])

theorem append_of_lt (u : List α) {a b : α} (h : symbols.idxOf a < symbols.idxOf b) :
    Before symbols (u ++ [a]) (u ++ [b]) :=
  List.Shortlex.append_left ((List.shortlex_singleton_iff a b).2 h) u

end Before

/-! ## New edges -/

/-- The edges of `q` come in the order of their symbols, and each carries the first symbol that leads to its
state. -/
structure FirstEdges (A : Acceptor α) (q : Nat) (symbols : List α) (edges : List (α × Nat)) : Prop where
  edge : ∀ x ∈ edges, A.successor q x.1 = some x.2
  ordered : edges.Pairwise (symbols.idxOf ·.1 < symbols.idxOf ·.1)
  le : ∀ x ∈ edges, ∀ a, A.successor q a = some x.2 → symbols.idxOf x.1 ≤ symbols.idxOf a

namespace FirstEdges

variable {q : Nat} {b : α} {edges : List (α × Nat)}

theorem idxOf_cons (h : A.FirstEdges q symbols edges)
    (hb : ∀ x ∈ edges, A.successor q b ≠ some x.2) {x : α × Nat} (hx : x ∈ edges) :
    (b :: symbols).idxOf x.1 = symbols.idxOf x.1 + 1 := by
  refine List.idxOf_cons_ne _ ?_
  rintro rfl
  exact hb x hx (h.edge x hx)

/-- A further symbol in front moves all of them back by one place if it leads elsewhere. -/
theorem cons_symbol (h : A.FirstEdges q symbols edges)
    (hb : ∀ x ∈ edges, A.successor q b ≠ some x.2) : A.FirstEdges q (b :: symbols) edges where
  edge := h.edge
  ordered := h.ordered.imp_of_mem fun hx hy hlt => by
    rw [h.idxOf_cons hb hx, h.idxOf_cons hb hy]
    exact Nat.succ_lt_succ hlt
  le x hx a ha := by
    have hne : b ≠ a := by
      rintro rfl
      exact hb x hx ha
    rw [h.idxOf_cons hb hx, List.idxOf_cons_ne _ hne]
    exact Nat.succ_le_succ (h.le x hx a ha)

theorem cons (h : A.FirstEdges q symbols edges) {p : Nat} (hp : A.successor q b = some p)
    (hb : ∀ x ∈ edges, A.successor q b ≠ some x.2) :
    A.FirstEdges q (b :: symbols) ((b, p) :: edges) where
  edge := List.forall_mem_cons.2 ⟨hp, h.edge⟩
  ordered := by
    refine List.pairwise_cons.2 ⟨fun x hx => ?_, (h.cons_symbol hb).ordered⟩
    rw [List.idxOf_cons_self, h.idxOf_cons hb hx]
    exact Nat.succ_pos _
  le := by
    refine List.forall_mem_cons.2 ⟨fun a _ => ?_, (h.cons_symbol hb).le⟩
    rw [List.idxOf_cons_self]
    exact Nat.zero_le _

end FirstEdges

theorem firstEdges_newEdges (A : Acceptor α) (q : Nat) (seen : List Nat) (symbols : List α) :
    A.FirstEdges q symbols (A.newEdges q seen symbols) := by
  induction symbols generalizing seen with
  | nil => exact ⟨List.forall_mem_nil _, .nil, List.forall_mem_nil _⟩
  | cons b symbols ih =>
    -- what `b` leads to has been seen when the later edges are looked for
    have hlater : ∀ seen, (∀ p, A.successor q b = some p → p ∈ seen) →
        ∀ x ∈ A.newEdges q seen symbols, A.successor q b ≠ some x.2 := fun seen hb x hx h =>
      ((A.newEdges_spec q seen symbols).1 x hx).2 (hb x.2 h)
    rcases A.newEdges_cons_cases q seen b symbols with ⟨heq, hb⟩ | ⟨p, _, hp, heq⟩ <;> rw [heq]
    · exact (ih seen).cons_symbol (hlater seen hb)
    · refine (ih (p :: seen)).cons hp (hlater (p :: seen) fun r hr => ?_)
      exact List.mem_cons.2 (.inl (Option.some.inj (hr.symm.trans hp)))

/-! ## The order of the search -/

/-- What holds of the order of a search that has left `left`. -/
structure Ordered (A : Acceptor α) (symbols : List α) (left queue : List (List α × Nat)) : Prop where
  words : (left ++ queue).Pairwise (Before symbols ·.1 ·.1)
  ahead : ∀ x ∈ queue, ∀ y ∈ queue, ∀ a, Before symbols x.1 (y.1 ++ [a])
  first : ∀ x ∈ left, ∀ y ∈ left ++ queue, ∀ a ∈ symbols, A.successor x.2 a = some y.2 →
    y.1 = x.1 ++ [a] ∨ Before symbols y.1 (x.1 ++ [a])

namespace Ordered

variable {seen : List Nat} {fuel : Nat} {left queue : List (List α × Nat)} {w : List α} {q : Nat}

/-- What is in the search when a state is left comes before the words that go on from it. -/
theorem before_append (h : A.Ordered symbols left ((w, q) :: queue)) {x : List α × Nat}
    (hx : x ∈ left ++ (w, q) :: queue) (a : α) : Before symbols x.1 (w ++ [a]) := by
  rcases List.mem_append.1 hx with hx | hx
  · have hw := (List.pairwise_append.1 h.words).2.2 x hx (w, q) List.mem_cons_self
    exact hw.trans (.append_self symbols w a)
  · exact h.ahead x hx (w, q) List.mem_cons_self a

theorem step (h : A.Ordered symbols left ((w, q) :: queue))
    (hexp : A.Exploring symbols seen fuel ((w, q) :: queue) (left.map Prod.snd)) :
    A.Ordered symbols (left ++ [(w, q)])
      (queue ++ (A.newEdges q seen symbols).map fun (a, p) => (w ++ [a], p)) := by
  have hfirst := A.firstEdges_newEdges q seen symbols
  generalize hnew : ((A.newEdges q seen symbols).map fun (a, p) => (w ++ [a], p)) = new
  have hwords : new.Pairwise (Before symbols ·.1 ·.1) := by
    rw [← hnew]
    exact List.pairwise_map.2 (hfirst.ordered.imp fun hlt => .append_of_lt w hlt)
  have hedge : ∀ y ∈ new, ∃ a, (a, y.2) ∈ A.newEdges q seen symbols ∧ y.1 = w ++ [a] := by
    intro y hy
    rw [← hnew] at hy
    obtain ⟨⟨a, p⟩, hp, rfl⟩ := List.mem_map.1 hy
    exact ⟨a, hp, rfl⟩
  have hbehind : ∀ y ∈ queue, Before symbols w y.1 := fun y hy =>
    List.rel_of_pairwise_cons (List.pairwise_append.1 h.words).2.1 hy
  have hsplit : left ++ [(w, q)] ++ (queue ++ new) = left ++ (w, q) :: queue ++ new := by simp
  refine ⟨?_, fun x hx y hy c => ?_, fun x hx y hy c hc hsucc => ?_⟩
  · rw [hsplit]
    refine List.pairwise_append.2 ⟨h.words, hwords, fun x hx y hy => ?_⟩
    obtain ⟨a, _, hya⟩ := hedge y hy
    rw [hya]
    exact h.before_append hx a
  · rcases List.mem_append.1 hx with hx | hx <;> rcases List.mem_append.1 hy with hy | hy
    · exact h.ahead x (List.mem_cons_of_mem _ hx) y (List.mem_cons_of_mem _ hy) c
    · obtain ⟨b, _, hyb⟩ := hedge y hy
      rw [hyb]
      exact (h.ahead x (List.mem_cons_of_mem _ hx) (w, q) List.mem_cons_self b).trans
        (.append_self symbols _ c)
    · obtain ⟨a, _, hxa⟩ := hedge x hx
      rw [hxa]
      exact (hbehind y hy).append_singleton a c
    · obtain ⟨a, _, hxa⟩ := hedge x hx
      obtain ⟨b, _, hyb⟩ := hedge y hy
      rw [hxa, hyb]
      exact .of_length_lt (by simp)
  · rw [hsplit] at hy
    rcases List.mem_append.1 hx with hx | hx <;> rcases List.mem_append.1 hy with hy | hy
    · exact h.first x hx y hy c hc hsucc
    · -- the edges of a state that was left lead to states that were seen
      obtain ⟨b, hb, _⟩ := hedge y hy
      have hseen := hexp.closed x.2 (List.mem_map_of_mem hx) c hc y.2 hsucc
      exact absurd hseen ((A.newEdges_spec q seen symbols).1 _ hb).2
    · obtain rfl := List.mem_singleton.1 hx
      exact .inr (h.before_append hy c)
    · obtain rfl := List.mem_singleton.1 hx
      obtain ⟨b, hb, hyb⟩ := hedge y hy
      rw [hyb]
      rcases Nat.lt_or_eq_of_le (hfirst.le _ hb c hsucc) with hlt | heq
      · exact .inr (.append_of_lt w hlt)
      · have hmem := ((A.newEdges_spec q seen symbols).1 _ hb).1
        exact .inl (congrArg (w ++ [·]) ((List.idxOf_inj hmem).1 heq))

/-- The search keeps the order up to its end. -/
theorem discover (h : A.Ordered symbols left queue)
    (hexp : A.Exploring symbols seen fuel queue (left.map Prod.snd)) :
    A.Ordered symbols (left ++ A.discover symbols seen fuel queue) [] := by
  induction fuel generalizing seen queue left with
  | zero =>
    obtain rfl := hexp.queue_eq_nil
    rwa [Acceptor.discover, List.append_nil]
  | succ fuel ih =>
    cases queue with
    | nil => rwa [Acceptor.discover, List.append_nil]
    | cons x queue =>
      have hstep := ih (h.step hexp) (by rw [List.map_append]; exact hexp.step)
      rwa [List.append_assoc] at hstep

theorem start (A : Acceptor α) (symbols : List α) (p : Nat) :
    A.Ordered symbols [] [([], p)] where
  words := List.pairwise_singleton _ _
  ahead x hx y hy a := by
    obtain rfl := List.mem_singleton.1 hx
    obtain rfl := List.mem_singleton.1 hy
    exact .append_self symbols [] a
  first := List.forall_mem_nil _

end Ordered

theorem ordered_representatives (A : Acceptor α) (symbols : List α) :
    A.Ordered symbols (A.representatives symbols) [] := by
  rw [representatives]
  split
  · next p hp => exact (Ordered.start A symbols p).discover (.start hp)
  · exact ⟨.nil, List.forall_mem_nil _, List.forall_mem_nil _⟩

theorem nil_mem_representatives {p : Nat} (hp : A.start = some p) (symbols : List α) :
    ([], p) ∈ A.representatives symbols := by
  have hlt : p < A.size := A.start_lt p hp
  obtain ⟨n, hn⟩ := Nat.exists_eq_succ_of_ne_zero (Nat.ne_zero_of_lt hlt)
  simp only [representatives, hp, hn, discover]
  exact List.mem_cons_self

/-- No word over the symbols that leads to a state comes before the word of the state. -/
theorem before_of_mem_representatives {u w : List α} {q : Nat}
    (hu : (u, q) ∈ A.representatives symbols) (hw : w ⊆ symbols) (h : A.reached w = some q) :
    u = w ∨ Before symbols u w := by
  induction w using List.reverseRecOn generalizing u q with
  | nil =>
    obtain ⟨p, hp, hq⟩ := Option.bind_eq_some_iff.1 h
    cases hq
    have heq := List.inj_on_of_nodup_map (A.nodup_representatives symbols) hu
      (nil_mem_representatives hp symbols) rfl
    exact .inl (Prod.mk.inj heq).1
  | append_singleton w a ih =>
    obtain ⟨hw, ha⟩ := List.append_subset.1 hw
    obtain ⟨r, hr, hsucc⟩ := exists_of_reached_append_singleton h
    obtain ⟨v, hv⟩ := exists_mem_representatives hw hr
    have hu' := (A.ordered_representatives symbols).first (v, r) hv (u, q)
      (List.mem_append_left _ hu) a (ha List.mem_cons_self) hsucc
    -- the word of the state before comes first, and so does what goes on from it
    rcases ih hv hw hr with rfl | hvw
    · exact hu'
    · have hlt := hvw.append_singleton a a
      rcases hu' with rfl | huv
      · exact .inr hlt
      · exact .inr (huv.trans hlt)

/-- The search finds the states that words over the list lead to, each of them once and with the first of
these words, in the order of their words. -/
theorem representatives_minimal (A : Acceptor α) (symbols : List α) :
    ((A.representatives symbols).map Prod.snd).Nodup ∧
    (∀ q, q ∈ (A.representatives symbols).map Prod.snd ↔
      ∃ w, w ⊆ symbols ∧ A.reached w = some q) ∧
    (∀ u q, (u, q) ∈ A.representatives symbols → u ⊆ symbols ∧ A.reached u = some q ∧
      ∀ w, w ⊆ symbols → A.reached w = some q → u = w ∨ Before symbols u w) ∧
    ((A.representatives symbols).map Prod.fst).Pairwise (Before symbols) := by
  have hword : ∀ u q, (u, q) ∈ A.representatives symbols → u ⊆ symbols := fun u q hu =>
    subset_of_mem_stateCover (List.mem_map.2 ⟨(u, q), hu, rfl⟩)
  refine ⟨A.nodup_representatives symbols, fun q => ⟨fun hq => ?_, fun ⟨w, hw, h⟩ => ?_⟩,
    fun u q hu => ⟨hword u q hu, reached_of_mem_representatives hu, fun w hw h => ?_⟩, ?_⟩
  · obtain ⟨⟨u, q⟩, hu, rfl⟩ := List.mem_map.1 hq
    exact ⟨u, hword u q hu, reached_of_mem_representatives hu⟩
  · obtain ⟨u, hu⟩ := exists_mem_representatives hw h
    exact List.mem_map.2 ⟨(u, q), hu, rfl⟩
  · exact before_of_mem_representatives hu hw h
  · have hwords := (A.ordered_representatives symbols).words
    rw [List.append_nil] at hwords
    exact List.pairwise_map.2 hwords

/-- Two words of length two lead to the state `3`. -/
def diamondAcceptor : Acceptor Char where
  states := #[⟨true, .ofList [('a', 1), ('b', 2), ('c', 0)]⟩, ⟨true, .ofList [('a', 3)]⟩,
    ⟨true, .ofList [('b', 3), ('c', 1)]⟩, ⟨false, .ofList [('d', 4)]⟩, ⟨true, ∅⟩]
  start := some 0
  target_lt := by decide
  start_lt := by decide

/-- In this list `b` comes before `a`, although it stands there again, and `d` is missing. -/
theorem representatives_diamondAcceptor :
    diamondAcceptor.representatives ['b', 'a', 'c', 'b'] =
      [([], 0), (['b'], 2), (['a'], 1), (['b', 'b'], 3)] ∧
    ∀ w, w ⊆ ['b', 'a', 'c', 'b'] → diamondAcceptor.reached w = some 3 →
      ['b', 'b'] = w ∨ Before ['b', 'a', 'c', 'b'] ['b', 'b'] w := by
  have hrun : diamondAcceptor.representatives ['b', 'a', 'c', 'b'] =
      [([], 0), (['b'], 2), (['a'], 1), (['b', 'b'], 3)] := by decide
  obtain ⟨_, _, hfirst, _⟩ := diamondAcceptor.representatives_minimal ['b', 'a', 'c', 'b']
  obtain ⟨_, _, hleast⟩ := hfirst ['b', 'b'] 3 (by rw [hrun]; decide)
  exact ⟨hrun, hleast⟩

end BehavioralAutomata.Acceptor
