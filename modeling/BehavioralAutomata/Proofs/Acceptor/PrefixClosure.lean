import BehavioralAutomata.Proofs.Acceptor.Exploration

/-!
# Prefix-closed acceptors

An acceptor whose language is not prefix-closed rejects on the way to a word that it accepts, and then some
edge leads from a rejecting state to an accepting one.

* `Acceptor.forall_append_iff_forall_singleton`: it suffices to look at words that are shortened by one
  symbol.
* `Acceptor.isPrefixClosed_iff_forall_singleton`: such a symbol is an edge, and the search finds all states,
  because every word that leads somewhere is over the symbols of the edges.
* `Acceptor.isPrefixClosed_iff`: the test of the acceptor decides whether the language is prefix-closed.
-/

namespace BehavioralAutomata.Acceptor

variable {α : Type u}

theorem forall_append_iff_forall_singleton {f : List α → Bool} :
    (∀ u v, f (u ++ v) = true → f u = true) ↔ ∀ w a, f (w ++ [a]) = true → f w = true := by
  constructor
  · intro h w a
    exact h w [a]
  · intro h u v huv
    induction v using List.reverseRecOn with
    | nil => rwa [List.append_nil] at huv
    | append_singleton v a ih =>
      rw [← List.append_assoc] at huv
      exact ih (h (u ++ v) a huv)

variable [DecidableEq α] {A : Acceptor α}

theorem mem_labels {q p : Nat} {a : α} (h : A.successor q a = some p) : a ∈ A.labels := by
  obtain ⟨s, hs, hp⟩ := Option.bind_eq_some_iff.1 h
  rw [labels, List.mem_eraseDups, List.mem_flatMap]
  exact ⟨s, Array.mem_toList_iff.2 (Array.mem_of_getElem? hs), AssocMap.mem_keys_iff.2 ⟨p, hp⟩⟩

/-- A word that leads somewhere is over the symbols of the edges. -/
theorem subset_labels_of_reached {w : List α} {q : Nat} (h : A.reached w = some q) :
    w ⊆ A.labels := by
  induction w using List.reverseRecOn generalizing q with
  | nil => exact List.nil_subset _
  | append_singleton w a ih =>
    obtain ⟨p, hp, hsucc⟩ := exists_of_reached_append_singleton h
    exact List.append_subset.2 ⟨ih hp, List.cons_subset.2 ⟨mem_labels hsucc, List.nil_subset _⟩⟩

theorem isPrefixClosed_iff_forall_singleton :
    A.isPrefixClosed = true ↔ ∀ w a, A.accepts (w ++ [a]) = true → A.accepts w = true := by
  rw [isPrefixClosed, List.all_eq_true]
  constructor
  · intro h w a haccepts
    obtain ⟨p, hp, hacc⟩ := accepts_iff.1 haccepts
    obtain ⟨q, hq, hsucc⟩ := exists_of_reached_append_singleton hp
    obtain ⟨u, hu⟩ := exists_mem_representatives (subset_labels_of_reached hq) hq
    rcases Bool.or_eq_true_iff.1 (h (u, q) hu) with hq' | hedges
    · exact accepts_iff.2 ⟨q, hq, hq'⟩
    · have hp' := List.all_eq_true.1 hedges a (mem_labels hsucc)
      simp [hsucc, hacc] at hp'
  · rintro h ⟨u, q⟩ hu
    have hq := reached_of_mem_representatives hu
    refine Bool.or_eq_true_iff.2 (or_iff_not_imp_left.2 fun hrejects => ?_)
    refine List.all_eq_true.2 fun a _ => (Option.all_eq_true _ _).2 fun p hp => ?_
    by_contra hacc
    have hua : A.accepts (u ++ [a]) = true :=
      accepts_iff.2 ⟨p, (reached_append_singleton hq a).trans hp, by simpa using hacc⟩
    obtain ⟨r, hr, hr'⟩ := accepts_iff.1 (h u a hua)
    cases hq.symm.trans hr
    exact hrejects hr'

/-- The test looks at single edges of the states that can be reached, and it decides whether all beginnings
of accepted words are accepted. -/
theorem isPrefixClosed_iff (A : Acceptor α) :
    A.isPrefixClosed = true ↔ ∀ u v, A.accepts (u ++ v) = true → A.accepts u = true :=
  isPrefixClosed_iff_forall_singleton.trans forall_append_iff_forall_singleton.symm

end BehavioralAutomata.Acceptor
