/-!
# Sources of random numbers

What is random is drawn from a source that is a parameter. Nothing is known of it but what its laws say.

* `RandomSource`: what can be drawn from the states of a source.
* `RandomSource.Bounded`: numbers that are drawn below a bound are below it.
* `RandomSource.Permuting`: shuffling keeps the elements.
-/

namespace BehavioralAutomata

/-- Draws from a state, which also say in which state the source is left. -/
class RandomSource (G : Type) where
  /-- A number below `n`, if there is one. -/
  below (g : G) (n : Nat) : Nat × G
  coin (g : G) : Bool × G
  shuffle {α : Type} (g : G) (xs : List α) : List α × G

namespace RandomSource

class Bounded (G : Type) [RandomSource G] : Prop where
  below_lt (g : G) {n : Nat} (h : 0 < n) : (below g n).1 < n

class Permuting (G : Type) [RandomSource G] : Prop where
  perm_shuffle {α : Type} (g : G) (xs : List α) : (shuffle g xs).1.Perm xs

end RandomSource

end BehavioralAutomata
