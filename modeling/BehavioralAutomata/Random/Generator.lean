import BehavioralAutomata.Random.Source

/-!
# A generator of pseudorandom numbers

The source of random numbers that programs are run with. It stands for one that they would be linked with,
and only runs on fixed seeds depend on how it draws.

The state is one word of 64 bits that moves on by a fixed odd step; a number is mixed from the state by
a product of 128 bits whose halves are combined.

* `Generator.below`: a number below a bound, without bias towards the smaller ones.
* `Generator.coin`: a truth value.
* `Generator.shuffle`: a permutation of a list.
-/

namespace BehavioralAutomata

structure Generator where
  state : UInt64
deriving DecidableEq

namespace Generator

/-- What is added to the state in front of each number. -/
def stride : UInt64 := 0x2d358dccaa6c78a5

/-- The next number of 64 bits. -/
def next (g : Generator) : UInt64 × Generator :=
  let s := g.state + stride
  let product := s.toNat * (s ^^^ 0x8bb84b93962eacc9).toNat
  (product.toUInt64 ^^^ (product / UInt64.size).toUInt64, ⟨s⟩)

/-- The part of the numbers of 64 bits that a number falls into if they are cut into `n` parts. -/
def part (n : Nat) (r : UInt64) : Nat := r.toNat * n / UInt64.size

/-- The next number is not used because its place in its part is below `uneven`. -/
def Skips (n uneven : Nat) (g : Generator) : Prop := g.next.1.toNat * n % UInt64.size < uneven

instance (n uneven : Nat) (g : Generator) : Decidable (g.Skips n uneven) :=
  inferInstanceAs (Decidable (_ < _))

/-- Draws a part. Numbers that are not used are drawn again, as long as there are retries left. -/
def drawPart (n uneven : Nat) : (retries : Nat) → Generator → Nat × Generator
  | 0, g => (part n g.next.1, g.next.2)
  | k + 1, g =>
    if g.Skips n uneven then drawPart n uneven k g.next.2 else (part n g.next.1, g.next.2)

/-- How many of the numbers of 64 bits are left over if they are cut into `n` parts. -/
def uneven (n : Nat) : Nat := (UInt64.size - n) % n

/-- A number below `n`. The parts are equally likely because the numbers that are left over are not used. When
there are no retries left, the generator has been in each of its states. -/
def below (g : Generator) (n : Nat) : Nat × Generator := drawPart n (uneven n) UInt64.size g

/-- Heads if the next number is even. -/
def coin (g : Generator) : Bool × Generator := (g.next.1 % 2 == 0, g.next.2)

/-! ## Permutations -/

/-- Puts `x` in the place `j` and what was there at the end. -/
def displace (xs : List α) (x : α) (j : Nat) : List α :=
  match xs[j]? with
  | some y => xs.set j x ++ [y]
  | none => xs ++ [x]

/-- Moves an element to a random place of a list. -/
def place (drawn : List α × Generator) (x : α) : List α × Generator :=
  let next := drawn.2.below (drawn.1.length + 1)
  (displace drawn.1 x next.1, next.2)

/-- A random permutation. The elements behind the first one are moved to their places one by one. -/
def shuffle (g : Generator) : List α → List α × Generator
  | [] => ([], g)
  | x :: rest => rest.foldl place ([x], g)

instance : RandomSource Generator := ⟨below, coin, shuffle⟩

end Generator

end BehavioralAutomata
