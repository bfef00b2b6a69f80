/-
# Pseudo-random order

A generator of pseudo-random words of eight bytes with a state of four words, seeded from one word,
and the shuffle of a list that it drives.  The same seed always gives the same order.
-/

namespace Lode

/-! ## 1. Seeding -/

/-- One step of the seed's own generator: the next state and a word made from it. -/
def splitMix (x : UInt64) : UInt64 × UInt64 :=
  let x := x + 0x9e3779b97f4a7c15
  let z := (x ^^^ (x >>> 30)) * 0xbf58476d1ce4e5b9
  let z := (z ^^^ (z >>> 27)) * 0x94d049bb133111eb
  (x, z ^^^ (z >>> 31))

/-- The state of a generator. -/
structure Generator where
  s0 : UInt64
  s1 : UInt64
  s2 : UInt64
  s3 : UInt64
deriving DecidableEq, Repr

namespace Generator

/-- The generator of a seed. -/
def ofSeed (seed : UInt64) : Generator :=
  let (x, s0) := splitMix seed
  let (x, s1) := splitMix x
  let (x, s2) := splitMix x
  let (_, s3) := splitMix x
  ⟨s0, s1, s2, s3⟩

/-! ## 2. Drawing -/

/-- A word rotated to the left. -/
def rotate (x : UInt64) (count : UInt64) : UInt64 := (x <<< count) ||| (x >>> (64 - count))

/-- The next word. -/
def next (g : Generator) : UInt64 × Generator :=
  let result := rotate (g.s1 * 5) 7 * 9
  let t := g.s1 <<< 17
  let s2 := g.s2 ^^^ g.s0
  let s3 := g.s3 ^^^ g.s1
  let s1 := g.s1 ^^^ s2
  let s0 := g.s0 ^^^ s3
  (result, ⟨s0, s1, s2 ^^^ t, rotate s3 45⟩)

/-- The number of zero bits in front of a number below `2 ^ 32`. -/
def leadingZeros32 (n : Nat) : Nat := if n = 0 then 32 else 31 - n.log2

/-- A number below `bound`: the upper half of a product whose lower half falls into the accepted
zone.  At least every second word is accepted, so the budget of draws is ample. -/
def belowWithin (bound : Nat) : Nat → Generator → Nat × Generator
  | 0, g => (0, g)
  | fuel + 1, g =>
    let (word, g) := g.next
    let zone := (bound <<< leadingZeros32 bound) % 0x100000000 - 1
    let product := (word.toNat >>> 32) * bound
    if product % 0x100000000 ≤ zone then (product >>> 32, g) else belowWithin bound fuel g

/-- A number below `bound`. -/
def below (bound : Nat) (g : Generator) : Nat × Generator := belowWithin bound 4096 g

/-- Exchanges each of the places `last`, … `1` with a drawn one that does not lie behind it. -/
def shuffleFrom {α : Type} : Nat → Array α → Generator → Array α × Generator
  | 0, xs, g => (xs, g)
  | last + 1, xs, g =>
    let (other, g) := g.below (last + 2)
    shuffleFrom last (xs.swapIfInBounds (last + 1) other) g

/-- The members of a list in a drawn order. -/
def shuffle {α : Type} (xs : List α) (g : Generator) : List α × Generator :=
  let (shuffled, g) := shuffleFrom (xs.length - 1) xs.toArray g
  (shuffled.toList, g)

end Generator

end Lode
