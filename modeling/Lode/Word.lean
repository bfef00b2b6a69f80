/-
# Machine words

Numbers of the language are signed words of eight bytes.  They are kept as integers together with
the test whether an integer is such a word; arithmetic either fails outside the range or wraps
around.  Bytes of a word are taken from the low end.
-/

namespace Lode

/-- The number of values of `count` bits. -/
def powerOfTwo (count : Nat) : Nat := Nat.pow 2 count

/-- Whether an integer is a signed word of eight bytes. -/
def isWord64 (n : Int) : Bool := -0x8000000000000000 ≤ n && n < 0x8000000000000000

/-- An integer, if it is a word. -/
def checkWord64 (n : Int) : Option Int := if isWord64 n then some n else none

/-- The word that an integer is modulo `2 ^ 64`. -/
def wrapWord64 (n : Int) : Int := n.bmod 0x10000000000000000

/-- The lowest byte of an integer, negative ones in two's complement. -/
def lowByte (n : Int) : UInt8 := UInt8.ofNat (n % 256).toNat

/-- The lowest `count` bytes of an integer, the lowest one first. -/
def littleEndian : Nat → Int → List UInt8
  | 0, _ => []
  | count + 1, n => lowByte n :: littleEndian count (n / 256)

end Lode
