/-
# Character properties as tables of ranges

A Unicode property is a set of code points, and every such set in this library is given by the
list of its maximal intervals.  This file holds the representation, the membership test and the short
table of white space; longer tables stand in the files named for the property.
-/

namespace Lode

/-- A set of code points, as inclusive intervals `(first, last)` in increasing order. -/
abbrev CharRanges := Array (Nat × Nat)

/-- Membership of a character in a table. -/
def CharRanges.contains (ranges : CharRanges) (c : Char) : Bool :=
  ranges.any fun range => range.1 ≤ c.toNat && c.toNat ≤ range.2

/-- The code points of the property `White_Space`, which separates words. -/
def spaceRanges : CharRanges := #[
  (0x9, 0xd), (0x20, 0x20), (0x85, 0x85), (0xa0, 0xa0), (0x1680, 0x1680), (0x2000, 0x200a),
  (0x2028, 0x2029), (0x202f, 0x202f), (0x205f, 0x205f), (0x3000, 0x3000)]

/-- White space in the sense of the lexer's blank rule. -/
def isSpace (c : Char) : Bool := spaceRanges.contains c

end Lode
