/-
# Regular expressions

Patterns of tokens.  Matching is ordered: an alternative is preferred to the ones after it, and a
repetition prefers another round to stopping, or the other way round if it is reluctant.  The match
is the first one in this order that exists, which need not be the longest.

This file holds the expressions; how they are matched stands in `Regex.Program`.
-/
import Lode.Text.Ranges

namespace Lode

/-- A member of a character class. -/
inductive ClassItem where
  /-- The characters from the first to the last, both included. -/
  | range (first last : Char)
  /-- White space. -/
  | space
deriving DecidableEq, Repr

/-- Whether a character is among those of a class item. -/
def ClassItem.contains : ClassItem → Char → Bool
  | range first last, c => first ≤ c && c ≤ last
  | space, c => isSpace c

/-- A set of characters. -/
structure CharClass where
  negated : Bool
  items : List ClassItem
deriving DecidableEq, Repr

namespace CharClass

/-- Whether a character belongs to a class. -/
def contains (cls : CharClass) (c : Char) : Bool :=
  (cls.items.any (·.contains c)) != cls.negated

/-- The class of one character. -/
def single (c : Char) : CharClass := ⟨false, [.range c c]⟩

/-- The class of the characters of a list. -/
def oneOf (cs : List Char) : CharClass := ⟨false, cs.map fun c => .range c c⟩

/-- The class of the characters that are not in a list. -/
def noneOf (cs : List Char) : CharClass := ⟨true, cs.map fun c => .range c c⟩

/-- The class of all characters. -/
def any : CharClass := ⟨true, []⟩

end CharClass

/-- A regular expression. -/
inductive Regex where
  /-- The empty text. -/
  | empty
  /-- One character of a class. -/
  | one (cls : CharClass)
  /-- One expression after the other. -/
  | seq (first second : Regex)
  /-- One of two expressions, the first one preferred. -/
  | alt (first second : Regex)
  /-- Any number of rounds, as many or as few as possible. -/
  | star (body : Regex) (greedy : Bool)
  /-- One round or more, as many or as few as possible. -/
  | rounds (body : Regex) (greedy : Bool)
  /-- An expression in brackets. -/
  | group (body : Regex)
  /-- A border between a word character and something else. -/
  | boundary
deriving DecidableEq, Repr

namespace Regex

/-! ## 1. Derived forms -/

/-- A single character. -/
def char (c : Char) : Regex := one (.single c)

/-- The expressions of a list, one after the other. -/
def seqs : List Regex → Regex
  | [] => empty
  | [r] => r
  | r :: rs => seq r (seqs rs)

/-- A fixed text. -/
def literal (text : String) : Regex := seqs (text.toList.map char)

/-- One expression of a list, earlier ones preferred. -/
def alts : List Regex → Regex
  | [] => empty
  | [r] => r
  | r :: rs => alt r (alts rs)

/-- An expression or nothing, the expression preferred if greedy. -/
def optional (r : Regex) (greedy : Bool) : Regex := if greedy then alt r empty else alt empty r

/-- As many rounds as possible. -/
def many (r : Regex) : Regex := star r true

/-- As many rounds as possible, and at least one. -/
def atLeastOne (r : Regex) : Regex := rounds r true

/-! ## 2. Shapes -/

/-- The expressions that a sequence consists of. -/
def parts : Regex → List Regex
  | empty => []
  | seq r s => r.parts ++ s.parts
  | r => [r]

/-- Whether an expression has brackets inside. -/
def hasGroup : Regex → Bool
  | group _ => true
  | seq r s | alt r s => r.hasGroup || s.hasGroup
  | star r _ | rounds r _ => r.hasGroup
  | empty | one _ | boundary => false

/-- Whether an expression may read nothing. -/
def isNullable : Regex → Bool
  | empty | boundary | star _ _ => true
  | one _ => false
  | seq r s => r.isNullable && s.isNullable
  | alt r s => r.isNullable || s.isNullable
  | rounds r _ | group r => r.isNullable

end Regex

end Lode
