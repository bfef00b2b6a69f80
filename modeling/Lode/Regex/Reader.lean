/-
# Reading regular expressions

The written form of patterns: alternatives with a bar, the repetitions `*`, `+` and `?` (each with a
further `?` for the reluctant form), groups in round and classes in square brackets, the dot for any
character but a line break, and escapes.  A repetition with nothing to repeat, an open bracket and
an escape without meaning are refused.

The reader goes down the text with a budget of nested calls, which the length of the text bounds.
-/
import Lode.Regex.Basic

namespace Lode.Regex

/-- A read value and the text after it. -/
abbrev Read (α : Type) := Option (α × List Char)

/-- The character that an escape of a single character stands for. -/
def escapedChar? (c : Char) : Option Char :=
  match c with
  | 'n' => some '\n'
  | 't' => some '\t'
  | 'r' => some '\r'
  | c =>
    if c.toNat < 0x80 && !c.isAlphanum && c != '<' && c != '>' then some c else none

/-! ## 1. Classes -/

/-- One member of a class, as a character or as a named set. -/
def readClassAtom : List Char → Read (Char ⊕ ClassItem)
  | '\\' :: 's' :: cs => some (.inr .space, cs)
  | '\\' :: c :: cs => (escapedChar? c).map fun c => (.inl c, cs)
  | '\\' :: [] => none
  | '[' :: _ => none
  | c :: cs => some (.inl c, cs)
  | [] => none

/-- The members of a class up to its closing bracket.  A hyphen between two characters makes a
range; at the end of the class it stands for itself. -/
def readClassItems : Nat → Bool → List ClassItem → List Char → Read (List ClassItem)
  | 0, _, _, _ => none
  | fuel + 1, started, items, cs =>
    match cs with
    | [] => none
    | ']' :: cs' =>
      if started then some (items.reverse, cs')
      else readClassItems fuel true (.range ']' ']' :: items) cs'
    | _ =>
      match readClassAtom cs with
      | none => none
      | some (.inr item, cs') => readClassItems fuel true (item :: items) cs'
      | some (.inl c, cs') =>
        match cs' with
        | '-' :: ']' :: _ => readClassItems fuel true (.range c c :: items) cs'
        | '-' :: cs'' =>
          match readClassAtom cs'' with
          | some (.inl d, rest) =>
            if c ≤ d then readClassItems fuel true (.range c d :: items) rest else none
          | _ => none
        | _ => readClassItems fuel true (.range c c :: items) cs'

/-- A class after its opening bracket. -/
def readClass (cs : List Char) : Read Regex :=
  let (negated, body) := match cs with
    | '^' :: rest => (true, rest)
    | _ => (false, cs)
  (readClassItems (body.length + 1) false [] body).map fun (items, rest) =>
    (one ⟨negated, items⟩, rest)

/-! ## 2. Expressions -/

/-- The repetitions after an expression. -/
def readRepeats : Nat → Regex → List Char → Regex × List Char
  | 0, r, cs => (r, cs)
  | fuel + 1, r, cs =>
    match cs with
    | '*' :: '?' :: rest => readRepeats fuel (star r false) rest
    | '*' :: rest => readRepeats fuel (star r true) rest
    | '+' :: '?' :: rest => readRepeats fuel (rounds r false) rest
    | '+' :: rest => readRepeats fuel (rounds r true) rest
    | '?' :: '?' :: rest => readRepeats fuel (optional r false) rest
    | '?' :: rest => readRepeats fuel (optional r true) rest
    | _ => (r, cs)

/-- The parts that two sequences begin with alike.  Two expressions with brackets are never
alike. -/
def commonParts : List Regex → List Regex → List Regex
  | r :: rs, s :: ss => if r == s && !r.hasGroup then r :: commonParts rs ss else []
  | _, _ => []

/-- The expression of a list of alternatives.  If all of them are sequences that begin alike, they
share their beginning, and the choice is made after it. -/
def ofAlternatives (alternatives : List Regex) : Regex :=
  match alternatives.map parts with
  | first :: second :: more =>
    let sequences := first :: second :: more
    let common := (second :: more).foldl commonParts first
    if common.isEmpty || sequences.any (·.length < 2) then alts alternatives
    else seqs (common ++ [alts (sequences.map fun rs => seqs (rs.drop common.length))])
  | _ => alts alternatives

/-- Characters that have a meaning of their own and cannot stand for themselves. -/
def isOperator (c : Char) : Bool := "*+?()[|\x7b^$".toList.contains c

mutual

/-- Alternatives up to the end of a group or of the text. -/
def readAlternatives : Nat → List Char → Read (List Regex)
  | 0, _ => none
  | fuel + 1, cs =>
    match readSequence fuel cs with
    | none => none
    | some (r, '|' :: rest) =>
      (readAlternatives fuel rest).map fun (rs, rest') => (r :: rs, rest')
    | some (r, rest) => some ([r], rest)

/-- Expressions one after the other. -/
def readSequence : Nat → List Char → Read Regex
  | 0, _ => none
  | fuel + 1, cs =>
    match cs with
    | [] => some (empty, [])
    | '|' :: _ => some (empty, cs)
    | ')' :: _ => some (empty, cs)
    | _ =>
      match readAtom fuel cs with
      | none => none
      | some (atom, rest) =>
        let (r, rest) := readRepeats (rest.length + 1) atom rest
        (readSequence fuel rest).map fun (s, rest') =>
          (if s == empty then r else seq r s, rest')

/-- One expression without its repetitions. -/
def readAtom : Nat → List Char → Read Regex
  | 0, _ => none
  | fuel + 1, cs =>
    match cs with
    | '(' :: '?' :: ':' :: rest => readGroup fuel rest
    | '(' :: rest => (readGroup fuel rest).map fun (r, rest') => (group r, rest')
    | '[' :: rest => readClass rest
    | '.' :: rest => some (one (.noneOf ['\n']), rest)
    | '\\' :: 's' :: rest => some (one ⟨false, [.space]⟩, rest)
    | '\\' :: 'b' :: rest => some (boundary, rest)
    | '\\' :: c :: rest => (escapedChar? c).map fun c => (char c, rest)
    | '\\' :: [] => none
    | c :: rest => if isOperator c then none else some (char c, rest)
    | [] => none

/-- The inside of a group and its closing bracket. -/
def readGroup : Nat → List Char → Read Regex
  | 0, _ => none
  | fuel + 1, cs =>
    match readAlternatives fuel cs with
    | some (rs, ')' :: rest) => some (ofAlternatives rs, rest)
    | _ => none

end

/-- The expression of a pattern. -/
def ofPattern? (pattern : String) : Option Regex :=
  let cs := pattern.toList
  match readAlternatives (4 * cs.length + 4) cs with
  | some (rs, []) => some (ofAlternatives rs)
  | _ => none

end Lode.Regex
