/-
# Settings documents

The part of YAML that settings are written in: mappings and sequences, in block form, told apart by
indentation, or in flow form between brackets; scalars that are plain or between quotes, on one line
or several; comments; and the marks around a document.  Anchors, tags, directives and block scalars
are not part of it.

This file holds the documents and the classes of characters.  A text is cut into tokens in
`Yaml.Token`, with the scalars of `Yaml.Scalar`, and the tokens are read as a document in
`Yaml.Document`.
-/

namespace Lode

/-- A settings document. -/
inductive Yaml where
  /-- A scalar without quotes; the empty one stands for a value that is left out. -/
  | plain (s : String)
  | quoted (s : String)
  | sequence (items : List Yaml)
  | mapping (entries : List (Yaml × Yaml))

namespace Yaml

/-- Whether a character may stand in a document. -/
def isAllowed (c : Char) : Bool :=
  let n := c.toNat
  n == 0x09 || n == 0x0a || n == 0x0d || (0x20 ≤ n && n ≤ 0x7e) || n == 0x85 ||
    (0xa0 ≤ n && n ≤ 0xfffd && n != 0xfeff) || 0x10000 ≤ n

/-- A space or a tab. -/
def isBlank (c : Char) : Bool := c == ' ' || c == '\t'

/-- A line break, once all breaks that count as a line feed are written as one. -/
def isBreak (c : Char) : Bool := c == '\n' || c == '\u2028' || c == '\u2029'

/-- Whether a text begins with a blank or a line break, or is at its end. -/
def isGap (cs : List Char) : Bool := cs.head?.all fun c => isBlank c || isBreak c

/-- Whether a character divides the parts of a flow collection. -/
def isFlowMark (c : Char) : Bool := ",[]\x7b\x7d".toList.contains c

/-- Whether a line begins with the mark of the beginning or of the end of a document. -/
def isDocumentMark : List Char → Bool
  | '-' :: '-' :: '-' :: rest | '.' :: '.' :: '.' :: rest => isGap rest
  | _ => false

/-- A text in which every line break that counts as a line feed is one. -/
def unifyBreaks : List Char → List Char
  | [] => []
  | '\r' :: '\n' :: rest => '\n' :: unifyBreaks rest
  | c :: rest => (if c == '\r' || c == '\u0085' then '\n' else c) :: unifyBreaks rest

end Yaml

end Lode
