/-
# Tokens of settings documents

A text is cut into scalars, marks, and the beginnings and ends of block collections.  The scan goes
from left to right and keeps the column of every open block collection and, for every open flow
collection, the place where a key may have begun.  That something was a key is known only at its
colon; the tokens that say so are then noted for its place and put in at the end.

A key stands on one line with its colon, at most 1024 characters before it.
-/
import Lode.Yaml.Scalar

namespace Lode.Yaml

/-- A token of a document. -/
inductive Token where
  /-- A scalar without quotes. -/
  | plain (s : String)
  /-- A scalar between quotes. -/
  | quoted (s : String)
  | documentStart
  | documentEnd
  | blockSequence
  | blockMapping
  /-- The end of a block collection of either kind. -/
  | blockEnd
  | flowSequence
  | flowSequenceEnd
  | flowMapping
  | flowMappingEnd
  /-- The comma of a flow collection. -/
  | comma
  /-- The dash of an item. -/
  | item
  /-- The beginning of a key. -/
  | key
  /-- The colon before a value. -/
  | value
deriving DecidableEq, Repr

/-! ## 1. Places -/

/-- A place in a text. -/
structure Place where
  rest : List Char
  index : Nat := 0
  line : Nat := 0
  column : Nat := 0
deriving DecidableEq, Repr

namespace Place

/-- The place after the next character. -/
def next (p : Place) : Place :=
  match p.rest with
  | [] => p
  | c :: cs =>
    if isBreak c then ⟨cs, p.index + 1, p.line + 1, 0⟩
    else ⟨cs, p.index + 1, p.line, p.column + 1⟩

/-- The place after a number of characters. -/
def advance : Nat → Place → Place
  | 0, p => p
  | n + 1, p => advance n p.next

/-- The place in front of a given end of the text. -/
def goTo (rest : List Char) (p : Place) : Place := p.advance (p.rest.length - rest.length)

end Place

/-- A place where a key may have begun. -/
structure KeyStart where
  /-- The number of tokens before it. -/
  tokens : Nat
  place : Place
  /-- Whether only a key can stand there. -/
  required : Bool
deriving DecidableEq, Repr

/-- The number of characters within which the colon has to follow the beginning of a key. -/
def keyLimit : Nat := 1024

/-- Whether it is too late for the colon of a key. -/
def KeyStart.isLate (key : KeyStart) (p : Place) : Bool :=
  key.place.line < p.line || key.place.index + keyLimit < p.index

/-! ## 2. The state of a scan -/

/-- A scan of a text. -/
structure Scan where
  place : Place
  /-- The tokens so far, the last one first. -/
  tokens : List Token := []
  /-- What is to be put in front of a token, by the number of tokens before it. -/
  notes : List (Nat × List Token) := []
  /-- The margins of the open block collections, innermost first.  The margin is the column after
  the one where a collection stands. -/
  margins : List Nat := []
  /-- Where a key may have begun in the innermost open flow collection. -/
  key : Option KeyStart := none
  /-- Where keys may have begun in the collections around it, one entry for each. -/
  outer : List (Option KeyStart) := []
  /-- Whether a key may begin here. -/
  keyAllowed : Bool := true

namespace Scan

/-- Whether a flow collection is open. -/
def inFlow (s : Scan) : Bool := !s.outer.isEmpty

/-- The margin of the innermost block collection; there is none on the outermost level. -/
def margin (s : Scan) : Nat := s.margins.headD 0

/-- Adds a token. -/
def add (t : Token) (s : Scan) : Scan := { s with tokens := t :: s.tokens }

/-- Adds a token that is written with a number of characters. -/
def take (t : Token) (length : Nat) (s : Scan) : Scan :=
  { s.add t with place := s.place.advance length }

/-- Ends the block collections whose margin lies beyond a limit. -/
def close (limit : Nat) (s : Scan) : Scan :=
  if s.inFlow then s
  else
    let count := (s.margins.takeWhile (limit < ·)).length
    { s with
      margins := s.margins.drop count
      tokens := List.replicate count .blockEnd ++ s.tokens }

/-- Begins a block collection at a column, if it lies further right than the open ones. -/
def openBlock (t : Token) (column : Nat) (s : Scan) : Scan :=
  if !s.inFlow && s.margin ≤ column then { s.add t with margins := (column + 1) :: s.margins }
  else s

/-- Gives up the key that may have begun.  A required one cannot be given up. -/
def dropKey (s : Scan) : Option Scan :=
  if s.key.any (·.required) then none else some { s with key := none }

/-- Gives up the keys for whose colon it is too late. -/
def dropLateKeys (s : Scan) : Option Scan :=
  let isLate (key : KeyStart) := key.isLate s.place
  if (s.key :: s.outer).any fun key => key.any fun key => isLate key && key.required then none
  else
    some { s with
      key := s.key.filter (!isLate ·)
      outer := s.outer.map (·.filter (!isLate ·)) }

/-- Notes that a key may begin here. -/
def saveKey (s : Scan) : Option Scan :=
  if s.keyAllowed then
    s.dropKey.map fun s =>
      let required := !s.inFlow && s.margin == s.place.column + 1
      { s with key := some ⟨s.tokens.length, s.place, required⟩ }
  else some s

/-! ## 3. Steps -/

/-- Passes over blanks, comments and line breaks.  In block form a tab is no blank where a key may
begin, and after a line break a key may begin. -/
def skipBlanks : Nat → Scan → Scan
  | 0, s => s
  | fuel + 1, s =>
    match s.place.rest with
    | [] => s
    | c :: rest =>
      if c == ' ' || (c == '\t' && (s.inFlow || !s.keyAllowed)) then
        skipBlanks fuel { s with place := s.place.next }
      else if c == '#' then
        skipBlanks fuel { s with place := s.place.goTo (rest.dropWhile (!isBreak ·)) }
      else if isBreak c then
        skipBlanks fuel { s with place := s.place.next, keyAllowed := s.keyAllowed || !s.inFlow }
      else s

/-- A mark around a document. -/
def documentMark (t : Token) (s : Scan) : Option Scan :=
  (s.close 0).dropKey.map fun s => { s.take t 3 with keyAllowed := false }

/-- The opening bracket of a flow collection. -/
def openFlow (t : Token) (s : Scan) : Option Scan :=
  s.saveKey.map fun s =>
    { s.take t 1 with key := none, outer := s.key :: s.outer, keyAllowed := true }

/-- The closing bracket of a flow collection. -/
def closeFlow (t : Token) (s : Scan) : Option Scan :=
  s.dropKey.map fun s =>
    { s.take t 1 with key := s.outer.head?.join, outer := s.outer.drop 1, keyAllowed := false }

/-- A comma. -/
def comma (s : Scan) : Option Scan :=
  s.dropKey.map fun s => { s.take .comma 1 with keyAllowed := true }

/-- A dash.  In block form it stands where a key might. -/
def dash (s : Scan) : Option Scan :=
  if s.inFlow || s.keyAllowed then
    (s.openBlock .blockSequence s.place.column).dropKey.map fun s =>
      { s.take .item 1 with keyAllowed := true }
  else none

/-- A question mark in front of a key. -/
def questionMark (s : Scan) : Option Scan :=
  if s.inFlow || s.keyAllowed then
    (s.openBlock .blockMapping s.place.column).dropKey.map fun s =>
      { s.take .key 1 with keyAllowed := !s.inFlow }
  else none

/-- A colon in front of a value.  If a key may have begun, it did, and in block form it may begin a
mapping. -/
def colon (s : Scan) : Option Scan :=
  match s.key with
  | some key =>
    let opens := !s.inFlow && s.margin ≤ key.place.column
    let note : List Token := if opens then [.blockMapping, .key] else [.key]
    let margins := if opens then (key.place.column + 1) :: s.margins else s.margins
    some { s.take .value 1 with
      notes := (key.tokens, note) :: s.notes, margins := margins, key := none, keyAllowed := false }
  | none =>
    if s.inFlow || s.keyAllowed then
      let s := s.openBlock .blockMapping s.place.column
      some { s.take .value 1 with keyAllowed := !s.inFlow }
    else none

/-- A scalar between quotes. -/
def quotedScalar (double : Bool) (s : Scan) : Option Scan := do
  let s ← s.saveKey
  let (text, rest) ← readQuoted double s.place.rest.length (s.place.rest.drop 1)
  return { s.add (.quoted (String.ofList text)) with
    place := s.place.goTo rest, keyAllowed := false }

/-- A plain scalar. -/
def plainScalar (s : Scan) : Option Scan := do
  let s ← s.saveKey
  let (text, broken, rest) ← readPlain s.inFlow s.margin s.place.rest
  return { s.add (.plain (String.ofList text)) with
    place := s.place.goTo rest, keyAllowed := broken }

/-- The token at a place that is not the end of the text. -/
def step (s : Scan) : Option Scan :=
  let cs := s.place.rest
  let isMark := s.inFlow || isGap (cs.drop 1)
  if s.place.column == 0 && isDocumentMark cs then
    s.documentMark (if cs.head? == some '-' then .documentStart else .documentEnd)
  else
    match cs with
    | '[' :: _ => s.openFlow .flowSequence
    | '\x7b' :: _ => s.openFlow .flowMapping
    | ']' :: _ => s.closeFlow .flowSequenceEnd
    | '\x7d' :: _ => s.closeFlow .flowMappingEnd
    | ',' :: _ => s.comma
    | '\x27' :: _ => s.quotedScalar false
    | '"' :: _ => s.quotedScalar true
    | _ =>
      if cs.head? == some '-' && isGap (cs.drop 1) then s.dash
      else if cs.head? == some '?' && isMark then s.questionMark
      else if cs.head? == some ':' && isMark then s.colon
      else if canBegin s.inFlow cs then s.plainScalar
      else none

/-- Carries a scan to the end of the text. -/
def finish : Nat → Scan → Option Scan
  | 0, _ => none
  | fuel + 1, s => do
    let s ← (s.skipBlanks (s.place.rest.length + 1)).dropLateKeys
    let s := s.close (s.place.column + 1)
    if s.place.rest.isEmpty then (s.close 0).dropKey else (← s.step).finish fuel

/-- All tokens in order, those that were noted for their place put in.  `count` is the number of
tokens that were passed. -/
def arrange (notes : List (Nat × List Token)) : (count : Nat) → List Token → List Token
  | _, [] => []
  | count, t :: ts =>
    (notes.filter (·.1 == count)).flatMap (·.2) ++ t :: arrange notes (count + 1) ts

end Scan

/-- The tokens of a text. -/
def tokens? (text : List Char) : Option (List Token) :=
  let start : Scan := { place := ⟨text, 0, 0, 0⟩ }
  (start.finish (text.length + 1)).map fun s => Scan.arrange s.notes 0 s.tokens.reverse

end Lode.Yaml
