/-
# Text streams

A stream reads a text line by line and hands it out as tokens.  It remembers the token it handed out
last, and only that one can be taken back.

The unread text is kept as a list of lines, the first of which is the rest of the current one; no
line in the list is empty.  A token never reaches over the end of a line.  Reading more than the
line holds, cutting a character in two, or taking back a token that is not the last one is a misuse
of the stream and has no result.
-/
import Lode.Regex.Program
import Lode.Token

namespace Lode

/-- Where a stream stands: the position and the unread lines. -/
structure Cursor where
  position : Position
  unread : List (List Char)
deriving DecidableEq, Repr

/-- A text that is being read. -/
structure Stream where
  cursor : Cursor
  /-- Where the text ends. -/
  finish : Position
  /-- The place of the token handed out last and where the stream stood before it. -/
  last : Option (Span × Cursor) := none
deriving DecidableEq, Repr

namespace Stream

/-- The position after a list of lines. -/
def endOfLines (lines : List (List Char)) : Position :=
  match lines.getLast? with
  | none => ⟨1, 0⟩
  | some line =>
    if line.getLast? == some '\n' then ⟨lines.length + 1, 0⟩
    else ⟨lines.length, byteLength line⟩

/-- A stream over given lines; empty ones are left out. -/
def ofLines (lines : List (List Char)) : Stream :=
  let lines := lines.filter (!·.isEmpty)
  { cursor := ⟨⟨1, 0⟩, lines⟩, finish := endOfLines lines }

/-- A stream over a text. -/
def ofText (text : String) : Stream := ofLines (splitLines text.toList)

/-- Whether the whole text was read. -/
def atEnd (s : Stream) : Bool := s.cursor.unread.isEmpty

/-- The length in bytes of the match of an expression at the cursor. -/
def matchLength? (s : Stream) (r : Regex) : Option Nat :=
  s.cursor.unread.head?.bind r.matchLength?

/-- Hands out the next `length` bytes of the current line. -/
def produce? (s : Stream) (kind : Terminal) (length : Nat) (channel : Channel) :
    Option (Token × Stream) :=
  match s.cursor.unread with
  | [] => none
  | line :: lines =>
    (splitBytes length line).map fun (front, back) =>
      let start := s.cursor.position
      let span : Span := ⟨start, ⟨start.line, start.col + length⟩⟩
      let cursor : Cursor :=
        if back.isEmpty then ⟨⟨start.line + 1, 0⟩, lines⟩ else ⟨span.stop, back :: lines⟩
      (⟨kind, String.ofList front, channel, span⟩,
        { s with cursor := cursor, last := some (span, s.cursor) })

/-- Hands out the empty token at the end of the text.  It does not move the cursor. -/
def produceEof (s : Stream) : Token × Stream :=
  let span := Span.point s.finish
  (⟨.eof, "", .all, span⟩, { s with last := some (span, s.cursor) })

/-- Takes back the token handed out last. -/
def rewind? (s : Stream) (token : Token) : Option Stream :=
  match s.last with
  | some (span, cursor) =>
    if span == token.span then some { s with cursor := cursor, last := none } else none
  | none => none

end Stream

end Lode
