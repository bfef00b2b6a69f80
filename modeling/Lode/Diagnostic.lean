/-
# Diagnostics

An error names places by line and column.  To show a place in its text it is turned into a range of
bytes.  Columns past the end of a line mean its end, and lines past the end of the text, or line
zero, mean the end of the text.
-/
import Lode.Error
import Lode.Text.Bytes

namespace Lode

/-- The number of bytes before a position, counting from `start` in the given lines, of which the
first has the number `number`; the position lies behind the lines if none has its number. -/
def offsetIn (p : Position) : Nat → Nat → List (List Char) → Nat
  | start, _, [] => start
  | start, number, line :: lines =>
    if number = p.line then start + min p.col (byteLength line)
    else offsetIn p (start + byteLength line) (number + 1) lines

/-- The number of bytes of a text before a position. -/
def byteOffset (text : String) (p : Position) : Nat := offsetIn p 0 1 (splitLines text.toList)

/-- The first byte of a span and the number of its bytes; none if it ends before it begins. -/
def byteRange (text : String) (span : Span) : Nat × Nat :=
  let start := byteOffset text span.start
  (start, byteOffset text span.stop - start)

/-- A note at a range of bytes. -/
structure Label where
  note : String
  start : Nat
  length : Nat
deriving DecidableEq, Repr

/-- The notes of an error in its text. -/
def Error.labels (e : Error) (text : String) : List Label :=
  match e.span with
  | none => []
  | some span =>
    let (start, length) := byteRange text span
    [⟨e.kind.label, start, length⟩]

end Lode
