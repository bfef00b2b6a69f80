/-
# Positions and spans

A position is a line, counted from one, and a column, counted in bytes from zero.  A span is the
region between two positions.  Spans are compared by their ends only, in reading order.
-/

namespace Lode

/-- A place in a text: the line from one, the column in bytes from zero. -/
structure Position where
  line : Nat
  col : Nat
deriving DecidableEq, Repr, Inhabited

namespace Position

/-- Reading order: by line, then by column. -/
def before (a b : Position) : Bool :=
  a.line < b.line || (a.line == b.line && a.col < b.col)

/-- The earlier of two positions. -/
def earlier (a b : Position) : Position := if b.before a then b else a

/-- The later of two positions. -/
def later (a b : Position) : Position := if a.before b then b else a

end Position

/-- A region of a text. -/
structure Span where
  start : Position
  stop : Position
deriving DecidableEq, Repr

namespace Span

/-- The span of things that come from no text. -/
def nowhere : Span := ⟨⟨0, 0⟩, ⟨0, 0⟩⟩

instance : Inhabited Span := ⟨nowhere⟩

/-- The empty region at a position. -/
def point (p : Position) : Span := ⟨p, p⟩

/-- A region without extent. -/
def isEmpty (s : Span) : Bool := s.start == s.stop

/-- The least span around two. -/
def join (a b : Span) : Span := ⟨a.start.earlier b.start, a.stop.later b.stop⟩

/-- The least span around a list of them, none for the empty list. -/
def cover : List Span → Option Span
  | [] => none
  | s :: ss => some (ss.foldl join s)

/-- The gap from the end of `a` to the start of `b`; a point at the end of `a` if they touch or
overlap. -/
def between (a b : Span) : Span :=
  if a.stop.before b.start then ⟨a.stop, b.start⟩ else point a.stop

/-- The start of a span as diagnostics name it, columns counted from one. -/
def text (s : Span) : String := s!"{s.start.line}:{s.start.col + 1}"

end Span

end Lode
