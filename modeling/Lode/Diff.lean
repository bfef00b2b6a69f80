/-
# Line differences

Two texts are compared line by line.  A common subsequence of their lines is found from a table of
lengths, walking back from the last pair of lines; the lines of both texts are then merged into runs
of lines that are kept, removed or added.

The table is stored row by row in one array.  On the way back the cell to the left of a row's first
cell is the last cell of the row before.
-/

namespace Lode.Diff

/-! ## 1. A common subsequence -/

/-- The length at a pair of lines, from the table of all pairs before it. -/
def cell (old new : Array String) (table : Array Nat) (i j : Nat) : Nat :=
  let width := new.size
  let at? := fun (i j : Nat) => (table[i * width + j]?).getD 0
  if old[i]? == new[j]? then
    if i = 0 || j = 0 then 1 else at? (i - 1) (j - 1) + 1
  else if i = 0 then if j = 0 then 0 else at? i (j - 1)
  else if j = 0 then at? (i - 1) j
  else max (at? i (j - 1)) (at? (i - 1) j)

/-- The lengths for all pairs of lines, row by row. -/
def lengths (old new : Array String) : Array Nat :=
  (List.range (old.size * new.size)).foldl
    (fun table k => table.push (cell old new table (k / new.size) (k % new.size))) #[]

/-- The common lines up to a pair of lines, in front of those already found.  Every step leaves a
line of one text behind, so the number of lines is budget enough. -/
def walkBack (old new : Array String) (table : Array Nat) :
    Nat → Nat → Nat → List String → List String
  | 0, _, _, found => found
  | fuel + 1, i, j, found =>
    if old[i]? == new[j]? then
      let found := (old[i]?).toList ++ found
      if i = 0 || j = 0 then found else walkBack old new table fuel (i - 1) (j - 1) found
    else if i = 0 && j = 0 then found
    else
      let left := (table[i * new.size + j - 1]?).getD 0
      let up := (table[(i - 1) * new.size + j]?).getD 0
      if i = 0 || left > up then
        if j = 0 then found else walkBack old new table fuel i (j - 1) found
      else walkBack old new table fuel (i - 1) j found

/-- The lines that two texts have in common. -/
def common (old new : List String) : List String :=
  let a := old.toArray
  let b := new.toArray
  walkBack a b (lengths a b) (a.size + b.size) (a.size - 1) (b.size - 1) []

/-! ## 2. Runs -/

/-- What became of lines. -/
inductive Change where
  | same
  | removed
  | added
deriving DecidableEq, Repr

/-- The mark in front of a line. -/
def Change.mark : Change → Char
  | same => ' '
  | removed => '-'
  | added => '+'

/-- Lines that share their fate. -/
structure Run where
  change : Change
  lines : List String
deriving DecidableEq, Repr

/-- The lines at the front of all three lists while they agree, and what is left of the lists. -/
def takeSame : List String → List String → List String →
    List String × List String × List String × List String
  | a :: as, b :: bs, c :: cs =>
    if a == c && b == c then
      let (same, rest) := takeSame as bs cs
      (a :: same, rest)
    else ([], a :: as, b :: bs, c :: cs)
  | as, bs, cs => ([], as, bs, cs)

/-- The lines before the first common one. -/
def takeUnlike (common : List String) (lines : List String) : List String × List String :=
  lines.span fun line => some line != common.head?

/-- A run, unless it has no lines. -/
def run (change : Change) (lines : List String) : List Run :=
  if lines.isEmpty then [] else [⟨change, lines⟩]

/-- Merges two texts along their common lines.  Every round takes a line of one of them, so the
number of lines is budget enough. -/
def merge : Nat → List String → List String → List String → List Run
  | 0, _, _, _ => []
  | fuel + 1, old, new, common =>
    if old.isEmpty && new.isEmpty then []
    else
      let (same, old, new, common) := takeSame old new common
      let (removed, old) := takeUnlike common old
      let (added, new) := takeUnlike common new
      run .same same ++ run .removed removed ++ run .added added ++ merge fuel old new common

/-- The differences between two texts. -/
def ofTexts (old new : String) : List Run :=
  let a := old.splitOn "\n"
  let b := new.splitOn "\n"
  merge (a.length + b.length) a b (common a b)

/-- A line without the carriage return at its end. -/
def dropReturn (line : String) : String :=
  match line.toList.reverse with
  | '\r' :: rest => String.ofList rest.reverse
  | _ => line

/-- The lines of a run as they are shown, each with its mark. -/
def Run.text (r : Run) : String :=
  let shown := if r.lines.getLast? == some "" then r.lines.dropLast else r.lines
  String.join (shown.map fun line => r.change.mark.toString ++ dropReturn line ++ "\n")

end Lode.Diff
