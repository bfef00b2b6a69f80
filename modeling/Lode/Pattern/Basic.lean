/-
# Patterns over trees

A pattern says what a value looks like and which of its parts are to be captured.  Patterns of
sequences describe the elements one by one, with runs of any length in between and perhaps a rest.

`Pattern.match?` gives the captures of the preferred match: every run is as long as the elements
after it allow, from left to right.  What was captured on the way to a dead end is not among them.
The only failure is a requirement that is not met.
-/
import Lode.Error
import Lode.Tree.Sequence

namespace Lode

/-! ## 1. Captures -/

/-- What a name can stand for. -/
inductive Captured where
  | value (v : Value)
  | nodes (ns : List Node)
  /-- The cells of a sequence that the pattern leaves over. -/
  | rest (n : Option Node)
  | span (s : Span)
deriving DecidableEq, Repr

/-- The captures of a match by name. -/
abbrev Bindings := List (String × Captured)

namespace Bindings

/-- What a name stands for. -/
def get? (b : Bindings) (name : String) : Option Captured := Sorted.find? name b

/-- Lets a name stand for something. -/
def bind (b : Bindings) (name : String) (c : Captured) : Bindings := Sorted.set name c b

/-- The error for a name that stands for something else. -/
def wrong (name expected : String) : Error := (InternalProblem.captureShape name expected).error

/-- The value under a name. -/
def value (b : Bindings) (name : String) : Except Error Value :=
  match b.get? name with
  | some (.value v) => .ok v
  | _ => .error (wrong name "value")

/-- The value of a kind under a name. -/
def valueOf {α : Type} (b : Bindings) (name expected : String) (read : Value → Option α) :
    Except Error α := do
  let v ← b.value name
  match read v with
  | some a => return a
  | none => throw (wrong name expected)

/-- The node under a name. -/
def node (b : Bindings) (name : String) : Except Error Node := b.valueOf name "node" Value.node?

/-- The number under a name. -/
def int (b : Bindings) (name : String) : Except Error Int := b.valueOf name "integer" Value.int?

/-- The text under a name. -/
def str (b : Bindings) (name : String) : Except Error String := b.valueOf name "string" Value.str?

/-- The type under a name. -/
def type (b : Bindings) (name : String) : Except Error Ty := b.valueOf name "type" Value.type?

/-- The node or the rest of a sequence under a name, if there is one. -/
def node? (b : Bindings) (name : String) : Option Node :=
  match b.get? name with
  | some (.value (.node n)) => some n
  | some (.rest n) => n
  | _ => none

/-- The place under a name. -/
def span (b : Bindings) (name : String) : Except Error Span :=
  match b.get? name with
  | some (.span s) => .ok s
  | _ => .error (wrong name "span")

/-- The nodes under a name. -/
def nodes (b : Bindings) (name : String) : Except Error (List Node) :=
  match b.get? name with
  | some (.nodes ns) => .ok ns
  | _ => .error (wrong name "node list")

end Bindings

/-! ## 2. Patterns -/

mutual

/-- What a value looks like. -/
inductive Pattern where
  | any
  | eq (v : Value)
  /-- A number below a bound. -/
  | lt (bound : Int)
  | when (test : Value → Bool)
  /-- A node with a tag.  The named attributes must be there and match, the `absent` ones must not
  be there, and `exhaustive` allows no others; `span` captures the place. -/
  | node (tag : Tag) (attributes : FieldPatterns) (absent : List String) (exhaustive : Bool)
      (span : Option String)
  | capture (name : String) (p : Pattern)
  /-- A pattern that must match where it is tried. -/
  | require (p : Pattern) (otherwise : Value → Error)
  /-- The elements of a sequence; without a name for the rest nothing may be left over. -/
  | sequence (items : ItemPatterns) (rest : Option String)

/-- What attributes look like. -/
inductive FieldPatterns where
  | nil
  | cons (name : String) (p : Pattern) (others : FieldPatterns)

/-- What the elements of a sequence look like. -/
inductive ItemPatterns where
  | nil
  | one (p : Pattern) (others : ItemPatterns)
  /-- Any number of nodes, captured together. -/
  | many (name : String) (p : Pattern) (others : ItemPatterns)

end

/-- The attributes a pattern names, in increasing order. -/
def FieldPatterns.names : FieldPatterns → List String
  | nil => []
  | cons name _ others => Sorted.insert name others.names

/-- Attribute patterns from a list. -/
def FieldPatterns.ofList : List (String × Pattern) → FieldPatterns
  | [] => nil
  | (name, p) :: rest => cons name p (ofList rest)

namespace Pattern

/-- A node with a tag and attributes. -/
def tagged (tag : Tag) (attributes : List (String × Pattern)) : Pattern :=
  node tag (.ofList attributes) [] false none

/-- The given elements one by one. -/
def ones : List Pattern → ItemPatterns
  | [] => .nil
  | p :: ps => .one p (ones ps)

/-! ## 3. Matching -/

/-- The result of a match: a failure, no match, or its captures. -/
abbrev Result := Except Error (Option Bindings)

/-- Whether a node has exactly the named attributes. -/
def hasExactly (n : Node) (names : List String) : Bool :=
  n.fields.size == names.length && n.fields.names.all names.contains

/-- The value in the element's place of a cell. -/
def cellElement? (cell : Node) : Option Value := cell.tag.element?.bind cell.get?

/-- The longest run of nodes at the front of a chain that a test accepts. -/
def takeRun (accepts : Value → Except Error Bool) : List Node → Except Error (List Node)
  | [] => .ok []
  | cell :: cells =>
    match cellElement? cell with
    | some (.node e) => do
      if ← accepts (.node e) then
        let run ← takeRun accepts cells
        return e :: run
      else return []
    | _ => .ok []

/-- The first success among the attempts with `n`, `n - 1`, … `0` elements. -/
def longestFirst (attempt : Nat → Result) : Nat → Result
  | 0 => attempt 0
  | n + 1 => do
    match ← attempt (n + 1) with
    | some b => return some b
    | none => longestFirst attempt n

end Pattern

mutual

/-- Matches a value, adding to captures. -/
def Pattern.match? : Pattern → Value → Bindings → Pattern.Result
  | .any, _, b => .ok (some b)
  | .eq expected, v, b => .ok (if v = expected then some b else none)
  | .lt bound, v, b => .ok (if v.int?.any (· < bound) then some b else none)
  | .when test, v, b => .ok (if test v then some b else none)
  | .node tag attributes absent exhaustive span, v, b =>
    match v with
    | .node n =>
      if n.tag ≠ tag || absent.any n.has ||
          (exhaustive && !Pattern.hasExactly n attributes.names) then .ok none
      else do
        match ← attributes.match? n b with
        | none => return none
        | some b =>
          return some (match span with
            | some name => b.bind name (.span n.span)
            | none => b)
    | _ => .ok none
  | .capture name p, v, b => do
    match ← p.match? v b with
    | none => return none
    | some b => return some (b.bind name (.value v))
  | .require p otherwise, v, b => do
    match ← p.match? v b with
    | none => throw (otherwise v)
    | some b => return some b
  | .sequence items rest, v, b =>
    match v with
    | .node n => if n.tag.isSequence then items.match? n.cells rest b else .ok none
    | _ => .ok none

/-- Matches the attributes of a node. -/
def FieldPatterns.match? : FieldPatterns → Node → Bindings → Pattern.Result
  | .nil, _, b => .ok (some b)
  | .cons name p others, n, b =>
    match n.get? name with
    | none => .ok none
    | some v => do
      match ← p.match? v b with
      | none => return none
      | some b => others.match? n b

/-- Matches the elements of a chain of cells. -/
def ItemPatterns.match? : ItemPatterns → List Node → Option String → Bindings → Pattern.Result
  | .nil, cells, rest, b =>
    .ok (match rest with
      | some name => some (b.bind name (.rest cells.head?))
      | none => if cells.isEmpty then some b else none)
  | .one p others, cells, rest, b =>
    match cells with
    | [] => .ok none
    | cell :: cells =>
      match Pattern.cellElement? cell with
      | none => .ok none
      | some v => do
        match ← p.match? v b with
        | none => return none
        | some b => others.match? cells rest b
  | .many name p others, cells, rest, b => do
    let run ← Pattern.takeRun (fun v => do return (← p.match? v b).isSome) cells
    Pattern.longestFirst
      (fun taken => others.match? (cells.drop taken) rest (b.bind name (.nodes (run.take taken))))
      run.length

end

end Lode
