/-
# Transforming trees

A walk visits every node of a tree: an enter hook before its children, an exit hook after them.  A
hook may keep the node, put another one in its place, or remove it.

What a walk does to a node is again such a verdict, so "nothing changed below" is part of the
result, and a node is rebuilt only if a child changed.  When the children of a sequence cell change
and its element is gone, the cell gives way to its successor, and its exit hook does not run.

Hooks have a state and may fail; the state outlives a failure.  An enter hook may return a tree that
is deeper than the one it was given, so a walk has a budget for its depth.
-/
import Lode.Error
import Lode.Tree.Basic

namespace Lode

/-- What happens to a node. -/
inductive Verdict where
  | keep
  | replace (n : Node)
  | remove
deriving DecidableEq, Repr

/-- What is left of a node. -/
def Verdict.apply (r : Verdict) (n : Node) : Option Node :=
  match r with
  | keep => some n
  | replace m => some m
  | remove => none

/-- A computation with a state that may fail. -/
abbrev Walk (σ α : Type) := ExceptT Error (StateM σ) α

/-- What to do at the nodes of a walk. -/
structure Hooks (σ : Type) where
  enter : Node → Walk σ Verdict := fun _ => pure .keep
  exit : Node → Walk σ Verdict := fun _ => pure .keep

variable {σ : Type}

/-- Visits children one after the other.  The attributes with the children that are left, and
whether any child changed. -/
def visitChildren (visit : Node → Walk σ Verdict) :
    List (String × Node) → Fields → Bool → Walk σ (Fields × Bool)
  | [], fields, changed => return (fields, changed)
  | (name, child) :: rest, fields, changed => do
    match ← visit child with
    | .keep => visitChildren visit rest fields changed
    | .replace n => visitChildren visit rest (fields.set name (.node n)) true
    | .remove => visitChildren visit rest (fields.erase name) true

/-- Whether a cell of a sequence lost its element. -/
def lostElement (tag : Tag) (fields : Fields) : Bool :=
  match tag.element? with
  | some element => !fields.has element
  | none => false

/-- The verdict on a node whose successor takes its place. -/
def collapse (fields : Fields) : Verdict :=
  match (fields.get? "next").bind Value.node? with
  | some next => .replace next
  | none => .remove

/-- Walks over a tree, at most `fuel` nodes deep. -/
def transformWithin (hooks : Hooks σ) : Nat → Node → Walk σ Verdict
  | 0, _ => throw InternalProblem.outOfFuel.error
  | fuel + 1, n => do
    let entered ← hooks.enter n
    match entered.apply n with
    | none => return .remove
    | some node =>
      let (fields, changed) ←
        visitChildren (transformWithin hooks fuel) (visitOrder node.fields.nodes) node.fields false
      if changed then
        if lostElement node.tag fields then return collapse fields
        let rebuilt := Node.mk node.tag fields node.span
        match ← hooks.exit rebuilt with
        | .keep => return .replace rebuilt
        | verdict => return verdict
      else
        match ← hooks.exit node with
        | .keep => return entered
        | verdict => return verdict

namespace Node

/-- The budget of a walk over a tree. -/
def walkBudget (n : Node) : Nat := 2 * n.size + 64

/-- Walks over a tree. -/
def transform (hooks : Hooks σ) (n : Node) : Walk σ Verdict := transformWithin hooks n.walkBudget n

/-- Puts every node nowhere. -/
def stripHooks : Hooks Unit where
  exit n := pure (if n.span == .nowhere then .keep else .replace (n.withSpan .nowhere))

/-- The tree without its places, to compare trees up to where they stand in a text. -/
def stripSpans (n : Node) : Node :=
  match (n.transform stripHooks).run.run () with
  | (.ok verdict, _) => (verdict.apply n).getD n
  | (.error _, _) => n

end Node

end Lode
