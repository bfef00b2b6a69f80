/-
# Passes

A pass turns the tree of a unit into another one.  It declares which kinds of things it introduces,
uses and deletes, and the schedule is made from these declarations alone.

The result of a pass is a verdict on the root, so that a pass that finds nothing to do says so.
-/
import Lode.Pattern.RuleSet
import Lode.Scope

namespace Lode

/-- What a pass declares. -/
structure PassInfo where
  name : String
  introduces : List String
  uses : List String
  deletes : List String
deriving DecidableEq, Repr

/-- A pass over the tree of a unit of a given name. -/
structure Pass where
  info : PassInfo
  run : String → Node → Except Error Verdict

namespace Pass

variable {σ : Type}

/-- Walks over the tree of a unit, whose root must be left. -/
def walk (name : String) (hooks : Hooks σ) (start : σ) (tree : Node) : Except Error Verdict := do
  match ← ((tree.transform hooks).run.run start).1 with
  | .remove => throw (InternalProblem.passRemovedUnit name).error
  | verdict => return verdict

/-- Walks over the tree of a unit with scopes. -/
def walkScoped (name : String) (hooks : Hooks (Scoped σ)) (start : σ) (tree : Node) :
    Except Error Verdict :=
  walk name (Scoped.hooks hooks) ⟨[], start⟩ tree

end Pass

/-! ## What passes find in nodes -/

namespace Node

/-- The type written in a declaration. -/
def declaredType (n : Node) : Except Error Ty :=
  match (n.node? "ty").bind (·.type? "info") with
  | some t => .ok t
  | none => .error ((InternalProblem.noDeclaredType n.tag).atSpan n.span)

/-- The type computed for an expression. -/
def exprType (n : Node) : Except Error Ty :=
  match n.type? "type" with
  | some t => .ok t
  | none => .error ((InternalProblem.untyped n.tag).atSpan n.span)

/-- A child that has to be there. -/
def child (n : Node) (name : String) : Except Error Node :=
  match n.node? name with
  | some c => .ok c
  | none => .error ((InternalProblem.missingAttribute n.tag name).atSpan n.span)

/-- A text that has to be there. -/
def textOf (n : Node) (name : String) : Except Error String :=
  match n.str? name with
  | some s => .ok s
  | none => .error ((InternalProblem.missingAttribute n.tag name).atSpan n.span)

end Node

end Lode
