/-
# Rule sets

A rule pairs a pattern with a template that says what becomes of a matching node.  A rule set is
applied to every node of a tree in one walk, on the way down or on the way up; at each node the
rules are tried in order, and the first match decides.
-/
import Lode.Pattern.Basic
import Lode.Tree.Transform

namespace Lode

/-- What becomes of a matching node, given the captures and the node. -/
abbrev Template := Bindings → Node → Except Error Verdict

/-- A pattern with a template. -/
structure TreeRule where
  pattern : Pattern
  template : Template

/-- When rules see a node. -/
inductive Direction where
  /-- Before its children. -/
  | descending
  /-- After its children. -/
  | ascending
deriving DecidableEq, Repr

/-- Rules that are applied together. -/
structure RuleSet where
  name : String
  direction : Direction
  rules : List TreeRule

namespace RuleSet

/-- The verdict of the first rule that matches a node. -/
def applyRules : List TreeRule → Node → Except Error Verdict
  | [], _ => .ok .keep
  | rule :: rules, n => do
    match ← rule.pattern.match? (.node n) [] with
    | some captures => rule.template captures n
    | none => applyRules rules n

/-- Applies the rules to one node.  An error without a place is put at the node. -/
def apply (set : RuleSet) (n : Node) : Except Error Verdict :=
  (applyRules set.rules n).mapError (·.locate n.span)

/-- The hooks of a walk that applies the rules. -/
def hooks (set : RuleSet) : Hooks Unit :=
  let hook : Node → Walk Unit Verdict := fun n => ExceptT.mk (pure (set.apply n))
  match set.direction with
  | .descending => { enter := hook }
  | .ascending => { exit := hook }

/-- Applies the rules to a whole tree, whose root must be left. -/
def run (set : RuleSet) (tree : Node) : Except Error Verdict := do
  match ← ((tree.transform set.hooks).run.run ()).1 with
  | .remove => throw (InternalProblem.ruleSetRemovedRoot set.name).error
  | verdict => return verdict

end RuleSet

/-- The verdict that puts an optional node in place of another. -/
def Verdict.ofOption : Option Node → Verdict
  | some n => replace n
  | none => remove

end Lode
