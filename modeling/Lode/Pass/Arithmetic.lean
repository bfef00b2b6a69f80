/-
# Literal arithmetic

Operations whose operands are all literals become literals.  The result has the type of the left or
only operand.
-/
import Lode.Pass.Constants

namespace Lode.FoldArithmetic

/-- An operation on two literals. -/
def operation : TreeRule where
  pattern := .tagged .binop [("op", .capture "op" .any),
    ("lhs", .capture "lhs" (.tagged .number [])), ("rhs", .capture "rhs" (.tagged .number []))]
  template b n := do
    let lhs ← b.node "lhs"
    let rhs ← b.node "rhs"
    let value ← applyOperator (← b.str "op") ((lhs.int? "value").getD 0)
      ((rhs.int? "value").getD 0) n.span
    return .replace (numberLike value lhs n.span)

/-- The negation of a literal. -/
def negation : TreeRule where
  pattern := .tagged .neg [("operand", .capture "operand" (.tagged .number []))]
  template b n := do
    let operand ← b.node "operand"
    let value ← applyNegation ((operand.int? "value").getD 0) n.span
    return .replace (numberLike value operand n.span)

/-- The rules, tried on the way up. -/
def rules : RuleSet := ⟨"fold_arithmetic", .ascending, [operation, negation]⟩

/-- The pass that computes with literals. -/
def pass : Pass where
  info := ⟨"fold_arithmetic", ["number"], ["number", "binop"], []⟩
  run _ tree := rules.run tree

end Lode.FoldArithmetic
