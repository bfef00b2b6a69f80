/-
# Simplification

What is done to every raw tree before the passes: brackets are dropped, the subtraction of zero is
dropped, and the negation of a literal becomes a negative literal.
-/
import Lode.Pattern.RuleSet
import Lode.Word

namespace Lode.Simplify

/-- What stands inside nested brackets, at most `fuel` of them. -/
def unwrapParens : Nat → Node → Node
  | 0, n => n
  | fuel + 1, n =>
    match n.tag, n.node? "expr" with
    | .paren, some inner => unwrapParens fuel inner
    | _, _ => n

/-- Puts a captured node in place of the match. -/
def captured (name : String) : Template := fun b _ => do return .replace (← b.node name)

/-- Brackets around brackets. -/
def nestedParens : TreeRule where
  pattern := .tagged .paren [("expr", .capture "expr" (.tagged .paren []))]
  template b _ := do
    let inner ← b.node "expr"
    return .replace (unwrapParens inner.size inner)

/-- Brackets around anything. -/
def parens : TreeRule where
  pattern := .tagged .paren [("expr", .capture "expr" .any)]
  template := captured "expr"

/-- A difference whose right side is zero. -/
def minusZero : TreeRule where
  pattern := .tagged .binop [("op", .eq (.str "-")), ("lhs", .capture "lhs" .any),
    ("rhs", .tagged .number [("value", .eq (.int 0))])]
  template := captured "lhs"

/-- A negated literal that has no type yet. -/
def negatedLiteral : TreeRule where
  pattern := .tagged .neg [("operand",
    .node .number (.ofList [("value", .capture "value" .any)]) ["type"] false none)]
  template b n := do
    let value ← b.int "value"
    return .replace (.build .number n.span [("value", .int (wrapWord64 (-value)))])

/-- The rules, tried on the way down. -/
def rules : RuleSet := ⟨"simplify", .descending, [nestedParens, parens, minusZero, negatedLiteral]⟩

end Lode.Simplify

namespace Lode

/-- The simplified tree. -/
def simplify (tree : Node) : Except Error Verdict := Simplify.rules.run tree

end Lode
