/-
# Constants

The value of every `constant` item is computed, checked against its type, and recorded in the scope;
the item itself is removed.  Calls of intrinsics are computed on the same walk.  A later pass puts
the recorded values in place of the names.

Arithmetic is that of words of eight bytes, and leaving their range is an error.
-/
import Lode.Intrinsic
import Lode.Pass.Names
import Lode.Word

namespace Lode

/-- A binary operation at a place. -/
def applyOperator (op : String) (lhs rhs : Int) (span : Span) : Except Error Int :=
  let result : Except Error Int := match op with
    | "+" => .ok (lhs + rhs)
    | "-" => .ok (lhs - rhs)
    | "*" => .ok (lhs * rhs)
    | _ => .error ((ConstantProblem.unknownOperator op).atSpan span)
  result.bind fun n => (checkWord64 n).elim (.error (ConstantProblem.overflow.atSpan span)) .ok

/-- A negation at a place. -/
def applyNegation (operand : Int) (span : Span) : Except Error Int :=
  (checkWord64 (-operand)).elim (.error (ConstantProblem.overflow.atSpan span)) .ok

/-- A number with the type of another expression, if that has one. -/
def numberLike (value : Int) (like : Node) (span : Span) : Node :=
  (Node.build .number span [("value", .int value)]).set? "type" ((like.type? "type").map .type)

/-- Whether an identifier is bound to a constant. -/
def namesConstant (n : Node) : Bool :=
  (n.node? "binding").any fun b => b.str? "kind" == some BindNames.BindingKind.constant.name

namespace EvaluateConstants

/-- The value of a name that is bound to a constant. -/
def constantValue (scopes : Scopes) (n : Node) : Except Error Int := do
  let name ← n.textOf "name"
  if !namesConstant n then throw ((ConstantProblem.notAConstantName name).atSpan n.span)
  match (scopes.constant name).bind (·.int? "value") with
  | some value => return value
  | none => throw ((ConstantProblem.usedBeforeDefinition name).atSpan n.span)

/-- The value of an expression at most `fuel` nodes deep. -/
def evaluateWithin (scopes : Scopes) : Nat → Node → Except Error Int
  | 0, _ => .error InternalProblem.outOfFuel.error
  | fuel + 1, n =>
    match n.tag with
    | .number =>
      match n.int? "value" with
      | some value => .ok value
      | none => .error InternalProblem.numberValue.error
    | .binop => do
      let lhs ← evaluateWithin scopes fuel (← n.child "lhs")
      let rhs ← evaluateWithin scopes fuel (← n.child "rhs")
      applyOperator (← n.textOf "op") lhs rhs n.span
    | .neg => do
      let operand ← evaluateWithin scopes fuel (← n.child "operand")
      applyNegation operand n.span
    | .paren => do evaluateWithin scopes fuel (← n.child "expr")
    | .ident => constantValue scopes n
    | _ => .error (ConstantProblem.notAConstant.atSpan n.span)

/-- The value of an expression. -/
def evaluate (scopes : Scopes) (n : Node) : Except Error Int := evaluateWithin scopes n.size n

/-- Records the value of a constant and removes its item. -/
def exitConstant (n : Node) : Walk (Scoped Unit) Verdict := do
  let name ← n.textOf "name"
  let expr ← n.child "value"
  let state ← get
  let value ← evaluate state.scopes expr
  let type ← n.declaredType
  if !type.fits value then throw ((ConstantProblem.range value type).atSpan expr.span)
  let folded := Node.build .number expr.span [("value", .int value), ("type", .type type)]
  set { state with scopes := state.scopes.define name folded }
  return .remove

/-- The arguments of an intrinsic as numbers. -/
def evaluateArguments (scopes : Scopes) (args : List Node) : Except Error (List Node) :=
  args.mapM fun arg => do return numberLike (← evaluate scopes arg) arg arg.span

/-- Puts the value of an intrinsic in place of its call. -/
def exitCall (n : Node) : Walk (Scoped Unit) Verdict := do
  let target ← n.child "target"
  if target.tag ≠ .intrinsic then return .keep
  match target.unit? "unit" with
  | none => throw InternalProblem.intrinsicUnit.error
  | some u =>
    let name ← target.textOf "member"
    match u.member? name with
    | none => throw (InternalProblem.noMember u.name name).error
    | some member =>
      let args ← evaluateArguments (← get).scopes (n.elementsOf "args")
      return .replace (← member.evaluate args n.span)

/-- What happens at the nodes. -/
def hooks : Hooks (Scoped Unit) where
  exit n :=
    match n.tag with
    | .constant => exitConstant n
    | .call => exitCall n
    | _ => pure .keep

/-- The pass that computes constants. -/
def pass : Pass where
  info := ⟨"evaluate_constants", ["constant_value"], ["binding", "intrinsic", "scope"],
    ["constant", "intrinsic"]⟩
  run _ tree := Pass.walkScoped "evaluate_constants" hooks () tree

end EvaluateConstants

namespace ResolveConstants

/-- Puts the value of a constant in place of its name. -/
def exitIdent (n : Node) : Walk (Scoped Unit) Verdict := do
  if !namesConstant n then return .keep
  let name ← n.textOf "name"
  match (← get).scopes.constant name with
  | some value => return .replace (value.withSpan n.span)
  | none => throw ((InternalProblem.neverEvaluated name).atSpan n.span)

/-- What happens at the nodes. -/
def hooks : Hooks (Scoped Unit) where
  exit n := if n.tag = .ident then exitIdent n else pure .keep

/-- The pass that puts values in place of constants. -/
def pass : Pass where
  info := ⟨"resolve_constants", ["number"], ["constant_value", "scope"], []⟩
  run _ tree := Pass.walkScoped "resolve_constants" hooks () tree

end ResolveConstants

end Lode
