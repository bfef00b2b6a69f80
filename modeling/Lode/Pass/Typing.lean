/-
# Typing

Every expression gets a type, and assignments, calls, dereferences and returns are checked.  A
literal fits wherever its value does, whatever its own type.
-/
import Lode.Pass.Basic
import Lode.Tree.Sequence

namespace Lode.PropagateTypes

/-- The walk remembers the result types of the functions around, the innermost first. -/
abbrev TypeWalk := Walk (Scoped (List Ty))

/-! ## 1. Assignability -/

/-- Whether the value of an expression may be stored where a type is expected. -/
def assignable (target : Ty) (n : Node) : Except Error Bool :=
  match n.tag, n.int? "value" with
  | .number, some value =>
    if target.fits value then .ok true else n.exprType.map target.canAssignFrom
  | _, _ => n.exprType.map target.canAssignFrom

/-- Fails unless the value of an expression may be stored where a type is expected. -/
def checkAssignable (target : Ty) (n : Node) : Except Error Unit := do
  if !(← assignable target n) then
    throw ((TypeProblem.mismatch target (← n.exprType)).atSpan n.span)

/-- Fails unless every argument may be stored in its parameter. -/
def checkArguments : List Node → List Ty → Except Error Unit
  | arg :: args, param :: params => do
    checkAssignable param arg
    checkArguments args params
  | _, _ => .ok ()

/-! ## 2. Functions -/

/-- The result type of a function. -/
def resultType (n : Node) : Except Error Ty :=
  match n.node? "ret" with
  | none => .ok .void
  | some ret =>
    match ret.type? "info" with
    | some type => .ok type
    | none => .error InternalProblem.resultType.error

/-- The type of a function. -/
def functionType (n : Node) : Except Error Ty := do
  let result ← resultType n
  let params ← (n.elementsOf "params").mapM Node.declaredType
  return .function result params

/-- Enters a function. -/
def enterFunction (n : Node) : TypeWalk Verdict := do
  match ← functionType n with
  | .function result _ => modify fun s => { s with own := result :: s.own }
  | _ => pure ()
  return .keep

/-- Leaves a function and gives it its type. -/
def exitFunction (n : Node) : TypeWalk Verdict := do
  modify fun s => { s with own := s.own.tail }
  return .replace (n.set "type" (.type (← functionType n)))

/-! ## 3. Expressions -/

/-- The node with a type. -/
def typed (n : Node) (type : Ty) : Verdict := .replace (n.set "type" (.type type))

/-- A literal without a type gets the smallest one. -/
def exitNumber (n : Node) : Except Error Verdict :=
  .ok (if n.has "type" then .keep else typed n (.ofLiteral ((n.int? "value").getD 0)))

/-- A string has a type that cannot be stored. -/
def exitString (n : Node) : Except Error Verdict := .ok (typed n (.phantom "str"))

/-- A name has the type of its binding. -/
def exitIdent (n : Node) : Except Error Verdict :=
  match n.node? "binding" with
  | none => .error ⟨.unknownName ((n.str? "name").getD ""), some n.span⟩
  | some binding => binding.exprType.map (typed n)

/-- The type behind an address; a literal may be used as the address of a byte. -/
def derefType (target : Node) : Except Error Ty := do
  match ← target.exprType with
  | .ref inner => return inner
  | .int width signed =>
    if target.tag = .number then
      let address := (target.int? "value").getD (-1)
      if 0 ≤ address ∧ address ≤ 0xffff then return .u8
      else throw ((TypeProblem.notAnAddress address).atSpan target.span)
    else throw ((TypeProblem.notAReference (.int width signed)).atSpan target.span)
  | other => throw ((TypeProblem.notAReference other).atSpan target.span)

/-- A dereference. -/
def exitDeref (n : Node) : Except Error Verdict := do
  let target ← n.child "target"
  return typed n (← derefType target)

/-- Fails unless a type is an integer type. -/
def checkArithmetic (type : Ty) (n : Node) : Except Error Unit :=
  if type.isInt then .ok () else .error ((TypeProblem.arithmetic type).atSpan n.span)

/-- A binary operation has the type of the side that takes the other one's value. -/
def exitBinop (n : Node) : Except Error Verdict := do
  let lhs ← n.child "lhs"
  let rhs ← n.child "rhs"
  let left ← lhs.exprType
  let right ← rhs.exprType
  checkArithmetic left lhs
  checkArithmetic right rhs
  if ← assignable left rhs then return typed n left
  else if ← assignable right lhs then return typed n right
  else throw ((TypeProblem.incompatible left right).atSpan n.span)

/-- A negation has the type of its operand. -/
def exitNeg (n : Node) : Except Error Verdict := do
  let operand ← n.child "operand"
  let type ← operand.exprType
  if !type.isInt then throw ((TypeProblem.negation type).atSpan operand.span)
  return typed n type

/-- The binding of a called function. -/
def calleeOf (target : Node) : Except Error Node :=
  match target.node? "binding" with
  | some binding =>
    if binding.str? "kind" == some "fun" then .ok binding
    else .error (TypeProblem.notAFunction.atSpan target.span)
  | none => .error (TypeProblem.notAFunction.atSpan target.span)

/-- A call has the result type of the function. -/
def exitCall (n : Node) : Except Error Verdict := do
  let target ← n.child "target"
  let callee ← calleeOf target
  match ← callee.exprType with
  | .function result params =>
    let args := n.elementsOf "args"
    if args.length ≠ params.length then
      throw ((TypeProblem.argumentCount ((target.str? "name").getD "") params.length
        args.length).atSpan n.span)
    checkArguments args params
    return .replace ((n.set "type" (.type result)).set "callee" (.node callee))
  | _ => throw InternalProblem.functionType.error

/-- An intrinsic that was not called with constants. -/
def exitIntrinsic (n : Node) : Except Error Verdict :=
  .error ((TypeProblem.intrinsicAsValue ((n.str? "member").getD "")).atSpan n.span)

/-- A member of something that is no unit. -/
def exitMember (n : Node) : Except Error Verdict := .error (TypeProblem.noMembers.atSpan n.span)

/-! ## 4. Statements -/

/-- Fails if an assignment goes to a variable that must not change. -/
def checkMutable (lvalue : Node) : Except Error Unit :=
  match lvalue.node? "binding" with
  | some binding =>
    if binding.bool? "mutable" == some true then .ok ()
    else .error ((TypeProblem.immutable ((lvalue.str? "name").getD "")).atSpan lvalue.span)
  | none => .ok ()

/-- An assignment has the type of its left side. -/
def exitSet (n : Node) : Except Error Verdict := do
  let lvalue ← n.child "lvalue"
  let rvalue ← n.child "rvalue"
  checkMutable lvalue
  let target ← lvalue.exprType
  checkAssignable target rvalue
  return typed n target

/-- A declaration has the type that is written in it. -/
def exitLet (n : Node) : Except Error Verdict := do
  let declared ← n.declaredType
  checkAssignable declared (← n.child "value")
  return typed n declared

/-- Fails unless what is returned is what the function returns. -/
def checkReturn (n : Node) (expected : Ty) : Except Error Unit :=
  match n.node? "value", expected with
  | none, .void => .ok ()
  | none, _ => .error ((TypeProblem.missingReturn expected).atSpan n.span)
  | some value, .void => .error (TypeProblem.unexpectedReturn.atSpan value.span)
  | some value, _ => checkAssignable expected value

/-- A return has the result type of the function around it. -/
def exitReturn (n : Node) : TypeWalk Verdict := do
  let expected := (← get).own.headD .void
  checkReturn n expected
  return typed n expected

/-- What happens at the nodes. -/
def hooks : Hooks (Scoped (List Ty)) where
  enter n := if n.tag = .function then enterFunction n else pure .keep
  exit n :=
    match n.tag with
    | .function => exitFunction n
    | .number => exitNumber n
    | .string => exitString n
    | .ident => exitIdent n
    | .deref => exitDeref n
    | .binop => exitBinop n
    | .neg => exitNeg n
    | .call => exitCall n
    | .set => exitSet n
    | .letDecl => exitLet n
    | .ret => exitReturn n
    | .intrinsic => exitIntrinsic n
    | .member => exitMember n
    | _ => pure .keep

/-- The pass that computes and checks types. -/
def pass : Pass where
  info := ⟨"propagate_types", ["type"], ["binding", "number", "scope", "deref"], []⟩
  run _ tree := Pass.walkScoped "propagate_types" hooks [] tree

end Lode.PropagateTypes
