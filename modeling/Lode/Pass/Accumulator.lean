/-
# The accumulator

Expressions are computed in the accumulator: the left operand is loaded, and the right one, which
has to be a literal or a memory cell, is added or subtracted.  Assignments then store the
accumulator, and returns leave it to the caller.
-/
import Lode.Pass.Calls
import Lode.Word

namespace Lode

/-! ## 1. Expressions -/

/-- Whether an instruction can have a node as its operand. -/
def isOperand (n : Node) : Bool :=
  match n.tag with
  | .immediateStorage | .absoluteStorage | .number => true
  | _ => false

/-- Whether a literal of a width, signed or not, holds a value. -/
def literalFits (value : Int) (width : Nat) : Bool :=
  if width = 0 then false
  else if width ≤ 7 then -(powerOfTwo (8 * width - 1) : Int) ≤ value && value < powerOfTwo (8 * width)
  else true

/-- Fails if an operand is not as wide as the operation. -/
def checkWidth (n : Node) (width : Nat) : Except Error Unit :=
  if n.tag = .immediateStorage || n.tag = .number then
    match n.int? "value" with
    | some value =>
      if literalFits value width then .ok ()
      else .error ((AssemblyProblem.literalWidth value width).atSpan n.span)
    | none => .ok ()
  else
    match n.type? "type" with
    | some type =>
      if type.width = width then .ok ()
      else .error ((AssemblyProblem.storageWidth type width).atSpan n.span)
    | none => .ok ()

/-- An instruction with an operand. -/
def instruction (tag : Tag) (operand : Node) (width : Nat) (n : Node) : Node :=
  .build tag n.span [("operand", .node operand), ("width", .int width)]

/-- The instructions that leave the value of an expression in the accumulator, for expressions at
most `fuel` nodes deep. -/
def loadWithin : Nat → Node → Nat → Except Error (List Node)
  | 0, _, _ => .error InternalProblem.outOfFuel.error
  | fuel + 1, n, width => do
    checkWidth n width
    if isOperand n then return [instruction .load n width n]
    match n.tag with
    | .returned => return []
    | .binop =>
      let op ← n.textOf "op"
      if op != "+" && op != "-" then throw ((AssemblyProblem.noInstruction op).atSpan n.span)
      let rhs ← n.child "rhs"
      if !isOperand rhs then throw (AssemblyProblem.compoundOperand.atSpan rhs.span)
      checkWidth rhs width
      let front ← loadWithin fuel (← n.child "lhs") width
      return front ++ [(instruction .arith rhs width n).set "op" (.str op)]
    | tag => throw ((AssemblyProblem.notComputable tag).atSpan n.span)

/-- The instructions that leave the value of an expression in the accumulator. -/
def loadExpression (n : Node) (width : Nat) : Except Error (List Node) := loadWithin n.size n width

/-! ## 2. Assignments -/

namespace LowerAssignment

/-- The instructions of an assignment. -/
def lowerSet (stmt : Node) : Except Error (List Node) := do
  let lvalue ← stmt.child "lvalue"
  if lvalue.tag ≠ .absoluteStorage then throw (AssemblyProblem.notAssignable.atSpan lvalue.span)
  let width := (← stmt.exprType).width
  let target ← lvalue.exprType
  if target.width ≠ width then
    throw ((InternalProblem.assignmentWidth width target).atSpan lvalue.span)
  let front ← loadExpression (← stmt.child "rvalue") width
  return front ++ [instruction .store lvalue width stmt]

/-- Replaces an assignment by its instructions. -/
def exitStatements (n : Node) : Except Error Verdict :=
  match n.node? "stmt" with
  | some stmt =>
    if stmt.tag = .set then (lowerSet stmt).map (spliceStatements n) else .ok .keep
  | none => .ok .keep

/-- What happens at the nodes. -/
def hooks : Hooks Unit where
  exit n := if n.tag = .stmts then exitStatements n else pure .keep

/-- The pass that lowers assignments. -/
def pass : Pass where
  info := ⟨"lower_assignment", ["load", "store"], ["set", "immediate_storage"], ["set"]⟩
  run _ tree := Pass.walk "lower_assignment" hooks () tree

end LowerAssignment

/-! ## 3. Returns -/

namespace LowerFunctions

/-- The instruction that returns, at the place of a node. -/
def returnInstruction (n : Node) : Node := .build .rts n.span []

/-- The instructions of a return. -/
def lowerReturn (stmt : Node) : Except Error (List Node) := do
  let front ← match stmt.node? "value" with
    | some value => do loadExpression value (← stmt.exprType).width
    | none => pure []
  return front ++ [returnInstruction stmt]

/-- Replaces a return by its instructions. -/
def exitStatements (n : Node) : Except Error Verdict :=
  match n.node? "stmt" with
  | some stmt =>
    if stmt.tag = .ret then (lowerReturn stmt).map (spliceStatements n) else .ok .keep
  | none => .ok .keep

/-- Adds a return where a function would run off its end. -/
def exitFunction (n : Node) : Verdict :=
  let body := n.elementsOf "body"
  if body.getLast?.any (fun last => decide (last.tag = .rts)) then .keep
  else .replace (n.set? "body"
    ((Node.sequence .stmts (body ++ [returnInstruction n]) none).map .node))

/-- What happens at the nodes. -/
def hooks : Hooks Unit where
  exit n :=
    match n.tag with
    | .stmts => exitStatements n
    | .function => pure (exitFunction n)
    | _ => pure .keep

/-- The pass that lowers returns. -/
def pass : Pass where
  info := ⟨"lower_functions", ["rts", "load"], ["locals", "store"], ["return"]⟩
  run _ tree := Pass.walk "lower_functions" hooks () tree

end LowerFunctions

end Lode
