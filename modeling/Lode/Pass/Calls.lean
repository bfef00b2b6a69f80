/-
# Calls

A call at the level of statements becomes assignments of the arguments to the parameters of the
function, followed by a jump that returns.  The result of a function travels in the accumulator and
is written `returned`.  Arguments may be calls themselves and are treated in the same way, one after
the other; a call anywhere else is an error.
-/
import Lode.Pass.Names
import Lode.Tree.Sequence

namespace Lode

/-- An assignment with a type, at the place of a node. -/
def assignment (lvalue rvalue : Node) (type : Ty) (n : Node) : Node :=
  .build .set n.span [("lvalue", .node lvalue), ("rvalue", .node rvalue), ("type", .type type)]

/-- Other statements in place of the one in a cell. -/
def spliceStatements (cell : Node) (stmts : List Node) : Verdict :=
  .ofOption (Node.sequence .stmts stmts (cell.node? "next"))

namespace LowerCalls

/-- The result of the last call, with the type of that call. -/
def returned (call : Node) : Except Error Node := do
  return .build .returned call.span [("type", .type (← call.exprType))]

/-- The parameters of a called function: their symbols with their types. -/
def parametersOf (call callee : Node) : Except Error (List (String × Ty)) := do
  match ← callee.exprType with
  | .function _ types => return (BindNames.paramSymbols callee).zip types
  | _ => throw (InternalProblem.calleeType.atSpan call.span)

/-- The memory of a parameter, at the place of the argument. -/
def parameterStorage (symbol : String) (type : Ty) (arg : Node) : Node :=
  .build .absoluteStorage arg.span
    [("symbol", .str symbol), ("zero_page", .bool false), ("type", .type type)]

/-- The jump to a function. -/
def jumpTo (call callee : Node) : Except Error Node := do
  return .build .jump call.span
    [("symbol", .str (← callee.textOf "symbol")), ("link", .bool true)]

/-- The assignments of arguments to parameters.  `lower` gives the statements of an argument that is
a call. -/
def passArguments (lower : Node → Except Error (List Node)) :
    List (Node × String × Ty) → Except Error (List Node)
  | [] => .ok []
  | (arg, symbol, type) :: rest => do
    let storage := parameterStorage symbol type arg
    let here ←
      if arg.tag = .call then do
        let before ← lower arg
        let result ← returned arg
        pure (before ++ [assignment storage result type arg])
      else pure [assignment storage arg type arg]
    let others ← passArguments lower rest
    return here ++ others

/-- The statements of a call, whose arguments are calls nested at most `fuel` deep. -/
def lowerCallWithin : Nat → Node → Except Error (List Node)
  | 0, _ => .error InternalProblem.outOfFuel.error
  | fuel + 1, call => do
    let callee ← call.child "callee"
    let params ← parametersOf call callee
    let stores ← passArguments (lowerCallWithin fuel) ((call.elementsOf "args").zip params)
    return stores ++ [← jumpTo call callee]

/-- The statements of a call. -/
def lowerCall (call : Node) : Except Error (List Node) := lowerCallWithin call.size call

/-- The call under a name. -/
def callUnder? (n : Node) (name : String) : Option Node :=
  (n.node? name).filter fun c => decide (c.tag = .call)

/-- The statements in place of one, if it is or holds a call. -/
def expand (stmt : Node) : Except Error (Option (List Node)) :=
  match stmt.tag with
  | .call => (lowerCall stmt).map some
  | .set =>
    match callUnder? stmt "rvalue" with
    | none => .ok none
    | some call => do
      let before ← lowerCall call
      let lvalue ← stmt.child "lvalue"
      let type ← stmt.exprType
      return some (before ++ [assignment lvalue (← returned call) type stmt])
  | .ret =>
    match callUnder? stmt "value" with
    | none => .ok none
    | some call => do
      let before ← lowerCall call
      return some (before ++ [stmt.set "value" (.node (← returned call))])
  | _ => .ok none

/-- Replaces a statement that is or holds a call. -/
def enterStatements (n : Node) : Except Error Verdict :=
  match n.node? "stmt" with
  | none => .ok .keep
  | some stmt => do
    match ← expand stmt with
    | none => return .keep
    | some stmts => return spliceStatements n stmts

/-- What happens at the nodes. -/
def hooks : Hooks Unit where
  enter n := if n.tag = .stmts then enterStatements n else pure .keep
  exit n :=
    if n.tag = .call then throw (AssemblyProblem.nestedCall.atSpan n.span) else pure .keep

/-- The pass that lowers calls. -/
def pass : Pass where
  info := ⟨"lower_calls", ["jump", "set"], ["type", "data_symbol", "return"], ["call"]⟩
  run _ tree := Pass.walk "lower_calls" hooks () tree

end LowerCalls

end Lode
