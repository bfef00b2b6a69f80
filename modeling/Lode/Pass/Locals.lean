/-
# Allocation

Every variable gets its symbol.  Those of the unit become data symbols with their initial bytes.
Parameters and locals become entries in a table of their function, and the `let` of a local becomes
an assignment of its initial value.  Scopes have done their work and are spliced back into the list
of statements.
-/
import Lode.Pass.Storage
import Lode.Tree.Sequence
import Lode.Word

namespace Lode

/-- The bytes of a value, cut to the width of a type. -/
def initialBytes (value : Int) (type : Ty) : List UInt8 := littleEndian (min type.width 8) value

/-- A data symbol at the place of a node. -/
def dataSymbol (symbol : String) (section_ : Section) (bytes : List UInt8) (type : Ty) (n : Node) :
    Node :=
  .build .dataSymbol n.span [("name", .str symbol), ("section", .str section_.name),
    ("bytes", .bytes bytes), ("type", .type type)]

namespace AllocateLocals

/-- The walk remembers the locals of the functions around, the innermost first. -/
abbrev LocalWalk := Walk (List Fields)

/-- The section written in a declaration. -/
def declaredSection (n : Node) : Except Error Section :=
  match (n.str? "section").bind Section.ofName? with
  | some s => .ok s
  | none => .error (InternalProblem.noSection.atSpan n.span)

/-- A data symbol of zeros. -/
def zeroSymbol (symbol : String) (section_ : Section) (type : Ty) (n : Node) : Value :=
  .node (dataSymbol symbol section_ (List.replicate type.width 0) type n)

/-- The symbols of parameters. -/
def paramTable : List Node → Fields → Except Error Fields
  | [], table => .ok table
  | param :: params, table => do
    let symbol ← param.textOf "symbol"
    let type ← param.declaredType
    paramTable params (table.set symbol (zeroSymbol symbol .bss type param))

/-- Enters a function with the symbols of its parameters. -/
def enterFunction (n : Node) : LocalWalk Verdict := do
  let table ← paramTable (n.elementsOf "params") .nil
  modify (table :: ·)
  return .keep

/-- Leaves a function and gives it the table of its locals. -/
def exitFunction (n : Node) : LocalWalk Verdict := do
  let tables ← get
  set tables.tail
  return .replace ((n.erase "params").set "locals" (.table (tables.headD .nil)))

/-- The value of a literal. -/
def literalValue? (n : Node) : Option Int := if n.tag = .number then n.int? "value" else none

/-- Turns a declaration into a data symbol or an assignment. -/
def exitLet (n : Node) : LocalWalk Verdict := do
  let symbol ← n.textOf "symbol"
  let section_ ← declaredSection n
  let type ← n.declaredType
  let value ← n.child "value"
  match ← get with
  | [] =>
    match literalValue? value with
    | none => throw (ConstantProblem.dynamicInitializer.atSpan value.span)
    | some initial =>
      return .replace (dataSymbol symbol section_ (initialBytes initial type) type n)
  | table :: outer =>
    set (table.set symbol (zeroSymbol symbol section_ type n) :: outer)
    let storage ← symbolStorage symbol (section_ == .zp) n
    return .replace (.build .set n.span
      [("lvalue", .node storage), ("rvalue", .node value), ("type", .type type)])

/-- One list of statements after another. -/
def append (first : Option Node) (second : Node) : Node :=
  let front := (first.map Node.elements).getD []
  (Node.sequence .stmts (front ++ second.elements) none).getD second

/-- Puts the declaration and the body of a scope in its place. -/
def exitStatements (n : Node) : Verdict :=
  match n.node? "stmt" with
  | some scope =>
    if scope.tag = .scope then
      let body := scope.node? "body"
      let rest := match n.node? "next" with
        | some next => some (append body next)
        | none => body
      .ofOption (Node.sequence .stmts (scope.node? "decl").toList rest)
    else .keep
  | none => .keep

/-- What happens at the nodes. -/
def hooks : Hooks (List Fields) where
  enter n := if n.tag = .function then enterFunction n else pure .keep
  exit n :=
    match n.tag with
    | .function => exitFunction n
    | .letDecl => exitLet n
    | .stmts => pure (exitStatements n)
    | _ => pure .keep

/-- The pass that allocates variables. -/
def pass : Pass where
  info := ⟨"allocate_locals", ["data_symbol", "set", "locals"],
    ["absolute_storage", "scope", "let"], ["scope", "let"]⟩
  run _ tree := Pass.walk "allocate_locals" hooks [] tree

end AllocateLocals

end Lode
