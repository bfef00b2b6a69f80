/-
# Names

Every declaration gets a binding with a symbol that no other declaration has, and every identifier
the binding it refers to.  The declarations of the unit are bound when the unit is entered, so they
may be used before they are written.  Parameters are bound when their function is entered, and a
local when its `let` is left, which keeps it out of its own initial value.
-/
import Lode.Pass.Basic
import Lode.Text.Number
import Lode.Tree.Sequence

namespace Lode.BindNames

/-! ## 1. Bindings -/

/-- What a name is bound to. -/
inductive BindingKind where
  | function | constant | global | param | localVar
deriving DecidableEq, Repr

/-- The name of a kind of binding. -/
def BindingKind.name : BindingKind → String
  | function => "fun"
  | constant => "constant"
  | global => "global"
  | param => "param"
  | localVar => "local"

/-- Everything known about a declaration. -/
structure Declaration where
  name : String
  symbol : String
  kind : BindingKind
  type : Ty
  mutable : Bool
  storage : Option Section

/-- The binding of a declaration, at the place of a node. -/
def Declaration.node (d : Declaration) (at_ : Node) : Node :=
  (Node.build .binding at_.span [("name", .str d.name), ("symbol", .str d.symbol),
    ("kind", .str d.kind.name), ("type", .type d.type), ("mutable", .bool d.mutable)]).set? "section"
    (d.storage.map fun s => .str s.name)

/-- The section of a declaration: `stash` asks for the zero page. -/
def sectionOf (n : Node) (default : Section) : Section :=
  if n.str? "storage" == some "stash" then .zp else default

/-- Order of numbered texts: by number, then by text. -/
def numberedLe (a b : Nat × String) : Bool := a.1 < b.1 || (a.1 == b.1 && a.2 ≤ b.2)

/-- The symbols of a function's parameters, in the order of their declaration. -/
def paramSymbols (binding : Node) : List String :=
  let entries := ((binding.table? "params").getD .nil).toList.filterMap fun (index, value) =>
    match readUnsigned? 10 0x10000000000000000 index.toList, value with
    | some n, .str symbol => some (n, symbol)
    | _, _ => none
  (entries.mergeSort numberedLe).map (·.2)

/-! ## 2. The state -/

/-- What the walk remembers. -/
structure Binder where
  unit : String
  /-- The symbols of the functions around, the innermost first. -/
  functions : List String
  /-- The symbols in use. -/
  symbols : List String

/-- A walk that binds names. -/
abbrev BindWalk := Walk (Scoped Binder)

/-- The first of `base`, `base_1`, `base_2`, … that is not in use, after `tried` of them. -/
def freshFrom (used : List String) (base : String) : Nat → Nat → String
  | 0, _ => base
  | fuel + 1, tried =>
    let candidate := if tried = 0 then base else s!"{base}_{tried}"
    if used.contains candidate then freshFrom used base fuel (tried + 1) else candidate

/-- A symbol that is not in use.  One more candidate than there are symbols is enough. -/
def freshSymbol (used : List String) (base : String) : String :=
  freshFrom used base (used.length + 1) 0

/-- Marks a symbol as used. -/
def useSymbol (symbol : String) : BindWalk Unit :=
  modify fun s => { s with own := { s.own with symbols := symbol :: s.own.symbols } }

/-- Takes a symbol that is not in use. -/
def takeSymbol (base : String) : BindWalk String := do
  let symbol := freshSymbol (← get).own.symbols base
  useSymbol symbol
  return symbol

/-- The symbol of a declaration of the unit. -/
def takeUnitSymbol (name : String) : BindWalk String := do
  takeSymbol ((← get).own.unit ++ "." ++ name)

/-- Binds a name in the innermost scope; a second binding there is an error at the given node. -/
def declare (name : String) (binding : Node) (n : Node) : BindWalk Unit := do
  let state ← get
  match state.scopes.bind? name (.node binding) with
  | some scopes => set { state with scopes := scopes }
  | none => throw ⟨.duplicateDefinition name, some n.span⟩

/-! ## 3. Declarations of the unit -/

/-- The parameters of a function with their symbols, and their types. -/
def nameParams (symbol : String) : List Node → Except Error (List (Node × String × Ty))
  | [] => .ok []
  | param :: params => do
    let paramSymbol := symbol ++ "." ++ (← param.textOf "name")
    let type ← param.declaredType
    let rest ← nameParams symbol params
    return (param.set "symbol" (.str paramSymbol), paramSymbol, type) :: rest

/-- Binds a function. -/
def bindFunction (n : Node) : BindWalk Node := do
  let name ← n.textOf "name"
  let symbol ← takeUnitSymbol name
  let params ← nameParams symbol (n.elementsOf "params")
  let result := ((n.node? "ret").bind (·.type? "info")).getD .void
  let declaration : Declaration :=
    ⟨name, symbol, .function, .function result (params.map fun (_, _, type) => type), false,
      some .text⟩
  let table := Fields.ofList (params.zipIdx.map fun ((_, paramSymbol, _), index) =>
    (toString index, .str paramSymbol))
  declare name ((declaration.node n).set "params" (.table table)) n
  return (n.set "symbol" (.str symbol)).set? "params"
    ((Node.sequence .params (params.map (·.1)) none).map .node)

/-- Binds a constant. -/
def bindConstant (n : Node) : BindWalk Node := do
  let name ← n.textOf "name"
  let symbol ← takeUnitSymbol name
  let declaration : Declaration := ⟨name, symbol, .constant, ← n.declaredType, false, none⟩
  declare name (declaration.node n) n
  return n.set "symbol" (.str symbol)

/-- Binds a variable, global or local, under a symbol. -/
def bindVariable (n : Node) (name symbol : String) (kind : BindingKind) (storage : Section) :
    BindWalk Node := do
  let declaration : Declaration :=
    ⟨name, symbol, kind, ← n.declaredType, n.has "storage", some storage⟩
  declare name (declaration.node n) n
  return (n.set "symbol" (.str symbol)).set "section" (.str storage.name)

/-- Binds a variable of the unit. -/
def bindGlobal (n : Node) : BindWalk Node := do
  let name ← n.textOf "name"
  let symbol ← takeUnitSymbol name
  bindVariable n name symbol .global (sectionOf n .data)

/-- Binds an item of the unit. -/
def bindItem (n : Node) : BindWalk Node :=
  match n.tag with
  | .function => bindFunction n
  | .constant => bindConstant n
  | .letDecl => bindGlobal n
  | _ => pure n

/-- Binds the items of a unit before anything in it is visited. -/
def enterUnit (n : Node) : BindWalk Verdict := do
  match n.node? "body" with
  | none => return .keep
  | some body =>
    let items ← body.elements.mapM bindItem
    return .replace (n.set? "body" ((Node.sequence .items items none).map .node))

/-! ## 4. Functions and what is in them -/

/-- Binds a parameter. -/
def bindParam (param : Node) : BindWalk Unit := do
  let name ← param.textOf "name"
  let symbol ← param.textOf "symbol"
  let declaration : Declaration := ⟨name, symbol, .param, ← param.declaredType, true, some .bss⟩
  declare name (declaration.node param) param
  useSymbol symbol

/-- Binds the parameters of a function. -/
def enterFunction (n : Node) : BindWalk Verdict := do
  match n.str? "symbol" with
  | none => throw InternalProblem.unboundFunction.error
  | some symbol =>
    (n.elementsOf "params").forM bindParam
    modify fun s => { s with own := { s.own with functions := symbol :: s.own.functions } }
    return .keep

/-- Leaves a function. -/
def exitFunction (_ : Node) : BindWalk Verdict := do
  modify fun s => { s with own := { s.own with functions := s.own.functions.tail } }
  return .keep

/-- Binds a local.  The variables of the unit were bound with it. -/
def exitLet (n : Node) : BindWalk Verdict := do
  match (← get).own.functions with
  | [] => return .keep
  | function :: _ =>
    let name ← n.textOf "name"
    let symbol ← takeSymbol (function ++ "." ++ name)
    return .replace (← bindVariable n name symbol .localVar (sectionOf n .bss))

/-- Gives an identifier its binding. -/
def exitIdent (n : Node) : BindWalk Verdict := do
  let name ← n.textOf "name"
  match (← get).scopes.binding name with
  | some binding =>
    return if binding.tag = .binding then .replace (n.set "binding" (.node binding)) else .keep
  | none => return .keep

/-- What happens at the nodes. -/
def hooks : Hooks (Scoped Binder) where
  enter n :=
    match n.tag with
    | .unit => enterUnit n
    | .function => enterFunction n
    | _ => pure .keep
  exit n :=
    match n.tag with
    | .function => exitFunction n
    | .letDecl => exitLet n
    | .ident => exitIdent n
    | _ => pure .keep

/-- The pass that binds names. -/
def pass : Pass where
  info := ⟨"bind_names", ["binding"], ["type_info", "scope"], []⟩
  run unit tree := Pass.walkScoped "bind_names" hooks ⟨unit, [], []⟩ tree

end Lode.BindNames
