/-
# Programs as data

The trees of the compiler are nodes with named attributes, and nothing in their type says which attributes a
node has. The types of this file do: an expression, a statement or an item is built by constructors, with a
place for everything the passes add on the way (types, bindings, symbols, sections) and with the forms that
the later passes introduce (memory cells, instructions, code).  The tables of scopes and functions, whose
values could be anything, are lists of what passes put there.

`node` turns each of them into the tree that stands for it.  Statements about passes are made about
programs, and are carried over to trees by `node`.  No tree is turned back: that a text has the tree of a
program is proved of the parser once, and that a pass leaves the tree of a program is proved pass by pass,
so it is never asked of a tree what it could be.

Lists of things are chains of cells, and every cell has a place in the text of its own.  Whatever is kept of
a list, its places are kept with it, so the list of a program is a list of pairs.

One type of expressions serves for all stages of the compiler.  What may occur at a stage, such as calls or
names without bindings, is a predicate on programs and not another type; most passes change one form and
leave the others, and so the predicates are kept by most of them for free.
-/
import Lode.Pass.Standard
import Lode.Proofs.Tree.Walk

namespace Lode.Program

open Lode.BindNames (Declaration)

/-! ## 1. Types and bindings -/

/-- A type as it is written, and the type that it denotes. -/
inductive TypeExpr where
  | name (name : String) (span : Span)
  | ref (target : TypeExpr) (span : Span)
  | info (type : Ty) (span : Span)

/-- The tree of a type. -/
def TypeExpr.node : TypeExpr → Node
  | name n span => .mk .typeName (.cons "name" (.str n) .nil) span
  | ref target span => .mk .typeRef (.cons "target" (.node target.node) .nil) span
  | info type span => .mk .typeInfo (.cons "info" (.type type) .nil) span

/-- The type that was read from what is written. -/
def TypeExpr.type? : TypeExpr → Option Ty
  | info type _ => some type
  | _ => none

/-- What an identifier is bound to: a declaration, and for functions the symbols of the
parameters. -/
structure Binding where
  declaration : Declaration
  params : Option (List String)
  span : Span

/-- The symbols of parameters by their numbers. -/
def paramFields (symbols : List String) : Fields :=
  .ofList (symbols.zipIdx.map fun (symbol, index) => (toString index, .str symbol))

/-- The tree of a binding. -/
def Binding.node (b : Binding) : Node :=
  .mk .binding (.cons "kind" (.str b.declaration.kind.name)
    (.cons "mutable" (.bool b.declaration.mutable) (.cons "name" (.str b.declaration.name)
      (.optional "params" (b.params.map fun symbols => .table (paramFields symbols))
        (.optional "section" (b.declaration.storage.map fun s => .str s.name)
          (.cons "symbol" (.str b.declaration.symbol)
            (.cons "type" (.type b.declaration.type) .nil))))))) b.span

/-! ## 2. Tables -/

/-- Named things as attributes, in the order of the list. -/
def row {α : Type} (value : α → Value) : List (String × α) → Fields
  | [] => .nil
  | entry :: rest => .cons entry.1 (value entry.2) (row value rest)

/-- What a name stands for in a scope. -/
inductive Named where
  | unit (u : IntrinsicUnit)
  | binding (b : Binding)

/-- The value of a name. -/
def Named.value : Named → Value
  | unit u => .unit u
  | binding b => .node b.node

/-- The value of a constant, with the type and the place of its item. -/
structure Constant where
  value : Int
  type : Ty
  span : Span

/-- The tree of the value of a constant. -/
def Constant.node (c : Constant) : Node :=
  .mk .number (.cons "type" (.type c.type) (.cons "value" (.int c.value) .nil)) c.span

/-- The names and constants of a scope. -/
structure Frame where
  names : List (String × Named) := []
  constants : List (String × Constant) := []

/-- The tables of a scope. -/
def Frame.raw (frame : Frame) : ScopeFrame :=
  ⟨row Named.value frame.names, row (fun c => .node c.node) frame.constants⟩

/-- A variable with its initial bytes. -/
structure Data where
  symbol : String
  place : Section
  bytes : List UInt8
  type : Ty
  span : Span

/-- The tree of a variable. -/
def Data.node (d : Data) : Node :=
  .mk .dataSymbol (.cons "bytes" (.bytes d.bytes) (.cons "name" (.str d.symbol)
    (.cons "section" (.str d.place.name) (.cons "type" (.type d.type) .nil)))) d.span

/-- The variables of a function by their symbols. -/
abbrev Locals := List (String × Data)

/-- The table of the variables of a function. -/
def Locals.raw (locals : Locals) : Fields := row (fun d => .node d.node) locals

/-! ## 3. Expressions -/

/-- A memory cell: that of a symbol, or the one at an address. -/
inductive Place where
  | symbol (name : String)
  | address (address : Int)
deriving DecidableEq, Repr

mutual

/-- An expression. -/
inductive Expr where
  | number (value : Int) (type : Option Ty) (span : Span)
  | string (value : String) (type : Option Ty) (span : Span)
  | ident (name : String) (binding : Option Binding) (type : Option Ty) (span : Span)
  | member (target : Expr) (name : String) (span : Span)
  | intrinsic (unit : IntrinsicUnit) (member : String) (span : Span)
  | call (target : Expr) (args : Args) (callee : Option Binding) (type : Option Ty) (span : Span)
  | binop (op : String) (lhs rhs : Expr) (type : Option Ty) (span : Span)
  | neg (operand : Expr) (type : Option Ty) (span : Span)
  | deref (target : Expr) (type : Option Ty) (span : Span)
  | paren (inner : Expr) (span : Span)
  | cell (place : Place) (zeroPage : Bool) (type : Ty) (span : Span)
  | immediate (value : Int) (type : Ty) (span : Span)
  | returned (type : Ty) (span : Span)

/-- The arguments of a call. -/
inductive Args where
  | nil
  | cons (arg : Expr) (rest : Args) (span : Span)

end

mutual

/-- The tree of an expression. -/
def Expr.node : Expr → Node
  | .number value type span =>
    .mk .number (.optional "type" (type.map .type) (.cons "value" (.int value) .nil)) span
  | .string value type span =>
    .mk .string (.optional "type" (type.map .type) (.cons "value" (.str value) .nil)) span
  | .ident name binding type span =>
    .mk .ident (.optional "binding" (binding.map fun b => .node b.node)
      (.cons "name" (.str name) (.optional "type" (type.map .type) .nil))) span
  | .member target name span =>
    .mk .member (.cons "name" (.str name) (.cons "target" (.node target.node) .nil)) span
  | .intrinsic unit member span =>
    .mk .intrinsic (.cons "member" (.str member) (.cons "unit" (.unit unit) .nil)) span
  | .call target args callee type span =>
    .mk .call (.optional "args" (args.node?.map .node)
      (.optional "callee" (callee.map fun b => .node b.node)
        (.cons "target" (.node target.node) (.optional "type" (type.map .type) .nil)))) span
  | .binop op lhs rhs type span =>
    .mk .binop (.cons "lhs" (.node lhs.node) (.cons "op" (.str op)
      (.cons "rhs" (.node rhs.node) (.optional "type" (type.map .type) .nil)))) span
  | .neg operand type span =>
    .mk .neg (.cons "operand" (.node operand.node) (.optional "type" (type.map .type) .nil)) span
  | .deref target type span =>
    .mk .deref (.cons "target" (.node target.node) (.optional "type" (type.map .type) .nil)) span
  | .paren inner span => .mk .paren (.cons "expr" (.node inner.node) .nil) span
  | .cell (.symbol name) zeroPage type span =>
    .mk .absoluteStorage (.cons "symbol" (.str name)
      (.cons "type" (.type type) (.cons "zero_page" (.bool zeroPage) .nil))) span
  | .cell (.address address) zeroPage type span =>
    .mk .absoluteStorage (.cons "address" (.int address)
      (.cons "type" (.type type) (.cons "zero_page" (.bool zeroPage) .nil))) span
  | .immediate value type span =>
    .mk .immediateStorage (.cons "type" (.type type) (.cons "value" (.int value) .nil)) span
  | .returned type span => .mk .returned (.cons "type" (.type type) .nil) span

/-- The tree of arguments, if there are any. -/
def Args.node? : Args → Option Node
  | .nil => none
  | .cons arg rest span =>
    some (.mk .args (.cons "arg" (.node arg.node)
      (.optional "next" (rest.node?.map .node) .nil)) span)

end

/-! ## 4. Statements -/

/-- The declaration of a variable. -/
structure Let where
  name : String
  storage : Option String
  ty : TypeExpr
  value : Expr
  symbol : Option String := none
  place : Option Section := none
  type : Option Ty := none
  span : Span

/-- The tree of a declaration. -/
def Let.node (d : Let) : Node :=
  .mk .letDecl (.cons "name" (.str d.name)
    (.optional "section" (d.place.map fun s => .str s.name)
      (.optional "storage" (d.storage.map .str)
        (.optional "symbol" (d.symbol.map .str)
          (.cons "ty" (.node d.ty.node)
            (.optional "type" (d.type.map .type) (.cons "value" (.node d.value.node) .nil))))))) d.span

/-- The table of a scope as an attribute: a table without entries is left out. -/
def tableValue (table : Fields) : Option Value := if table.isEmpty then none else some (.table table)

mutual

/-- A statement, or what became of one. -/
inductive Stmt where
  | decl (d : Let)
  | set (lvalue rvalue : Expr) (type : Option Ty) (span : Span)
  | ret (value : Option Expr) (type : Option Ty) (span : Span)
  /-- A call, or what became of it. -/
  | expr (e : Expr)
  /-- A declaration with the statements it reaches. -/
  | scope (decl : Stmt) (body : Stmts) (frame : Frame) (span : Span)
  | data (d : Data)
  | load (operand : Expr) (width : Nat) (span : Span)
  | store (operand : Expr) (width : Nat) (span : Span)
  | arith (op : String) (operand : Expr) (width : Nat) (span : Span)
  | jump (symbol : String) (span : Span)
  | rts (span : Span)
  | code (code : MachineCode) (span : Span)

/-- Statements one after the other. -/
inductive Stmts where
  | nil
  | cons (stmt : Stmt) (rest : Stmts) (span : Span)

end

mutual

/-- The tree of a statement. -/
def Stmt.node : Stmt → Node
  | .decl d => d.node
  | .set lvalue rvalue type span =>
    .mk .set (.cons "lvalue" (.node lvalue.node) (.cons "rvalue" (.node rvalue.node)
      (.optional "type" (type.map .type) .nil))) span
  | .ret value type span =>
    .mk .ret (.optional "type" (type.map .type)
      (.optional "value" (value.map fun e => .node e.node) .nil)) span
  | .expr e => e.node
  | .scope decl body frame span =>
    .mk .scope (.optional "body" (body.node?.map .node)
      (.optional "constants" (tableValue frame.raw.constants) (.cons "decl" (.node decl.node)
        (.optional "names" (tableValue frame.raw.names) .nil)))) span
  | .data d => d.node
  | .load operand width span =>
    .mk .load (.cons "operand" (.node operand.node) (.cons "width" (.int width) .nil)) span
  | .store operand width span =>
    .mk .store (.cons "operand" (.node operand.node) (.cons "width" (.int width) .nil)) span
  | .arith op operand width span =>
    .mk .arith (.cons "op" (.str op) (.cons "operand" (.node operand.node)
      (.cons "width" (.int width) .nil))) span
  | .jump symbol span =>
    .mk .jump (.cons "link" (.bool true) (.cons "symbol" (.str symbol) .nil)) span
  | .rts span => .mk .rts .nil span
  | .code code span =>
    .mk .code (.cons "bytes" (.bytes code.bytes) (.cons "relocs" (.relocations code.relocations) .nil))
      span

/-- The tree of statements, if there are any. -/
def Stmts.node? : Stmts → Option Node
  | .nil => none
  | .cons stmt rest span =>
    some (.mk .stmts (.optional "next" (rest.node?.map .node)
      (.cons "stmt" (.node stmt.node) .nil)) span)

end

/-! ## 5. Items -/

/-- A parameter of a function. -/
structure Param where
  name : String
  ty : TypeExpr
  symbol : Option String := none
  span : Span

/-- The tree of a parameter. -/
def Param.node (p : Param) : Node :=
  .mk .param (.cons "name" (.str p.name) (.optional "symbol" (p.symbol.map .str)
    (.cons "ty" (.node p.ty.node) .nil))) p.span

/-- Parameters with the places of their cells. -/
abbrev Params := List (Param × Span)

/-- The tree of parameters, if there are any. -/
def Params.node? : Params → Option Node
  | [] => none
  | entry :: rest =>
    some (.mk .params (.optional "next" ((Params.node? rest).map .node)
      (.cons "param" (.node entry.1.node) .nil)) entry.2)

/-- A function. -/
structure Function where
  name : String
  params : Params
  result : Option TypeExpr
  body : Stmts
  symbol : Option String := none
  type : Option Ty := none
  locals : Option Locals := none
  frame : Frame := {}
  span : Span

/-- The tree of a function. -/
def Function.node (f : Function) : Node :=
  .mk .function (.optional "body" (f.body.node?.map .node)
    (.optional "constants" (tableValue f.frame.raw.constants)
      (.optional "locals" (f.locals.map fun locals => .table locals.raw)
        (.cons "name" (.str f.name)
          (.optional "names" (tableValue f.frame.raw.names)
            (.optional "params" (f.params.node?.map .node)
              (.optional "ret" (f.result.map fun t => .node t.node)
                (.optional "symbol" (f.symbol.map .str)
                  (.optional "type" (f.type.map .type) .nil))))))))) f.span

/-- An item of a unit, or what became of one. -/
inductive Item where
  | use (name : String) (span : Span)
  | constant (name : String) (ty : TypeExpr) (value : Expr) (symbol : Option String) (span : Span)
  /-- A variable of the unit. -/
  | global (s : Stmt)
  | function (f : Function)
  | compiled (symbol : String) (code : MachineCode) (type : Ty) (locals : Option Locals) (span : Span)

/-- The tree of an item. -/
def Item.node : Item → Node
  | use name span => .mk .use (.cons "name" (.str name) .nil) span
  | constant name ty value symbol span =>
    .mk .constant (.cons "name" (.str name) (.optional "symbol" (symbol.map .str)
      (.cons "ty" (.node ty.node) (.cons "value" (.node value.node) .nil)))) span
  | global s => s.node
  | function f => f.node
  | compiled symbol code type locals span =>
    .mk .funSymbol (.cons "bytes" (.bytes code.bytes) (.optional "locals" (locals.map fun l => .table l.raw)
      (.cons "name" (.str symbol) (.cons "relocs" (.relocations code.relocations)
        (.cons "type" (.type type) .nil))))) span

/-- Items with the places of their cells. -/
abbrev Items := List (Item × Span)

/-- The tree of items, if there are any. -/
def Items.node? : Items → Option Node
  | [] => none
  | entry :: rest =>
    some (.mk .items (.cons "item" (.node entry.1.node)
      (.optional "next" ((Items.node? rest).map .node) .nil)) entry.2)

end Lode.Program

namespace Lode

open Program in
/-- A unit: its items, and the names and constants of its scope. -/
structure Program where
  items : Items
  frame : Frame := {}
  span : Span

/-- The tree of a unit. -/
def Program.node (p : Program) : Node :=
  .mk .unit (.optional "body" ((Items.node? p.items).map .node)
    (.optional "constants" (tableValue p.frame.raw.constants)
      (.optional "names" (tableValue p.frame.raw.names) .nil))) p.span

end Lode
