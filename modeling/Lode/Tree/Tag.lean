/-
# Tags

The kinds of tree nodes.  The first group is what parsing builds, the second what the analyses add,
the third is the machine level.  Four tags stand for sequences: such a node has one element, under
the attribute the tag names, and the rest of the sequence under `next`.
-/

namespace Lode

/-- The kind of a tree node. -/
inductive Tag where
  | unit | items | use | constant | letDecl | function | params | param | stmts | set | ret | call
  | args | member | binop | neg | deref | paren | number | string | ident | typeName | typeRef
  | typeInfo | scope | binding | intrinsic | absoluteStorage | immediateStorage | returned
  | load | store | arith | jump | rts | code | dataSymbol | funSymbol
deriving DecidableEq, Repr, Inhabited

namespace Tag

/-- Every tag, in the order of the declaration. -/
def all : List Tag :=
  [unit, items, use, constant, letDecl, function, params, param, stmts, set, ret, call,
    args, member, binop, neg, deref, paren, number, string, ident, typeName, typeRef,
    typeInfo, scope, binding, intrinsic, absoluteStorage, immediateStorage, returned,
    load, store, arith, jump, rts, code, dataSymbol, funSymbol]

/-- The name of a tag. -/
def name : Tag → String
  | unit => "unit"
  | items => "items"
  | use => "use"
  | constant => "constant"
  | letDecl => "let"
  | function => "fun"
  | params => "params"
  | param => "param"
  | stmts => "stmts"
  | set => "set"
  | ret => "return"
  | call => "call"
  | args => "args"
  | member => "member"
  | binop => "binop"
  | neg => "neg"
  | deref => "deref"
  | paren => "paren"
  | number => "number"
  | string => "string"
  | ident => "ident"
  | typeName => "type_name"
  | typeRef => "type_ref"
  | typeInfo => "type_info"
  | scope => "scope"
  | binding => "binding"
  | intrinsic => "intrinsic"
  | absoluteStorage => "absolute_storage"
  | immediateStorage => "immediate_storage"
  | returned => "returned"
  | load => "load"
  | store => "store"
  | arith => "arith"
  | jump => "jump"
  | rts => "rts"
  | code => "code"
  | dataSymbol => "data_symbol"
  | funSymbol => "fun_symbol"

/-- The tag of a name. -/
def ofName? (name : String) : Option Tag := all.find? (·.name == name)

/-- The attribute that holds the element of a sequence node. -/
def element? : Tag → Option String
  | items => some "item"
  | params => some "param"
  | stmts => some "stmt"
  | args => some "arg"
  | _ => none

/-- Whether nodes of the tag are sequences. -/
def isSequence (tag : Tag) : Bool := tag.element?.isSome

end Tag

end Lode
