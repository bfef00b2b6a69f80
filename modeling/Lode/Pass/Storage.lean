/-
# Storage

Inside functions, names of variables, small literals and dereferences of constant addresses become
the storage they denote: the memory cell of a symbol, a byte in the instruction itself, or the cell
at an address.  Literals that are no byte stay numbers.
-/
import Lode.Pass.Names

namespace Lode

/-- The memory of a symbol, at the place and with the type of a node. -/
def symbolStorage (symbol : String) (zeroPage : Bool) (n : Node) : Except Error Node := do
  return .build .absoluteStorage n.span
    [("symbol", .str symbol), ("zero_page", .bool zeroPage), ("type", .type (← n.exprType))]

/-- The memory at an address, at the place and with the type of a node. -/
def addressStorage (address : Int) (n : Node) : Except Error Node := do
  return .build .absoluteStorage n.span
    [("address", .int address), ("zero_page", .bool (decide (address ≤ 0xff))),
      ("type", .type (← n.exprType))]

namespace ResolveStorage

/-- The walk remembers how many functions are around. -/
abbrev StorageWalk := Walk (Scoped Nat)

/-- Whether a binding is that of a variable. -/
def bindsVariable (binding : Node) : Bool :=
  [BindNames.BindingKind.global, .localVar, .param].any fun kind =>
    binding.str? "kind" == some kind.name

/-- Puts the memory of a variable in place of its name. -/
def exitIdent (n : Node) : StorageWalk Verdict := do
  match n.node? "binding" with
  | none => return .keep
  | some binding =>
    if (← get).own = 0 || !bindsVariable binding then return .keep
    let zeroPage := binding.str? "section" == some Section.zp.name
    return .replace (← symbolStorage (← binding.textOf "symbol") zeroPage n)

/-- Puts a byte in place of a small literal. -/
def exitNumber (n : Node) : StorageWalk Verdict := do
  let value := (n.int? "value").getD 0
  if (← get).own = 0 || value < -128 || 255 < value then return .keep
  return .replace (.build .immediateStorage n.span
    [("value", .int (value % 256)), ("type", .type (← n.exprType))])

/-- The constant address that a node is. -/
def constantAddress? (target : Node) : Option Int :=
  match target.tag with
  | .immediateStorage | .number =>
    (target.int? "value").filter fun address => 0 ≤ address && address ≤ 0xffff
  | _ => none

/-- Puts the memory at an address in place of a dereference. -/
def exitDeref (n : Node) : StorageWalk Verdict := do
  let target ← n.child "target"
  match constantAddress? target with
  | some address => return .replace (← addressStorage address n)
  | none => throw (TypeProblem.dynamicAddress.atSpan target.span)

/-- What happens at the nodes. -/
def hooks : Hooks (Scoped Nat) where
  enter n := do
    if n.tag = .function then modify fun s => { s with own := s.own + 1 }
    return .keep
  exit n :=
    match n.tag with
    | .function => do
      modify fun s => { s with own := s.own - 1 }
      return .keep
    | .ident => exitIdent n
    | .number => exitNumber n
    | .deref => exitDeref n
    | _ => pure .keep

/-- The pass that resolves storage. -/
def pass : Pass where
  info := ⟨"resolve_storage", ["absolute_storage", "immediate_storage"], ["type", "scope"],
    ["deref"]⟩
  run _ tree := Pass.walkScoped "resolve_storage" hooks 0 tree

end ResolveStorage

end Lode
