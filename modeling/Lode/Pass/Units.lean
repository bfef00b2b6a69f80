/-
# Units in use

A `use` binds the name of an intrinsic unit in the unit's scope and is removed.  An access to a
member of such a name becomes an intrinsic.
-/
import Lode.Intrinsic
import Lode.Pass.Basic

namespace Lode.ResolveUnits

/-- Binds the unit of a `use`. -/
def exitUse (n : Node) : Walk (Scoped Unit) Verdict := do
  let name ← n.textOf "name"
  match IntrinsicUnit.ofName? name with
  | none => throw ⟨.unknownUnit name, some n.span⟩
  | some u =>
    let state ← get
    match state.scopes.bind? name (.unit u) with
    | none => throw ⟨.duplicateDefinition name, some n.span⟩
    | some scopes =>
      set { state with scopes := scopes }
      return .remove

/-- The unit that a node names. -/
def unitOf? (scopes : Scopes) (target : Node) : Option IntrinsicUnit :=
  match target.tag, target.str? "name" with
  | .ident, some name => (scopes.lookup name).bind Value.unit?
  | _, _ => none

/-- Turns the member of a unit into an intrinsic. -/
def exitMember (n : Node) : Walk (Scoped Unit) Verdict := do
  let target ← n.child "target"
  match unitOf? (← get).scopes target with
  | none => return .keep
  | some u =>
    let member ← n.textOf "name"
    if (u.member? member).isNone then
      throw ⟨.unknownName (u.name ++ "." ++ member), some n.span⟩
    return .replace (.build .intrinsic n.span [("unit", .unit u), ("member", .str member)])

/-- What happens at the nodes. -/
def hooks : Hooks (Scoped Unit) where
  exit n :=
    match n.tag with
    | .use => exitUse n
    | .member => exitMember n
    | _ => pure .keep

/-- The pass that binds units. -/
def pass : Pass where
  info := ⟨"resolve_units", ["intrinsic", "unit_binding"], ["use", "member"], ["use"]⟩
  run _ tree := Pass.walkScoped "resolve_units" hooks () tree

end Lode.ResolveUnits
