/-
# Written types

Type names and reference types become nodes that carry the type they denote.
-/
import Lode.Pass.Basic

namespace Lode.ConstructTypes

/-- The node that carries a type. -/
def typeNode (type : Ty) (n : Node) : Node := .build .typeInfo n.span [("info", .type type)]

/-- The name of a primitive type. -/
def named : TreeRule where
  pattern := .tagged .typeName [("name", .capture "name" .any)]
  template b n := do
    let name ← b.str "name"
    match Ty.ofName? name with
    | some type => return .replace (typeNode type n)
    | none => throw ⟨.unknownName name, none⟩

/-- A reference to a type. -/
def reference : TreeRule where
  pattern := .tagged .typeRef [("target", .tagged .typeInfo [("info", .capture "target" .any)])]
  template b n := do return .replace (typeNode (.ref (← b.type "target")) n)

/-- The rules, tried on the way up. -/
def rules : RuleSet := ⟨"construct_types", .ascending, [named, reference]⟩

/-- The pass that reads written types. -/
def pass : Pass where
  info := ⟨"construct_types", ["type_info"], ["type_name", "type_ref"], ["type_name", "type_ref"]⟩
  run _ tree := rules.run tree

end Lode.ConstructTypes
