/-
# Programs all the way down

The tree of a program is made of the trees of its parts.  A property that every kind of part has at its root
is therefore one of all nodes of the tree; this is how statements about the constructors of programs become
statements about trees.

The nodes among attributes are found in a list of names and values that is built for every kind of part
anew, with attributes that may be missing.  Section 1 goes along such lists, so that for a kind of part what
remains is to look at its own children.  The recursion over the tree is that of the types of the program:
the attributes of a binding or of a table hold no program, but they are nodes all the same, and the property
has to hold of them as well.
-/
import Lode.Proofs.Language.Operators
import Lode.Proofs.Program.Basic

namespace Lode

/-! ## 1. Attributes -/

namespace Fields

variable {P : Node → Prop} {name : String} {rest : Fields}

/-- A property of all nodes among attributes. -/
def AllNodes (P : Node → Prop) (fields : Fields) : Prop := ∀ entry ∈ fields.nodes, P entry.2

@[simp]
theorem allNodes_nil : nil.AllNodes P := by simp [AllNodes, nodes]

/-- The nodes among attributes are the first, if it is one, and those behind it. -/
@[simp]
theorem allNodes_cons {v : Value} :
    (cons name v rest).AllNodes P ↔ (∀ n, v = .node n → P n) ∧ rest.AllNodes P := by
  cases v <;> simp [AllNodes, nodes]

@[simp]
theorem allNodes_optional {v : Option Value} :
    (Fields.optional name v rest).AllNodes P ↔ (∀ n, v = some (.node n) → P n) ∧ rest.AllNodes P := by
  cases v with
  | none => simp [Fields.optional]
  | some v => simp only [Fields.optional, allNodes_cons, Option.some.injEq]

end Fields

/-- A node has the property everywhere if it has it itself, and its children have it everywhere. -/
theorem Node.Everywhere.mk {P : Node → Prop} {tag : Tag} {fields : Fields} {span : Span}
    (h : P (.mk tag fields span)) (hfields : fields.AllNodes (Node.Everywhere P)) :
    (Node.mk tag fields span).Everywhere P :=
  .intro h hfields

theorem Node.everywhere_mk {P : Node → Prop} {tag : Tag} {fields : Fields} {span : Span} :
    (Node.mk tag fields span).Everywhere P ↔
      P (.mk tag fields span) ∧ fields.AllNodes (Node.Everywhere P) := by
  refine ⟨fun h => ?_, fun h => .mk h.1 h.2⟩
  cases h with
  | intro hroot hfields => exact ⟨hroot, hfields⟩

namespace Program

variable {P : Node → Prop}

/-! ## 2. Types -/

/-- Every node of a type has a property that types have. -/
theorem TypeExpr.everywhere (h : ∀ t : TypeExpr, P t.node) : ∀ t : TypeExpr, t.node.Everywhere P
  | .name n span => .mk (h (.name n span)) (by simp)
  | .ref target span => .mk (h (.ref target span)) (by simp [TypeExpr.everywhere h target])
  | .info type span => .mk (h (.info type span)) (by simp)

/-! ## 3. Expressions -/

/-- A property of the nodes of expressions. -/
structure OfExprs (P : Node → Prop) : Prop where
  expr : ∀ e : Expr, P e.node
  binding : ∀ b : Binding, P b.node
  args : ∀ args : Args, ∀ n ∈ args.node?, P n

namespace OfExprs

variable (h : OfExprs P)
include h

theorem everywhere_binding (b : Binding) : b.node.Everywhere P :=
  .mk (h.binding b) (by simp)

mutual

/-- Every node of an expression has the property. -/
theorem everywhere_expr : ∀ e : Expr, e.node.Everywhere P
  | .number v type span => .mk (h.expr (.number v type span)) (by simp)
  | .string v type span => .mk (h.expr (.string v type span)) (by simp)
  | .ident name binding type span => .mk (h.expr (.ident name binding type span)) (by
      simp [h.everywhere_binding])
  | .member target name span => .mk (h.expr (.member target name span)) (by
      simp [everywhere_expr target])
  | .intrinsic unit member span => .mk (h.expr (.intrinsic unit member span)) (by simp)
  | .call target args callee type span => .mk (h.expr (.call target args callee type span)) (by
      have hargs := everywhere_args args
      simpa [everywhere_expr target, h.everywhere_binding] using hargs)
  | .binop op lhs rhs type span => .mk (h.expr (.binop op lhs rhs type span)) (by
      simp [everywhere_expr lhs, everywhere_expr rhs])
  | .neg operand type span => .mk (h.expr (.neg operand type span)) (by simp [everywhere_expr operand])
  | .deref target type span => .mk (h.expr (.deref target type span)) (by simp [everywhere_expr target])
  | .paren inner span => .mk (h.expr (.paren inner span)) (by simp [everywhere_expr inner])
  | .cell (.symbol name) zeroPage type span => .mk (h.expr (.cell (.symbol name) zeroPage type span)) (by
      simp)
  | .cell (.address a) zeroPage type span => .mk (h.expr (.cell (.address a) zeroPage type span)) (by simp)
  | .immediate v type span => .mk (h.expr (.immediate v type span)) (by simp)
  | .returned type span => .mk (h.expr (.returned type span)) (by simp)

/-- Every node of arguments has the property. -/
theorem everywhere_args : ∀ (args : Args), ∀ n ∈ args.node?, n.Everywhere P
  | .nil, n, hn => by simp [Args.node?] at hn
  | .cons arg rest span, n, hn => by
    have hcell := h.args (.cons arg rest span) n hn
    have hrest := everywhere_args rest
    rw [Args.node?, Option.mem_some_iff] at hn
    subst hn
    exact .mk hcell (by simpa [everywhere_expr arg] using hrest)

end

end OfExprs

end Program

end Lode
