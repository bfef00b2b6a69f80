/-
# Lexical scoping

What an identifier is bound to, said without frames and without the order of a walk.  A declaration has a
binding, which says what its attributes say.  In the statements of a function, one after the other and
without the scopes around them, an identifier is bound to the nearest declaration of its name before it,
where a declaration does not reach its own initial value; else to a parameter; else to an item of the unit,
wherever that stands (`Program.Lexical`).

The definition does not say how binding names goes about it, and this is the point of it: frames are opened
and closed, symbols are searched for, and an item may be visited before or after another one, but the
statement that an identifier leads to its declaration needs none of this.  It needs an environment that
grows along the statements (`LexicalIn`).

That binding names changes nothing else is said by erasing what it adds: a program before and after has the
same erasure (`Program.erase`).  The converse operation binds the identifiers of an expression by an
environment (`Expr.bindIn`); erasing undoes it.
-/
import Lode.Proofs.Program.Straight

namespace Lode.Program

/-! ## 1. The bindings of declarations -/

/-- Names with what they are bound to, the nearest first. -/
abbrev Env := List (String × Binding)

/-- The binding of a variable. -/
def Let.binding (d : Let) (kind : BindNames.BindingKind) : Binding :=
  ⟨⟨d.name, d.symbol.getD "", kind, d.ty.type?.getD .void, d.storage.isSome, d.place⟩, none, d.span⟩

/-- The binding of a parameter. -/
def Param.binding (p : Param) : Binding :=
  ⟨⟨p.name, p.symbol.getD "", .param, p.ty.type?.getD .void, true, some .bss⟩, none, p.span⟩

/-- The names of the parameters of a function. -/
def Function.paramNames (f : Function) : List String := (f.params.map Prod.fst).map Param.name

/-- The parameters of a function with their bindings. -/
def Function.paramEnv (f : Function) : Env :=
  (f.params.map Prod.fst).map fun p => (p.name, p.binding)

/-- The binding of a function: its type is made of those of its parameters and its result. -/
def Function.binding (f : Function) : Binding :=
  ⟨⟨f.name, f.symbol.getD "", .function, .function ((f.result.bind TypeExpr.type?).getD .void)
      ((f.params.map Prod.fst).map fun p => p.ty.type?.getD .void), false, some .text⟩,
    some ((f.params.map Prod.fst).map fun p => p.symbol.getD ""), f.span⟩

/-- The name that an item declares in its unit, and its binding. -/
def Item.binding? : Item → Option (String × Binding)
  | .constant name ty _ symbol span =>
    some (name, ⟨⟨name, symbol.getD "", .constant, ty.type?.getD .void, false, none⟩, none, span⟩)
  | .global (.decl d) => some (d.name, d.binding .global)
  | .function f => some (f.name, f.binding)
  | _ => none

/-- The declarations of a unit with their bindings. -/
def Items.env (items : List Item) : Env := items.filterMap Item.binding?

/-! ## 2. Identifiers -/

mutual

/-- Every identifier of an expression is bound to what its name is bound to, if anything. -/
def Expr.BoundBy (env : Env) : Expr → Prop
  | .ident name binding _ _ => binding = env.lookup name
  | .member target _ _ | .deref target _ _ => target.BoundBy env
  | .call target args _ _ _ => target.BoundBy env ∧ args.BoundBy env
  | .binop _ lhs rhs _ _ => lhs.BoundBy env ∧ rhs.BoundBy env
  | .neg operand _ _ => operand.BoundBy env
  | .paren inner _ => inner.BoundBy env
  | .number _ _ _ | .string _ _ _ | .intrinsic _ _ _ | .cell _ _ _ _ | .immediate _ _ _
  | .returned _ _ => True

/-- Every identifier of arguments is bound so. -/
def Args.BoundBy (env : Env) : Args → Prop
  | .nil => True
  | .cons arg rest _ => arg.BoundBy env ∧ rest.BoundBy env

end

/-- The expressions of a statement, declarations apart. -/
def Stmt.exprs : Stmt → List Expr
  | .set lvalue rvalue _ _ => [lvalue, rvalue]
  | .ret value _ _ => value.toList
  | .expr e => [e]
  | _ => []

/-- Statements one after the other, in which a declaration reaches what comes after it. -/
def LexicalIn (env : Env) : List Stmt → Prop
  | [] => True
  | .decl d :: rest => d.value.BoundBy env ∧ LexicalIn ((d.name, d.binding .localVar) :: env) rest
  | s :: rest => (∀ e ∈ s.exprs, e.BoundBy env) ∧ LexicalIn env rest

/-- The identifiers of an item are bound lexically, given the declarations of the unit. -/
def Item.Lexical (env : Env) : Item → Prop
  | .constant _ _ value _ _ => value.BoundBy env
  | .global (.decl d) => d.value.BoundBy env
  | .function f => LexicalIn (f.paramEnv ++ env) f.body.leaves
  | _ => True

end Lode.Program

namespace Lode

open Program

/-- **Every identifier of a unit is bound lexically.** -/
def Program.Lexical (p : Program) : Prop :=
  ∀ i ∈ p.items.map (·.1), i.Lexical (Items.env (p.items.map (·.1)))

namespace Program

/-! ## 3. What has nothing to do with names -/

mutual

/-- The expression without its bindings. -/
def Expr.erase : Expr → Expr
  | .ident name _ type span => .ident name none type span
  | .member target name span => .member target.erase name span
  | .call target args callee type span => .call target.erase args.erase callee type span
  | .binop op lhs rhs type span => .binop op lhs.erase rhs.erase type span
  | .neg operand type span => .neg operand.erase type span
  | .deref target type span => .deref target.erase type span
  | .paren inner span => .paren inner.erase span
  | e => e

/-- The arguments without their bindings. -/
def Args.erase : Args → Args
  | .nil => .nil
  | .cons arg rest span => .cons arg.erase rest.erase span

end

/-- The declaration without its symbol and its section. -/
def Let.erase (d : Let) : Let := { d with value := d.value.erase, symbol := none, place := none }

mutual

/-- The statement without bindings, symbols and sections. -/
def Stmt.erase : Stmt → Stmt
  | .decl d => .decl d.erase
  | .set lvalue rvalue type span => .set lvalue.erase rvalue.erase type span
  | .ret value type span => .ret (value.map Expr.erase) type span
  | .expr e => .expr e.erase
  | .scope decl body _ span => .scope decl.erase body.erase {} span
  | s => s

/-- The statements without bindings, symbols and sections. -/
def Stmts.erase : Stmts → Stmts
  | .nil => .nil
  | .cons stmt rest span => .cons stmt.erase rest.erase span

end

/-- The parameter without its symbol. -/
def Param.erase (p : Param) : Param := { p with symbol := none }

/-- The function without bindings, symbols and sections, its parameters in new cells. -/
def Function.erase (f : Function) : Function :=
  { f with
    params := Params.ofList ((f.params.map Prod.fst).map Param.erase)
    body := f.body.erase
    symbol := none
    frame := {} }

/-- The item without bindings, symbols and sections. -/
def Item.erase : Item → Item
  | .constant name ty value _ span => .constant name ty value.erase none span
  | .global s => .global s.erase
  | .function f => .function f.erase
  | i => i

end Program

/-- The unit without bindings, symbols and sections, its items in new cells. -/
def Program.erase (p : Program) : Program :=
  { p with items := Items.ofList ((p.items.map (·.1)).map Item.erase), frame := {} }

namespace Program

/-! ## 4. Binding identifiers -/

mutual

/-- The expression with its identifiers bound. -/
def Expr.bindIn (env : Env) : Expr → Expr
  | .ident name binding type span => .ident name ((env.lookup name).or binding) type span
  | .member target name span => .member (target.bindIn env) name span
  | .call target args callee type span => .call (target.bindIn env) (args.bindIn env) callee type span
  | .binop op lhs rhs type span => .binop op (lhs.bindIn env) (rhs.bindIn env) type span
  | .neg operand type span => .neg (operand.bindIn env) type span
  | .deref target type span => .deref (target.bindIn env) type span
  | .paren inner span => .paren (inner.bindIn env) span
  | e => e

/-- The arguments with their identifiers bound. -/
def Args.bindIn (env : Env) : Args → Args
  | .nil => .nil
  | .cons arg rest span => .cons (arg.bindIn env) (rest.bindIn env) span

end

mutual

/-- Binding adds nothing but bindings. -/
theorem Expr.erase_bindIn (env : Env) : ∀ e : Expr, (e.bindIn env).erase = e.erase
  | .ident _ _ _ _ => rfl
  | .member target _ _ => by rw [Expr.bindIn, Expr.erase, Expr.erase, Expr.erase_bindIn env target]
  | .call target args _ _ _ => by
    rw [Expr.bindIn, Expr.erase, Expr.erase, Expr.erase_bindIn env target, Args.erase_bindIn env args]
  | .binop _ lhs rhs _ _ => by
    rw [Expr.bindIn, Expr.erase, Expr.erase, Expr.erase_bindIn env lhs, Expr.erase_bindIn env rhs]
  | .neg operand _ _ => by rw [Expr.bindIn, Expr.erase, Expr.erase, Expr.erase_bindIn env operand]
  | .deref target _ _ => by rw [Expr.bindIn, Expr.erase, Expr.erase, Expr.erase_bindIn env target]
  | .paren inner _ => by rw [Expr.bindIn, Expr.erase, Expr.erase, Expr.erase_bindIn env inner]
  | .number _ _ _ | .string _ _ _ | .intrinsic _ _ _ | .cell _ _ _ _ | .immediate _ _ _
  | .returned _ _ => rfl

theorem Args.erase_bindIn (env : Env) : ∀ args : Args, (args.bindIn env).erase = args.erase
  | .nil => rfl
  | .cons arg rest _ => by
    rw [Args.bindIn, Args.erase, Args.erase, Expr.erase_bindIn env arg, Args.erase_bindIn env rest]

end

mutual

/-- Identifiers that were not bound before are bound so. -/
theorem Expr.boundBy_bindIn (env : Env) : ∀ {e : Expr}, e.Linked {} → (e.bindIn env).BoundBy env
  | .ident name binding type span, h => by
    obtain rfl : binding = none := by
      cases binding with
      | none => rfl
      | some b =>
        have hb := h.1 b rfl
        unfold Binding.Linked at hb
        cases hkind : b.declaration.kind <;> simp [hkind] at hb
    simp [Expr.bindIn, Expr.BoundBy]
  | .member _ _ _, h | .deref _ _ _, h | .neg _ _ _, h | .paren _ _, h => by
    simp only [Expr.bindIn, Expr.BoundBy]
    exact Expr.boundBy_bindIn env (show Expr.Linked {} _ from h)
  | .call _ _ _ _ _, h => ⟨Expr.boundBy_bindIn env h.1, Args.boundBy_bindIn env h.2.1⟩
  | .binop _ _ _ _ _, h => ⟨Expr.boundBy_bindIn env h.1, Expr.boundBy_bindIn env h.2⟩
  | .cell (.symbol _) _ _ _, _ | .cell (.address _) _ _ _, _ | .number _ _ _, _ | .string _ _ _, _
  | .intrinsic _ _ _, _ | .immediate _ _ _, _ | .returned _ _, _ => trivial

theorem Args.boundBy_bindIn (env : Env) : ∀ {args : Args}, args.Linked {} →
    (args.bindIn env).BoundBy env
  | .nil, _ => trivial
  | .cons _ _ _, h => ⟨Expr.boundBy_bindIn env h.1, Args.boundBy_bindIn env h.2⟩

end

end Program

end Lode
