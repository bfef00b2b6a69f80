/-
# Bindings of identifiers

Once names are bound, the identifiers of a unit lead to its declarations (`Program.Lexical.declares`).  The
passes that rewrite expressions afterwards drop identifiers or keep them with their bindings, so that all
identifiers that are left still do.

A unit is bound lexically, and this is said along its statements: what an identifier leads to is in the
environment at its place.  To forget the place, the bindings of an expression are collected in a list
(`Expr.bindings`), and so are those of statements, declarations apart (`Stmt.parts`).  Each of them is in
some environment, and an environment has only what the unit, the parameters and the declarations further up
put into it (`LexicalIn.of_mem`).

That a pass has no other bindings is an inclusion of these lists (`Expr.KeepsBindings`), and it has to be
checked for one node only.
-/
import Lode.Proofs.Program.Functions
import Lode.Proofs.Program.Lexical

namespace Lode.Program

/-! ## 1. Expressions -/

mutual

/-- What the identifiers of an expression are bound to. -/
def Expr.bindings : Expr → List Binding
  | .ident _ binding _ _ => binding.toList
  | .member target _ _ | .deref target _ _ => target.bindings
  | .call target args _ _ _ => target.bindings ++ args.bindings
  | .binop _ lhs rhs _ _ => lhs.bindings ++ rhs.bindings
  | .neg operand _ _ => operand.bindings
  | .paren inner _ => inner.bindings
  | .number _ _ _ | .string _ _ _ | .intrinsic _ _ _ | .cell _ _ _ _ | .immediate _ _ _
  | .returned _ _ => []

/-- What the identifiers of arguments are bound to. -/
def Args.bindings : Args → List Binding
  | .nil => []
  | .cons arg rest _ => arg.bindings ++ rest.bindings

end

/-- An expression that has no other bindings. -/
def Expr.KeepsBindings (e e' : Expr) : Prop := e'.bindings ⊆ e.bindings

theorem Expr.KeepsBindings.trans {e e' e'' : Expr} (h : e.KeepsBindings e') (h' : e'.KeepsBindings e'') :
    e.KeepsBindings e'' := List.Subset.trans h' h

theorem Args.Alike.keepsBindings {args args' : Args} (h : args.Alike Expr.KeepsBindings args') :
    args'.bindings ⊆ args.bindings := by
  induction h with
  | nil => exact List.Subset.refl _
  | cons harg _ ih => exact append_subset_append harg ih

/-- Expressions of one form have the bindings of their parts. -/
theorem Expr.Alike.keepsBindings {e e' : Expr} (h : e.Alike Expr.KeepsBindings e') :
    e.KeepsBindings e' := by
  cases h with
  | leaf _ => exact List.Subset.refl _
  | member h | neg h | deref h | paren h => exact h
  | call ht hargs => exact append_subset_append ht hargs.keepsBindings
  | binop hl hr => exact append_subset_append hl hr

/-- A rewriting that has no other bindings in one node has none in an expression. -/
theorem Steady.Rewritten.keepsBindings {σ : Type} {expr : σ → Expr → Except Error Expr}
    (h : ∀ {s : σ} {e e' : Expr}, expr s e = .ok e' → e.KeepsBindings e') {e e' : Expr}
    (hrewritten : Rewritten expr e e') : e.KeepsBindings e' := by
  obtain ⟨s, hs⟩ := hrewritten
  exact Expr.mapUp_rel (fun halike hstep => halike.keepsBindings.trans (h hstep)) hs

/-- What is looked up is an entry. -/
theorem mem_of_lookup {α : Type} {name : String} {a : α} : ∀ {entries : List (String × α)},
    entries.lookup name = some a → (name, a) ∈ entries
  | (key, value) :: rest, h => by
    rw [List.lookup_cons] at h
    split at h
    · rename_i heq
      obtain rfl := beq_iff_eq.mp heq
      obtain rfl := Option.some.inj h
      exact List.mem_cons_self
    · exact List.mem_cons_of_mem _ (mem_of_lookup h)

section Bound

variable {env : Env}

mutual

/-- The bindings of an expression are in the environment. -/
theorem Expr.BoundBy.of_mem : ∀ {e : Expr}, e.BoundBy env → ∀ b ∈ e.bindings, ∃ entry ∈ env, entry.2 = b
  | .ident name binding _ _, h, b, hb => by
    rw [Expr.bindings, Option.mem_toList] at hb
    exact ⟨_, mem_of_lookup (h.symm.trans hb), rfl⟩
  | .member target _ _, h, b, hb => Expr.BoundBy.of_mem (e := target) h b hb
  | .deref target _ _, h, b, hb => Expr.BoundBy.of_mem (e := target) h b hb
  | .neg operand _ _, h, b, hb => Expr.BoundBy.of_mem (e := operand) h b hb
  | .paren inner _, h, b, hb => Expr.BoundBy.of_mem (e := inner) h b hb
  | .call _ _ _ _ _, h, b, hb => (List.mem_append.mp hb).elim (Expr.BoundBy.of_mem h.1 b)
    (Args.BoundBy.of_mem h.2 b)
  | .binop _ _ _ _ _, h, b, hb => (List.mem_append.mp hb).elim (Expr.BoundBy.of_mem h.1 b)
    (Expr.BoundBy.of_mem h.2 b)
  | .number _ _ _, _, _, hb | .string _ _ _, _, _, hb | .intrinsic _ _ _, _, _, hb
  | .cell _ _ _ _, _, _, hb | .immediate _ _ _, _, _, hb | .returned _ _, _, _, hb => by cases hb

theorem Args.BoundBy.of_mem : ∀ {args : Args}, args.BoundBy env → ∀ b ∈ args.bindings,
    ∃ entry ∈ env, entry.2 = b
  | .nil, _, _, hb => by cases hb
  | .cons _ _ _, h, b, hb => (List.mem_append.mp hb).elim (Expr.BoundBy.of_mem h.1 b)
    (Args.BoundBy.of_mem h.2 b)

end

end Bound

/-! ## 2. Statements -/

/-- The expressions of a statement. -/
def Stmt.parts : Stmt → List Expr
  | .decl d => [d.value]
  | s => s.exprs

/-- Statements alike have related expressions. -/
theorem Stmt.Alike.parts {Rel : Expr → Expr → Prop} {s s' : Stmt} (h : s.Alike Rel s') :
    List.Forall₂ Rel s.parts s'.parts := by
  cases h with
  | decl hv _ => exact .cons hv .nil
  | set hl hr => exact .cons hl (.cons hr .nil)
  | ret hv =>
    cases hv with
    | none => exact .nil
    | some hv => exact .cons hv .nil
  | expr he => exact .cons he .nil
  | scope _ _ => exact .nil

/-- The declaration that a statement is. -/
def Stmt.let? : Stmt → Option Let
  | .decl d => some d
  | _ => none

/-- Bindings in statements are those that the names around them have, or those of the statements. -/
theorem LexicalIn.of_mem {P : Binding → Prop} : ∀ {stmts : List Stmt} {env : Env}, LexicalIn env stmts →
    (∀ entry ∈ env, P entry.2) → (∀ d ∈ stmts.filterMap Stmt.let?, P (d.binding .localVar)) →
    ∀ s ∈ stmts, ∀ e ∈ s.parts, ∀ b ∈ e.bindings, P b
  | [], _, _, _, _ => by simp
  | s :: rest, env, h, henv, hlets => by
    have hbound : ∀ {e : Expr}, e.BoundBy env → ∀ b ∈ e.bindings, P b := fun he b hb => by
      obtain ⟨entry, hentry, rfl⟩ := he.of_mem b hb
      exact henv entry hentry
    rw [List.forall_mem_cons]
    cases s with
    | decl d =>
      rw [List.filterMap_cons_some (show (Stmt.decl d).let? = some d from rfl), List.forall_mem_cons] at hlets
      refine ⟨fun e he => ?_, LexicalIn.of_mem h.2 (List.forall_mem_cons.mpr ⟨hlets.1, henv⟩) hlets.2⟩
      obtain rfl := List.mem_singleton.mp he
      exact hbound h.1
    | _ => exact ⟨fun e he => hbound (h.1 e he), LexicalIn.of_mem h.2 henv hlets⟩

mutual

theorem Stmt.lets_eq : ∀ s : Stmt, s.lets = s.leaves.filterMap Stmt.let?
  | .scope decl body _ _ => by
    rw [Stmt.lets, Stmt.leaves, List.filterMap_append, Stmt.lets_eq decl, Stmts.lets_eq body]
  | .decl _ | .set _ _ _ _ | .ret _ _ _ | .expr _ | .data _ | .load _ _ _ | .store _ _ _ | .arith _ _ _ _
  | .jump _ _ | .rts _ | .code _ _ => rfl

/-- The declarations of statements are those among their leaves. -/
theorem Stmts.lets_eq : ∀ stmts : Stmts, stmts.lets = stmts.leaves.filterMap Stmt.let?
  | .nil => rfl
  | .cons stmt rest _ => by
    rw [Stmts.lets, Stmts.leaves, List.filterMap_append, Stmt.lets_eq stmt, Stmts.lets_eq rest]

end

end Lode.Program

/-! ## 3. Units -/

namespace Lode

open Program

/-- What the declarations of a unit bind names to. -/
inductive Program.Declares (q : Program) : Binding → Prop
  | constant {b : Binding} : b.declaration.kind = .constant → q.Declares b
  | global {d : Let} : .global (.decl d) ∈ q.items.map (·.1) → q.Declares (d.binding .global)
  | function {f : Function} : f ∈ q.functions → q.Declares f.binding
  | param {f : Function} {p : Param} : f ∈ q.functions → p ∈ f.params.map Prod.fst → q.Declares p.binding
  | localVar {f : Function} {d : Let} : f ∈ q.functions → d ∈ f.body.lets →
      q.Declares (d.binding .localVar)

/-- What the names of a unit are bound to are its declarations. -/
theorem Program.declares_env {q : Program} : ∀ entry ∈ Items.env (q.items.map (·.1)), q.Declares entry.2 := by
  intro entry hentry
  obtain ⟨i, hi, hbinding⟩ := List.mem_filterMap.mp hentry
  cases i with
  | constant name ty value symbol span =>
    obtain rfl := Option.some.inj hbinding
    exact .constant rfl
  | global s =>
    cases s with
    | decl d =>
      obtain rfl := Option.some.inj hbinding
      exact .global hi
    | _ => cases hbinding
  | function f =>
    obtain rfl := Option.some.inj hbinding
    exact .function (Items.mem_functions.mpr hi)
  | use _ _ | compiled _ _ _ _ _ => cases hbinding

/-- **Identifiers lead to declarations.** -/
theorem Program.Lexical.declares {q : Program} (h : q.Lexical) {f : Function} (hf : f ∈ q.functions) :
    ∀ s ∈ f.body.leaves, ∀ e ∈ s.parts, ∀ b ∈ e.bindings, q.Declares b := by
  have hlexical : LexicalIn (f.paramEnv ++ Items.env (q.items.map (·.1))) f.body.leaves :=
    h _ (Items.mem_functions.mp hf)
  refine hlexical.of_mem (List.forall_mem_append.mpr ⟨?_, Program.declares_env⟩) fun d hd => ?_
  · intro entry hentry
    obtain ⟨p, hp, rfl⟩ := List.mem_map.mp hentry
    exact .param hf hp
  · exact .localVar hf (Stmts.lets_eq f.body ▸ hd)

end Lode
