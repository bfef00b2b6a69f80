/-
# Walks over expressions

A walk goes over the tree of an expression with hooks on the way in and out.  For the passes only the way
out matters: they rewrite an expression once its parts are rewritten (`Expr.mapUp`), from left to right.
This module shows once and for all that such a walk over the tree is that recursion over the expression
(`walk_expr`), so that no pass has to look at nodes, attributes and budgets again.

What has to be known of the hooks is a single lemma for each kind of node: on the way in nothing happens,
and on the way out the hook does to the node of an expression what `f` does to the expression (`Rewrites`).
Three things stand beside expressions in their trees, and are walked over too: the binding of an identifier,
the cells of arguments, and types.  The hooks must leave a binding alone, which is stated with the rest.

The budget is one of depth, and the size of the tree is always enough for it.  The induction is on the
expression; the budget goes down with it.
-/
import Lode.Proofs.Program.Basic

namespace Lode.Program

open Walk (Mirrors)

variable {σ τ : Type} {m : Type → Type} [Monad m]

mutual

/-- Rewrites an expression from the inside out, in the order of a walk. -/
def Expr.mapUp (f : Expr → m Expr) : Expr → m Expr
  | .number value type span => f (.number value type span)
  | .string value type span => f (.string value type span)
  | .ident name binding type span => f (.ident name binding type span)
  | .member target name span => do
    let target ← target.mapUp f
    f (.member target name span)
  | .intrinsic unit member span => f (.intrinsic unit member span)
  | .call target args callee type span => do
    let args ← args.mapUp f
    let target ← target.mapUp f
    f (.call target args callee type span)
  | .binop op lhs rhs type span => do
    let lhs ← lhs.mapUp f
    let rhs ← rhs.mapUp f
    f (.binop op lhs rhs type span)
  | .neg operand type span => do
    let operand ← operand.mapUp f
    f (.neg operand type span)
  | .deref target type span => do
    let target ← target.mapUp f
    f (.deref target type span)
  | .paren inner span => do
    let inner ← inner.mapUp f
    f (.paren inner span)
  | .cell place zeroPage type span => f (.cell place zeroPage type span)
  | .immediate value type span => f (.immediate value type span)
  | .returned type span => f (.returned type span)

/-- Rewrites arguments one after the other. -/
def Args.mapUp (f : Expr → m Expr) : Args → m Args
  | .nil => pure .nil
  | .cons arg rest span => do
    let arg ← arg.mapUp f
    let rest ← rest.mapUp f
    return .cons arg rest span

end

/-- A walk does `f` to every expression on the way out, and nothing else to it. -/
structure Rewrites (raw : τ → σ) (hooks : Hooks σ) (f : Expr → Walk τ Expr) : Prop where
  enter : ∀ e : Expr, hooks.enter e.node = pure .keep
  exit : ∀ e : Expr, Mirrors raw (settle hooks.exit e.node) ((fun e' => some e'.node) <$> f e)
  binding : ∀ b : Binding, hooks.enter b.node = pure .keep ∧ hooks.exit b.node = pure .keep
  args : ∀ (arg : Expr) (next : Option Node) (span : Span),
    let cell := Node.mk .args (.cons "arg" (.node arg.node) (.optional "next" (next.map .node) .nil)) span
    hooks.enter cell = pure .keep ∧ hooks.exit cell = pure .keep

/-- Whether a tag is that of an expression or of a part of one. -/
def isExprTag : Tag → Bool
  | .number | .string | .ident | .member | .intrinsic | .call | .binop | .neg | .deref | .paren
  | .absoluteStorage | .immediateStorage | .returned | .binding | .args => true
  | _ => false

theorem Expr.int?_number (value : Int) (type : Option Ty) (span : Span) :
    (Expr.number value type span).node.int? "value" = some value := by
  cases type <;> rfl

theorem Expr.isExprTag_node (e : Expr) : isExprTag e.node.tag = true := by
  cases e with
  | cell place _ _ _ => cases place <;> rfl
  | _ => rfl

namespace Rewrites

variable {raw : τ → σ} {hooks : Hooks σ} {f : Expr → Walk τ Expr}

/-- A walk that does nothing to expressions. -/
theorem of_keep (h : ∀ n : Node, isExprTag n.tag = true →
    hooks.enter n = pure .keep ∧ hooks.exit n = pure .keep) :
    Rewrites raw hooks (pure : Expr → Walk τ Expr) where
  enter e := (h e.node e.isExprTag_node).1
  exit e := mirrors_keep (h e.node e.isExprTag_node).2
  binding b := h b.node rfl
  args _ _ _ := h _ rfl

/-- Nothing is rewritten in a binding. -/
theorem walk_binding (h : Rewrites raw hooks f) (b : Binding) : ∀ {fuel : Nat}, b.node.size ≤ fuel →
    Mirrors raw (walkWithin hooks fuel b.node) ((fun _ => some b.node) <$> (pure () : Walk τ Unit))
  | 0, hfuel => by simp [Binding.node, Node.size] at hfuel
  | fuel + 1, _ => by
    obtain ⟨henter, hexit⟩ := h.binding b
    rw [map_pure]
    have hkeep : Mirrors raw (settle hooks.exit b.node) (pure (some b.node)) := mirrors_keep hexit
    obtain ⟨⟨name, symbol, kind, type, mutable, storage⟩, params, span⟩ := b
    cases params <;> cases storage <;> exact walkWithin_leaf henter rfl rfl hkeep

mutual

/-- **A walk over the tree of an expression** rewrites it from the inside out. -/
theorem walk_expr (h : Rewrites raw hooks f) : ∀ (e : Expr) (fuel : Nat), e.node.size ≤ fuel →
    Mirrors raw (walkWithin hooks fuel e.node) ((fun e' => some e'.node) <$> e.mapUp f)
  | e, 0, hfuel => absurd (Node.size_pos e.node) (by omega)
  | .number value type span, fuel + 1, _ => by
    have hexit := h.exit (.number value type span)
    cases type <;> exact walkWithin_leaf (h.enter (.number value _ span)) rfl rfl hexit
  | .string value type span, fuel + 1, _ => by
    have hexit := h.exit (.string value type span)
    cases type <;> exact walkWithin_leaf (h.enter (.string value _ span)) rfl rfl hexit
  | .ident name none type span, fuel + 1, _ => by
    have hexit := h.exit (.ident name none type span)
    cases type <;> exact walkWithin_leaf (h.enter (.ident name none _ span)) rfl rfl hexit
  | .ident name (some b) type span, fuel + 1, hfuel => by
    have hb := h.walk_binding b (Node.size_child_le hfuel List.mem_cons_self)
    have hexit := h.exit (.ident name (some b) type span)
    rw [← pure_bind () fun _ => (fun e' => some e'.node) <$> Expr.mapUp f (.ident name (some b) type span)]
    cases type <;>
      exact walkWithin_one (h.enter (.ident name (some b) _ span)) rfl hb rfl (fun _ => rfl) fun _ => hexit
  | .member target name span, fuel + 1, hfuel => by
    have ih := walk_expr h target fuel (Node.size_child_le hfuel List.mem_cons_self)
    rw [Expr.mapUp, map_bind]
    exact walkWithin_one (h.enter (.member target name span)) rfl ih rfl (fun _ => rfl)
      fun a => h.exit (.member a name span)
  | .intrinsic unit member span, fuel + 1, _ =>
    walkWithin_leaf (h.enter (.intrinsic unit member span)) rfl rfl (h.exit (.intrinsic unit member span))
  | .call target .nil none type span, fuel + 1, hfuel => by
    have ih := walk_expr h target fuel (Node.size_child_le hfuel List.mem_cons_self)
    have hexit := fun a => h.exit (.call a .nil none type span)
    rw [Expr.mapUp, Args.mapUp, pure_bind, map_bind]
    cases type <;>
      exact walkWithin_one (h.enter (.call target .nil none _ span)) rfl ih rfl (fun _ => rfl) hexit
  | .call target .nil (some b) type span, fuel + 1, hfuel => by
    have hb := h.walk_binding b (Node.size_child_le hfuel List.mem_cons_self)
    have ih := walk_expr h target fuel
      (Node.size_child_le hfuel (List.mem_cons_of_mem _ List.mem_cons_self))
    have hexit := fun a => h.exit (.call a .nil (some b) type span)
    rw [Expr.mapUp, Args.mapUp, pure_bind, map_bind,
      ← pure_bind () fun _ => target.mapUp f >>= fun a =>
        (fun e' => some e'.node) <$> f (.call a .nil (some b) type span)]
    cases type <;>
      exact walkWithin_two (h.enter (.call target .nil (some b) _ span)) rfl hb ih rfl
        (fun _ _ => rfl) fun _ => hexit
  | .call target (.cons arg rest cell) none type span, fuel + 1, hfuel => by
    -- arguments come before the target, as their names do in the tree
    have iha := walk_args h (.cons arg rest cell) _ fuel rfl
      (Node.size_child_le hfuel List.mem_cons_self)
    have iht := walk_expr h target fuel
      (Node.size_child_le hfuel (List.mem_cons_of_mem _ List.mem_cons_self))
    have hexit := fun args a => h.exit (.call a args none type span)
    rw [Expr.mapUp, map_bind]
    simp only [map_bind]
    cases type <;>
      refine walkWithin_two (h.enter (.call target (.cons arg rest cell) none _ span)) rfl iha iht
        rfl (fun _ _ => rfl) fun args a => ?_ <;>
      (specialize hexit args a; cases args <;> exact hexit)
  | .call target (.cons arg rest cell) (some b) type span, fuel + 1, hfuel => by
    have iha := walk_args h (.cons arg rest cell) _ fuel rfl
      (Node.size_child_le hfuel List.mem_cons_self)
    have hb := h.walk_binding b
      (Node.size_child_le hfuel (List.mem_cons_of_mem _ List.mem_cons_self))
    have iht := walk_expr h target fuel (Node.size_child_le hfuel
      (List.mem_cons_of_mem _ (List.mem_cons_of_mem _ List.mem_cons_self)))
    have hexit := fun args a => h.exit (.call a args (some b) type span)
    have hmap : (fun e' : Expr => some e'.node) <$> Expr.mapUp f (.call target (.cons arg rest cell) (some b) type span) =
        (Args.mapUp f (.cons arg rest cell)) >>= fun args => (pure () : Walk τ Unit) >>= fun _ =>
          target.mapUp f >>= fun a => (fun e' => some e'.node) <$> f (.call a args (some b) type span) := by
      simp only [Expr.mapUp, map_bind, pure_bind]
    rw [hmap]
    cases type <;>
      refine walkWithin_three (h.enter (.call target (.cons arg rest cell) (some b) _ span)) rfl
        iha hb iht rfl (fun _ _ _ => rfl) fun args _ a => ?_ <;>
      (specialize hexit args a; cases args <;> exact hexit)
  | .binop op lhs rhs type span, fuel + 1, hfuel => by
    have ihl := walk_expr h lhs fuel (Node.size_child_le hfuel List.mem_cons_self)
    have ihr := walk_expr h rhs fuel
      (Node.size_child_le hfuel (List.mem_cons_of_mem _ List.mem_cons_self))
    have hexit := fun a b => h.exit (.binop op a b type span)
    rw [Expr.mapUp, map_bind]
    simp only [map_bind]
    cases type <;>
      exact walkWithin_two (h.enter (.binop op lhs rhs _ span)) rfl ihl ihr rfl (fun _ _ => rfl) hexit
  | .neg operand type span, fuel + 1, hfuel => by
    have ih := walk_expr h operand fuel (Node.size_child_le hfuel List.mem_cons_self)
    have hexit := fun a => h.exit (.neg a type span)
    rw [Expr.mapUp, map_bind]
    cases type <;> exact walkWithin_one (h.enter (.neg operand _ span)) rfl ih rfl (fun _ => rfl) hexit
  | .deref target type span, fuel + 1, hfuel => by
    have ih := walk_expr h target fuel (Node.size_child_le hfuel List.mem_cons_self)
    have hexit := fun a => h.exit (.deref a type span)
    rw [Expr.mapUp, map_bind]
    cases type <;> exact walkWithin_one (h.enter (.deref target _ span)) rfl ih rfl (fun _ => rfl) hexit
  | .paren inner span, fuel + 1, hfuel => by
    have ih := walk_expr h inner fuel (Node.size_child_le hfuel List.mem_cons_self)
    rw [Expr.mapUp, map_bind]
    exact walkWithin_one (h.enter (.paren inner span)) rfl ih rfl (fun _ => rfl)
      fun a => h.exit (.paren a span)
  | .cell (.symbol s) zeroPage type span, fuel + 1, _ =>
    walkWithin_leaf (h.enter (.cell (.symbol s) zeroPage type span)) rfl rfl
      (h.exit (.cell (.symbol s) zeroPage type span))
  | .cell (.address a) zeroPage type span, fuel + 1, _ =>
    walkWithin_leaf (h.enter (.cell (.address a) zeroPage type span)) rfl rfl
      (h.exit (.cell (.address a) zeroPage type span))
  | .immediate value type span, fuel + 1, _ =>
    walkWithin_leaf (h.enter (.immediate value type span)) rfl rfl (h.exit (.immediate value type span))
  | .returned type span, fuel + 1, _ =>
    walkWithin_leaf (h.enter (.returned type span)) rfl rfl (h.exit (.returned type span))

/-- A walk over a chain of arguments rewrites them one after the other. -/
theorem walk_args (h : Rewrites raw hooks f) : ∀ (args : Args) (n : Node) (fuel : Nat),
    args.node? = some n → n.size ≤ fuel →
    Mirrors raw (walkWithin hooks fuel n) (Args.node? <$> args.mapUp f)
  | .nil, _, _, hn, _ => by simp [Args.node?] at hn
  | _, n, 0, _, hfuel => absurd (Node.size_pos n) (by omega)
  | .cons arg .nil span, n, fuel + 1, hn, hfuel => by
    obtain rfl := Option.some.inj hn
    have ih := walk_expr h arg fuel (Node.size_child_le hfuel List.mem_cons_self)
    rw [Args.mapUp, map_bind]
    refine walkWithin_one (h.args arg none span).1 rfl ih rfl (fun _ => rfl) fun a => ?_
    rw [Args.mapUp, pure_bind, map_pure]
    exact mirrors_keep (h.args a none span).2
  | .cons arg (.cons arg' rest cell) span, n, fuel + 1, hn, hfuel => by
    obtain rfl := Option.some.inj hn
    have ih := walk_expr h arg fuel (Node.size_child_le hfuel List.mem_cons_self)
    have ihr := walk_args h (.cons arg' rest cell) _ fuel rfl
      (Node.size_child_le hfuel (List.mem_cons_of_mem _ List.mem_cons_self))
    conv => rhs; rw [Args.mapUp]
    simp only [map_bind, map_pure]
    refine walkWithin_two (h.args arg (some _) span).1 rfl ih ihr rfl
      (fun _ b => by cases b <;> rfl) fun a b => ?_
    cases b with
    | nil => exact mirrors_keep (h.args a none span).2
    | cons _ _ _ => exact mirrors_keep (h.args a (some _) span).2

end

end Rewrites

end Lode.Program
