/-
# Simplified programs

What simplification does to programs.  Its rules are tried on the way down: an expression gives way to what
stands in its brackets, to what zero is taken from, or to the literal that a negated literal is, and the
rules are not tried again on what took its place, only on what is inside of it.

This makes the result depend on how an expression is come upon: afresh, or as what took the place of another
one (`Arrival`).  The function `simple` has this as an argument, and the walk is shown to compute it by a
strong induction on the size of the tree (`simplifies`), because the rules replace an expression by a part
of it that may be several levels down.  No rule looks at anything but expressions and no rule fails, so
simplification is a function on programs (`simplified_node`), and it leaves written programs written
(`written_program`).

Brackets are gone afterwards, unless zero is taken from something in brackets: these stay
(`simplified_brackets`).  The statement is an equivalence.  It speaks of the expressions at which the rules
are tried at all (`Tried`), since brackets in brackets, or behind a sign, are never come upon on their own.
-/
import Lode.Proofs.Language.Trees
import Lode.Proofs.Program.Bindings
import Lode.Proofs.Program.Everywhere
import Lode.Proofs.Program.Scoped

namespace Lode.Simplify

open Program
open Walk (Mirrors)

/-! ## 1. Expressions -/

/-- How an expression is come upon. -/
inductive Arrival where
  /-- The rules are tried. -/
  | fresh
  /-- It stood in brackets, and further brackets fall. -/
  | bare
  /-- It took the place of another one, and no rule is tried. -/
  | placed

/-- Whether an expression is the literal zero. -/
def isZero : Expr → Bool
  | .number value _ _ => value == 0
  | _ => false

mutual

/-- The simplified expression. -/
def simple : Arrival → Expr → Expr
  | _, .number value type span => .number value type span
  | _, .string value type span => .string value type span
  | _, .ident name binding type span => .ident name binding type span
  | _, .member target name span => .member (simple .fresh target) name span
  | _, .intrinsic unit member span => .intrinsic unit member span
  | _, .call target args callee type span =>
    .call (simple .fresh target) (simpleArgs args) callee type span
  | arrival, .binop op lhs rhs type span =>
    match arrival, op == "-" && isZero rhs with
    | .fresh, true => simple .placed lhs
    | _, _ => .binop op (simple .fresh lhs) (simple .fresh rhs) type span
  | arrival, .neg operand type span =>
    match arrival, operand with
    | .fresh, .number value none _ => .number (wrapWord64 (-value)) none span
    | _, _ => .neg (simple .fresh operand) type span
  | _, .deref target type span => .deref (simple .fresh target) type span
  | .placed, .paren inner span => .paren (simple .fresh inner) span
  | _, .paren inner _ => simple .bare inner
  | _, .cell place zeroPage type span => .cell place zeroPage type span
  | _, .immediate value type span => .immediate value type span
  | _, .returned type span => .returned type span

/-- The simplified arguments. -/
def simpleArgs : Args → Args
  | .nil => .nil
  | .cons arg rest span => .cons (simple .fresh arg) (simpleArgs rest) span

end

/-- What stands inside all brackets around an expression. -/
def bare : Expr → Expr
  | .paren inner _ => bare inner
  | e => e

/-- What the rules put in the place of an expression. -/
def head : Expr → Expr
  | .paren inner _ => bare inner
  | .binop op lhs rhs type span =>
    if op == "-" && isZero rhs then lhs else .binop op lhs rhs type span
  | .neg (.number value none _) _ span => .number (wrapWord64 (-value)) none span
  | e => e

/-- The brackets around an expression that is in brackets make no difference. -/
theorem simple_bare : ∀ e : Expr, simple .bare e = simple .placed (bare e)
  | .paren inner _ => simple_bare inner
  | .number _ _ _ | .string _ _ _ | .ident _ _ _ _ | .member _ _ _ | .intrinsic _ _ _
  | .call _ _ _ _ _ | .binop _ _ _ _ _ | .neg _ _ _ | .deref _ _ _ | .cell _ _ _ _
  | .immediate _ _ _ | .returned _ _ => by simp [bare, simple]

/-- The rules are tried once. -/
theorem simple_fresh (e : Expr) : simple .fresh e = simple .placed (head e) := by
  cases e with
  | paren inner span => rw [simple, simple_bare, head]; exact Arrival.noConfusion
  | binop op lhs rhs type span =>
    cases h : op == "-" && isZero rhs <;> simp [simple, head, h]
  | neg operand type span =>
    cases operand with
    | number value type' span' => cases type' <;> simp [simple, head]
    | _ => simp [simple, head]
  | _ => simp [simple, head]

/-- What stands in brackets is no larger. -/
theorem size_bare : ∀ e : Expr, (bare e).node.size ≤ e.node.size
  | .paren inner _ => by
    have := size_bare inner
    simp only [bare, Expr.node, Node.size, Fields.nodeCount]
    omega
  | .number _ _ _ | .string _ _ _ | .ident _ _ _ _ | .member _ _ _ | .intrinsic _ _ _
  | .call _ _ _ _ _ | .binop _ _ _ _ _ | .neg _ _ _ | .deref _ _ _ | .cell _ _ _ _
  | .immediate _ _ _ | .returned _ _ => le_rfl

theorem size_head (e : Expr) : (head e).node.size ≤ e.node.size := by
  cases e with
  | paren inner span =>
    have := size_bare inner
    simp only [head, Expr.node, Node.size, Fields.nodeCount]
    omega
  | binop op lhs rhs type span =>
    simp only [head]
    split
    · simp only [Expr.node, Node.size, Fields.nodeCount]
      omega
    · exact le_rfl
  | neg operand type span =>
    cases operand with
    | number value type' span' =>
      cases type' with
      | none => exact Node.size_pos _
      | some t => exact le_rfl
    | _ => exact le_rfl
  | _ => exact le_rfl

/-! ## 2. The rules -/

/-- The rules leave nodes alone that are neither brackets nor operations. -/
theorem apply_other {n : Node} (hparen : n.tag ≠ .paren) (hbinop : n.tag ≠ .binop)
    (hneg : n.tag ≠ .neg) : rules.apply n = .ok .keep := by
  obtain ⟨tag, fields, span⟩ := n
  have hmiss : ∀ (other : Tag) (patterns : List (String × Pattern)), tag ≠ other →
      (Pattern.tagged other patterns).match? (.node (.mk tag fields span)) [] = .ok none := by
    intro other patterns hne
    rw [Pattern.tagged, Pattern.match?]
    exact if_pos (by simp [Node.tag, hne])
  have hneg' : negatedLiteral.pattern.match? (.node (.mk tag fields span)) [] = .ok none :=
    hmiss _ _ hneg
  simp only [RuleSet.apply, rules, RuleSet.applyRules, nestedParens, parens, minusZero,
    hmiss _ _ hparen, hmiss _ _ hbinop, hneg', ok_bind]
  rfl

/-- The code takes off all brackets at once, with the size of the tree as its budget. -/
theorem unwrapParens_node : ∀ (e : Expr) (fuel : Nat), e.node.size ≤ fuel →
    unwrapParens fuel e.node = (bare e).node
  | e, 0, hfuel => absurd (Node.size_pos e.node) (by omega)
  | .paren inner span, fuel + 1, hfuel =>
    unwrapParens_node inner fuel (Node.size_child_le hfuel List.mem_cons_self)
  | .cell place _ _ _, fuel + 1, _ => by cases place <;> rfl
  | .number _ _ _, fuel + 1, _ | .string _ _ _, fuel + 1, _ | .ident _ _ _ _, fuel + 1, _
  | .member _ _ _, fuel + 1, _ | .intrinsic _ _ _, fuel + 1, _ | .call _ _ _ _ _, fuel + 1, _
  | .binop _ _ _ _ _, fuel + 1, _ | .neg _ _ _, fuel + 1, _ | .deref _ _ _, fuel + 1, _
  | .immediate _ _ _, fuel + 1, _ | .returned _ _, fuel + 1, _ => rfl

/-- The right side of a difference is zero. -/
theorem match_zero (e : Expr) (b : Bindings) :
    (Pattern.tagged .number [("value", .eq (.int 0))]).match? (.node e.node) b =
      .ok (if isZero e then some b else none) := by
  cases e with
  | number value type span =>
    have hget : (Expr.number value type span).node.get? "value" = some (.int value) := by
      cases type <;> rfl
    have htag : (Expr.number value type span).node.tag = .number := rfl
    simp only [Pattern.tagged, Pattern.match?, FieldPatterns.ofList, FieldPatterns.match?, hget, htag,
      isZero]
    by_cases hvalue : value = 0
    · subst hvalue
      rfl
    · simp [hvalue]
      rfl
  | cell place _ _ _ => cases place <;> rfl
  | _ => rfl

/-- A difference gives way to its left side if its right side is zero; no other operation does. -/
theorem apply_binop (op : String) (lhs rhs : Expr) (type : Option Ty) (span : Span) :
    rules.apply (Expr.binop op lhs rhs type span).node =
      .ok (if op == "-" && isZero rhs then .replace lhs.node else .keep) := by
  have hmiss : ∀ patterns : List (String × Pattern), (Pattern.tagged .paren patterns).match?
      (.node (Expr.binop op lhs rhs type span).node) [] = .ok none := fun _ => rfl
  have hneg : negatedLiteral.pattern.match? (.node (Expr.binop op lhs rhs type span).node) [] =
    .ok none := rfl
  have hmatch : minusZero.pattern.match? (.node (Expr.binop op lhs rhs type span).node) [] =
      .ok (if op == "-" && isZero rhs then some [("lhs", .value (.node lhs.node))] else none) := by
    have hzero := match_zero rhs (Bindings.bind [] "lhs" (.value (.node lhs.node)))
    refine (Pattern.match?_tagged rfl _ _).trans ?_
    rw [FieldPatterns.ofList, FieldPatterns.match?_cons (v := .str op) rfl rfl]
    by_cases hop : op = "-"
    · subst hop
      simp only [if_true, Option.elim_some, FieldPatterns.ofList]
      rw [FieldPatterns.match?_cons (v := .node lhs.node) rfl rfl, Option.elim_some,
        FieldPatterns.match?_cons (v := .node rhs.node) rfl hzero]
      cases isZero rhs <;> rfl
    · have hne : Value.str op ≠ Value.str "-" := fun h => hop (Value.str.inj h)
      simp [hop, hne]
  simp only [RuleSet.apply, rules, RuleSet.applyRules, nestedParens, parens, hmiss, ok_bind, hmatch, hneg]
  cases op == "-" && isZero rhs <;> rfl

/-- **What the rules do to an expression.** -/
theorem apply_expr (e : Expr) :
    (fun verdict => verdict.apply e.node) <$> rules.apply e.node = .ok (some (head e).node) := by
  have hother (hparen : e.node.tag ≠ .paren) (hbinop : e.node.tag ≠ .binop)
      (hneg : e.node.tag ≠ .neg) : (fun verdict => verdict.apply e.node) <$> rules.apply e.node =
        .ok (some e.node) := by
    rw [apply_other hparen hbinop hneg]
    rfl
  cases e with
  | paren inner span =>
    cases inner with
    | paren inner' span' =>
      change Except.ok (some (unwrapParens _ (Expr.paren inner' span').node)) = _
      rw [unwrapParens_node (.paren inner' span') _ le_rfl]
      rfl
    | cell place _ _ _ => cases place <;> rfl
    | _ => rfl
  | binop op lhs rhs type span =>
    rw [apply_binop, head]
    cases op == "-" && isZero rhs <;> rfl
  | neg operand type span =>
    cases operand with
    | number value type' span' => cases type' <;> rfl
    | cell place _ _ _ => cases place <;> rfl
    | _ => rfl
  | cell place _ _ _ => cases place <;> exact hother Tag.noConfusion Tag.noConfusion Tag.noConfusion
  | _ => exact hother Tag.noConfusion Tag.noConfusion Tag.noConfusion

theorem enter_other {n : Node} (hparen : n.tag ≠ .paren) (hbinop : n.tag ≠ .binop)
    (hneg : n.tag ≠ .neg) : rules.hooks.enter n = pure .keep := by
  change ExceptT.mk (pure (rules.apply n)) = _
  rw [apply_other hparen hbinop hneg]
  rfl

theorem exit_keep (n : Node) : rules.hooks.exit n = pure .keep := rfl

/-- A walk that neither fails nor looks at anything else. -/
abbrev Leaves (w : Walk Unit (Option Node)) (left : Option Node) : Prop := Mirrors id w (pure left)

theorem leaves_exit (n : Node) : Leaves (settle rules.hooks.exit n) (some n) :=
  mirrors_keep (exit_keep n)

section Few

variable {tag : Tag} {fields : Fields} {span : Span} {fuel : Nat} {name name' name'' : String}
  {child child' child'' m : Node} {left left' left'' : Option Node}

theorem inside_leaf (hnodes : visitOrder fields.nodes = []) (hkept : lostElement tag fields = false) :
    Leaves (walkInside rules.hooks fuel (.mk tag fields span)) (some (.mk tag fields span)) :=
  walkInside_leaf hnodes hkept (leaves_exit _)

theorem inside_one (hchild : Leaves (walkWithin rules.hooks fuel child) left)
    (hnodes : visitOrder fields.nodes = [(name, child)])
    (hkept : lostElement tag (fields.put name left) = false)
    (hm : Node.mk tag (fields.put name left) span = m) :
    Leaves (walkInside rules.hooks fuel (.mk tag fields span)) (some m) := by
  rw [Leaves, ← map_pure (fun _ : Unit => left) ()] at hchild
  have h := walkInside_one hchild hnodes (fun _ => hkept)
    fun _ => leaves_exit (.mk tag (fields.put name left) span)
  rwa [pure_bind, hm] at h

theorem inside_two (hchild : Leaves (walkWithin rules.hooks fuel child) left)
    (hchild' : Leaves (walkWithin rules.hooks fuel child') left')
    (hnodes : visitOrder fields.nodes = [(name, child), (name', child')])
    (hkept : lostElement tag ((fields.put name left).put name' left') = false)
    (hm : Node.mk tag ((fields.put name left).put name' left') span = m) :
    Leaves (walkInside rules.hooks fuel (.mk tag fields span)) (some m) := by
  rw [Leaves, ← map_pure (fun _ : Unit => left) ()] at hchild
  rw [Leaves, ← map_pure (fun _ : Unit => left') ()] at hchild'
  have h := walkInside_two hchild hchild' hnodes (fun _ _ => hkept)
    fun _ _ => leaves_exit (.mk tag ((fields.put name left).put name' left') span)
  rwa [pure_bind, pure_bind, hm] at h

theorem inside_three (hchild : Leaves (walkWithin rules.hooks fuel child) left)
    (hchild' : Leaves (walkWithin rules.hooks fuel child') left')
    (hchild'' : Leaves (walkWithin rules.hooks fuel child'') left'')
    (hnodes : visitOrder fields.nodes = [(name, child), (name', child'), (name'', child'')])
    (hkept : lostElement tag (((fields.put name left).put name' left').put name'' left'') = false)
    (hm : Node.mk tag (((fields.put name left).put name' left').put name'' left'') span = m) :
    Leaves (walkInside rules.hooks fuel (.mk tag fields span)) (some m) := by
  rw [Leaves, ← map_pure (fun _ : Unit => left) ()] at hchild
  rw [Leaves, ← map_pure (fun _ : Unit => left') ()] at hchild'
  rw [Leaves, ← map_pure (fun _ : Unit => left'') ()] at hchild''
  have h := walkInside_three hchild hchild' hchild'' hnodes (fun _ _ _ => hkept)
    fun _ _ _ => leaves_exit (.mk tag (((fields.put name left).put name' left').put name'' left'') span)
  rwa [pure_bind, pure_bind, pure_bind, hm] at h

end Few

/-! ## 3. Walks over expressions -/

/-- The node of an expression is well-formed. -/
theorem Expr.framed_node (e : Expr) : e.node.framed = true := by
  cases e with
  | number _ type _ => cases type <;> rfl
  | string _ type _ => cases type <;> rfl
  | ident _ binding type _ => cases binding <;> cases type <;> rfl
  | call _ args callee type _ => cases args <;> cases callee <;> cases type <;> rfl
  | binop _ _ _ type _ => cases type <;> rfl
  | neg _ type _ => cases type <;> rfl
  | deref _ type _ => cases type <;> rfl
  | cell place _ _ _ => cases place <;> rfl
  | _ => rfl

/-- **One node**: the rules are applied to it, and the walk goes on inside of what they leave. -/
theorem within_enter {n m : Node} {left : Option Node} {fuel : Nat}
    (henter : (fun verdict => verdict.apply n) <$> rules.apply n = .ok (some m))
    (hframed : m.framed = true) (hinside : Leaves (walkInside rules.hooks fuel m) left) :
    Leaves (walkWithin rules.hooks (fuel + 1) n) left := by
  have hsettle : Mirrors id (settle rules.hooks.enter n)
      ((fun _ => some m) <$> (liftM (.ok () : Except Error Unit) : Walk Unit Unit)) :=
    mirrors_lift rfl henter
  have h := walkWithin_enter hsettle (fun _ => hframed) fun _ _ _ _ => hinside
  rwa [Walk.lift_ok, pure_bind] at h

/-- What a walk leaves of expressions of a size. -/
def Simplifies (fuel : Nat) : Prop := ∀ e : Expr, e.node.size ≤ fuel →
  Leaves (walkWithin rules.hooks fuel e.node) (some (simple .fresh e).node)

/-- What a walk leaves of arguments of a size. -/
def SimplifiesArgs (fuel : Nat) : Prop := ∀ (args : Args) (n : Node), args.node? = some n →
  n.size ≤ fuel → Leaves (walkWithin rules.hooks fuel n) (simpleArgs args).node?

/-- Nothing is simplified in a binding. -/
theorem walk_binding (b : Binding) : ∀ {fuel : Nat}, b.node.size ≤ fuel →
    Leaves (walkWithin rules.hooks fuel b.node) (some b.node)
  | 0, hfuel => absurd (Node.size_pos b.node) (by omega)
  | fuel + 1, _ => by
    have henter : rules.hooks.enter b.node = pure .keep :=
      enter_other Tag.noConfusion Tag.noConfusion Tag.noConfusion
    obtain ⟨⟨name, symbol, kind, type, mutable, storage⟩, params, span⟩ := b
    cases params <;> cases storage <;> exact walkWithin_leaf henter rfl rfl (leaves_exit _)

section Inside

variable {fuel : Nat} (hexpr : Simplifies fuel) (hargs : SimplifiesArgs fuel)
include hexpr

include hargs in
/-- The target and the arguments of a call are come upon afresh. -/
theorem walk_call (target : Expr) (args : Args) (callee : Option Binding) (type : Option Ty)
    (span : Span) (hfuel : (Expr.call target args callee type span).node.size ≤ fuel + 1) :
    Leaves (walkInside rules.hooks fuel (Expr.call target args callee type span).node)
      (some (simple .placed (.call target args callee type span)).node) := by
  have hmem : ∀ name n, (name, n) ∈ (Expr.call target args callee type span).node.fields.nodes →
      n.size ≤ fuel := fun _ _ h => Node.size_child_le hfuel h
  rw [simple]
  cases args with
  | nil =>
    cases callee with
    | none =>
      have ht := hexpr target (hmem "target" _ List.mem_cons_self)
      cases type <;> exact inside_one ht rfl rfl rfl
    | some b =>
      have hb := walk_binding b (hmem "callee" _ List.mem_cons_self)
      have ht := hexpr target (hmem "target" _ (List.mem_cons_of_mem _ List.mem_cons_self))
      cases type <;> exact inside_two hb ht rfl rfl rfl
  | cons arg rest cell =>
    have ha := hargs (.cons arg rest cell) _ rfl (hmem "args" _ List.mem_cons_self)
    cases callee with
    | none =>
      have ht := hexpr target (hmem "target" _ (List.mem_cons_of_mem _ List.mem_cons_self))
      cases type <;> exact inside_two ha ht rfl rfl rfl
    | some b =>
      have hb := walk_binding b (hmem "callee" _ (List.mem_cons_of_mem _ List.mem_cons_self))
      have ht := hexpr target (hmem "target" _
        (List.mem_cons_of_mem _ (List.mem_cons_of_mem _ List.mem_cons_self)))
      cases type <;> exact inside_three ha hb ht rfl rfl rfl

include hargs in
/-- Inside an expression that took the place of another one. -/
theorem walk_inside (e : Expr) (hfuel : e.node.size ≤ fuel + 1) :
    Leaves (walkInside rules.hooks fuel e.node) (some (simple .placed e).node) := by
  cases e with
  | number value type span => cases type <;> exact inside_leaf rfl rfl
  | string value type span => cases type <;> exact inside_leaf rfl rfl
  | ident name binding type span =>
    cases binding with
    | none => cases type <;> exact inside_leaf rfl rfl
    | some b =>
      have hb := walk_binding b (Node.size_child_le hfuel List.mem_cons_self)
      cases type <;> exact inside_one hb rfl rfl rfl
  | member target name span =>
    exact inside_one (hexpr target (Node.size_child_le hfuel List.mem_cons_self)) rfl rfl rfl
  | intrinsic unit member span => exact inside_leaf rfl rfl
  | call target args callee type span => exact walk_call hexpr hargs target args callee type span hfuel
  | binop op lhs rhs type span =>
    have hl := hexpr lhs (Node.size_child_le hfuel List.mem_cons_self)
    have hr := hexpr rhs (Node.size_child_le hfuel (List.mem_cons_of_mem _ List.mem_cons_self))
    cases type <;> exact inside_two hl hr rfl rfl rfl
  | neg operand type span =>
    have ho := hexpr operand (Node.size_child_le hfuel List.mem_cons_self)
    cases type <;> exact inside_one ho rfl rfl rfl
  | deref target type span =>
    have ht := hexpr target (Node.size_child_le hfuel List.mem_cons_self)
    cases type <;> exact inside_one ht rfl rfl rfl
  | paren inner span =>
    exact inside_one (hexpr inner (Node.size_child_le hfuel List.mem_cons_self)) rfl rfl rfl
  | cell place zeroPage type span => cases place <;> exact inside_leaf rfl rfl
  | immediate value type span => exact inside_leaf rfl rfl
  | returned type span => exact inside_leaf rfl rfl

include hargs in
/-- The arguments of a call, from the first to the last. -/
theorem walk_args {args : Args} {n : Node} (hn : args.node? = some n) (hfuel : n.size ≤ fuel + 1) :
    Leaves (walkWithin rules.hooks (fuel + 1) n) (simpleArgs args).node? := by
  cases args with
  | nil => cases hn
  | cons arg rest span =>
    obtain rfl := Option.some.inj hn
    have ha := hexpr arg (Node.size_child_le hfuel List.mem_cons_self)
    have henter := enter_other (n := .mk .args (.cons "arg" (.node arg.node)
      (.optional "next" (rest.node?.map .node) .nil)) span) Tag.noConfusion Tag.noConfusion Tag.noConfusion
    cases rest with
    | nil => exact walkWithin_pass henter rfl (inside_one ha rfl rfl rfl)
    | cons arg' rest' span' =>
      have hr := hargs (.cons arg' rest' span') _ rfl
        (Node.size_child_le hfuel (List.mem_cons_of_mem _ List.mem_cons_self))
      exact walkWithin_pass henter rfl (inside_two ha hr rfl rfl rfl)

end Inside

/-- **Expressions and arguments.** -/
theorem simplifies : ∀ fuel : Nat, Simplifies fuel ∧ SimplifiesArgs fuel
  | 0 => ⟨fun e hfuel => absurd (Node.size_pos e.node) (by omega),
      fun _ n _ hfuel => absurd (Node.size_pos n) (by omega)⟩
  | fuel + 1 => by
    obtain ⟨hexpr, hargs⟩ := simplifies fuel
    refine ⟨fun e hfuel => ?_, fun args n hn hfuel => walk_args hexpr hargs hn hfuel⟩
    rw [simple_fresh]
    exact within_enter (apply_expr e) (Expr.framed_node _)
      (walk_inside hexpr hargs (head e) ((size_head e).trans hfuel))

/-! ## 4. Programs -/

/-- What simplification does to the parts of a program. -/
def visitor : Visitor Unit where
  expr e := pure (simple .fresh e)

/-- **The pass is the visitor.** -/
theorem visits : Visits id rules.hooks visitor where
  pass part _ := by
    have hother := fun h h' h'' => enter_other (n := part.node) h h' h''
    cases part with
    | type t => cases t <;> exact hother Tag.noConfusion Tag.noConfusion Tag.noConfusion
    | stmt s h =>
      cases s with
      | expr e => cases h
      | _ => exact hother Tag.noConfusion Tag.noConfusion Tag.noConfusion
    | _ => exact hother Tag.noConfusion Tag.noConfusion Tag.noConfusion
  enterScope _ _ _ _ := mirrors_keep (enter_other Tag.noConfusion Tag.noConfusion Tag.noConfusion)
  enterFunction _ := mirrors_keep (enter_other Tag.noConfusion Tag.noConfusion Tag.noConfusion)
  enterUnit _ := mirrors_keep (enter_other Tag.noConfusion Tag.noConfusion Tag.noConfusion)
  exit part := by cases part <;> exact leaves_exit _
  expr e fuel hfuel := (simplifies fuel).1 e hfuel

/-- The simplified declaration. -/
def simpleLet (d : Let) : Let := { d with value := simple .fresh d.value }

mutual

/-- The simplified statement. -/
def simpleStmt : Stmt → Stmt
  | .decl d => .decl (simpleLet d)
  | .set lvalue rvalue type span => .set (simple .fresh lvalue) (simple .fresh rvalue) type span
  | .ret value type span => .ret (value.map (simple .fresh)) type span
  | .expr e => .expr (simple .fresh e)
  | .scope decl body frame span => .scope (simpleStmt decl) (simpleStmts body) frame span
  | .load operand width span => .load (simple .fresh operand) width span
  | .store operand width span => .store (simple .fresh operand) width span
  | .arith op operand width span => .arith op (simple .fresh operand) width span
  | s => s

/-- The simplified statements. -/
def simpleStmts : Stmts → Stmts
  | .nil => .nil
  | .cons stmt rest span => .cons (simpleStmt stmt) (simpleStmts rest) span

end

/-- The simplified item. -/
def simpleItem : Program.Item → Program.Item
  | .constant name ty value symbol span => .constant name ty (simple .fresh value) symbol span
  | .global s => .global (simpleStmt s)
  | .function f => .function { f with body := simpleStmts f.body }
  | i => i

/-- The simplified program. -/
def program (p : Program) : Program :=
  { p with items := p.items.map fun entry => (simpleItem entry.1, entry.2) }

mutual

/-- A statement is simplified part by part. No step fails, so the walk is a pure function. -/
theorem mapUp_stmt : ∀ s : Stmt, s.mapUp visitor = pure (simpleStmt s)
  | .decl d => by simp [Stmt.mapUp, Let.mapUp, visitor, TypeExpr.mapUp_pure, simpleStmt, simpleLet]
  | .scope decl body frame span => by
    rw [Stmt.mapUp, mapUp_stmt decl, mapUp_stmts body]
    simp [visitor, simpleStmt]
  | .ret none _ _ | .ret (some _) _ _ | .set _ _ _ _ | .expr _ | .data _ | .load _ _ _
  | .store _ _ _ | .arith _ _ _ _ | .jump _ _ | .rts _ | .code _ _ => by
    simp [Stmt.mapUp, visitor, simpleStmt]

theorem mapUp_stmts : ∀ stmts : Stmts, stmts.mapUp visitor = pure (simpleStmts stmts)
  | .nil => rfl
  | .cons stmt rest span => by
    rw [Stmts.mapUp, mapUp_stmt stmt, pure_bind, mapUp_stmts rest, pure_bind]
    rfl

end

theorem mapUp_item : ∀ i : Program.Item, i.mapUp visitor = pure (some (simpleItem i))
  | .use _ _ | .compiled _ _ _ _ _ => rfl
  | .constant _ _ _ _ _ => by simp [Item.mapUp, visitor, TypeExpr.mapUp_pure, simpleItem]
  | .global s => by
    rw [Item.mapUp, mapUp_stmt s]
    rfl
  | .function f => by
    rw [Item.mapUp, Function.mapUp, Params.mapUp_pure rfl, visitResult_pure rfl, mapUp_stmts]
    rfl

theorem mapUp_items : ∀ items : Items,
    Items.mapUp visitor items = pure (items.map fun entry => (simpleItem entry.1, entry.2))
  | [] => rfl
  | entry :: rest => by
    rw [Items.mapUp, mapUp_item, pure_bind, mapUp_items rest, pure_bind]
    rfl

/-- **Simplification never fails, and leaves the tree of the simplified program.** -/
theorem simplified_node (p : Program) : Compiler.simplified p.node = .ok (program p).node := by
  have henter : visitor.enterUnit p = pure p := rfl
  have h := rules_apply (walk_budget visits p (size_of_enterUnit_pure rfl p))
  rw [Program.mapUp, henter, pure_bind, mapUp_items] at h
  exact h

/-! ## 5. Written programs -/

theorem wrapWord64_neg {value : Int} (h : IsLiteral value) : wrapWord64 (-value) = -value := by
  obtain ⟨hlow, hhigh⟩ := h
  exact Int.bmod_eq_of_le (by omega) (by omega)

theorem isPostfix_simple (arrival : Arrival) {e : Expr} (h : e.isPostfix = true) :
    (simple arrival e).isPostfix = true := by
  cases e with
  | ident _ _ _ _ | member _ _ _ | call _ _ _ _ _ => simp [simple, Expr.isPostfix]
  | _ => cases h

mutual

/-- A simplified expression can be written. -/
theorem written_simple (arrival : Arrival) : ∀ {e : Expr}, e.Written → (simple arrival e).Written
  | .number _ _ _, h | .string _ _ _, h | .ident _ _ _ _, h => by simpa [simple] using h
  | .member _ _ _, ⟨hpost, ht⟩ => by
    simp only [simple]
    exact ⟨isPostfix_simple .fresh hpost, written_simple .fresh ht⟩
  | .call _ _ _ _ _, ⟨hpost, ht, hargs, h⟩ => by
    simp only [simple]
    exact ⟨isPostfix_simple .fresh hpost, written_simple .fresh ht, written_simpleArgs hargs, h⟩
  | .binop _ _ _ _ _, ⟨hl, hr, h⟩ => by
    have hsame := And.intro (written_simple .fresh hl) (And.intro (written_simple .fresh hr) h)
    simp only [simple]
    split
    · exact written_simple .placed hl
    · exact hsame
  | .neg operand _ _, ⟨ho, h⟩ => by
    have hsame := And.intro (written_simple .fresh ho) h
    simp only [simple]
    split
    · obtain ⟨hlow, hhigh⟩ := ho.2
      refine ⟨rfl, ?_⟩
      rw [wrapWord64_neg ho.2]
      exact ⟨by omega, by omega⟩
    · exact hsame
  | .deref _ _ _, ⟨ht, h⟩ => by
    simp only [simple]
    exact ⟨written_simple .fresh ht, h⟩
  | .paren inner _, h => by
    cases arrival <;> simp only [simple]
    · exact written_simple .bare (show inner.Written from h)
    · exact written_simple .bare (show inner.Written from h)
    · exact written_simple .fresh (show inner.Written from h)

theorem written_simpleArgs : ∀ {args : Args}, args.Written → (simpleArgs args).Written
  | .nil, _ => trivial
  | .cons _ _ _, ⟨harg, hrest⟩ => ⟨written_simple .fresh harg, written_simpleArgs hrest⟩

end

theorem written_simpleLet {d : Let} (h : d.Written) : (simpleLet d).Written where
  name := h.name
  ty := h.ty
  value := written_simple .fresh h.value
  symbol := h.symbol
  place := h.place
  type := h.type

theorem written_simpleStmt {s : Stmt} (h : s.Written) : (simpleStmt s).Written := by
  cases s with
  | decl d => exact written_simpleLet h
  | set _ _ _ _ => exact ⟨written_simple .fresh h.1, written_simple .fresh h.2.1, h.2.2⟩
  | ret value _ _ =>
    refine ⟨fun e he => ?_, h.2⟩
    obtain ⟨e', he', rfl⟩ := Option.mem_map.mp he
    exact written_simple .fresh (h.1 e' he')
  | expr e => exact written_simple .fresh (show e.Written from h)
  | _ => cases h

theorem toList_simpleStmts : ∀ stmts : Stmts, (simpleStmts stmts).toList = stmts.toList.map simpleStmt
  | .nil => rfl
  | .cons _ rest _ => by rw [simpleStmts, Stmts.toList, toList_simpleStmts rest]; rfl

theorem written_simpleItem {i : Program.Item} (h : i.Written) : (simpleItem i).Written := by
  cases i with
  | use _ _ => exact h
  | constant _ _ _ _ _ => exact ⟨h.1, written_simple .fresh h.2.1, h.2.2⟩
  | global s =>
    cases s with
    | decl d => exact written_simpleLet (show d.Written from h)
    | _ => cases h
  | function f =>
    refine ⟨h.name, h.params, fun s hs => ?_, h.symbol, h.type, h.locals, h.frame⟩
    simp only [toList_simpleStmts, List.mem_map] at hs
    obtain ⟨s', hs', rfl⟩ := hs
    exact written_simpleStmt (h.body s' hs')
  | compiled _ _ _ _ _ => cases h

/-- **Simplified programs are written programs.** -/
theorem written_program {p : Program} (h : p.Written) : (program p).Written where
  items i hi := by
    simp only [program, List.map_map, List.mem_map] at hi
    obtain ⟨entry, hentry, rfl⟩ := hi
    exact written_simpleItem (h.items _ (List.mem_map_of_mem hentry))
  frame := h.frame

/-! ## 6. Brackets that stay -/

/-- A node that is no pair of brackets. -/
def Unbracketed (n : Node) : Prop := n.tag ≠ .paren

/-- What an expression is made of. -/
def operands : Expr → List Expr
  | .member target _ _ | .deref target _ _ => [target]
  | .call target args _ _ _ => target :: args.toList
  | .binop _ lhs rhs _ _ => [lhs, rhs]
  | .neg operand _ _ => [operand]
  | .paren inner _ => [inner]
  | .number _ _ _ | .string _ _ _ | .ident _ _ _ _ | .intrinsic _ _ _ | .cell _ _ _ _ | .immediate _ _ _
  | .returned _ _ => []

/-- The expressions at which the rules are tried: an expression, and what is inside of what takes its place. -/
inductive Tried : Expr → Expr → Prop
  | here (e : Expr) : Tried e e
  | inside {e c e' : Expr} : c ∈ operands (head e) → Tried c e' → Tried e e'

/-- Zero is taken from something in brackets. -/
def Shelters : Expr → Prop
  | .binop op lhs rhs _ _ => op = "-" ∧ isZero rhs = true ∧ lhs.node.tag = .paren
  | _ => False

/-- Inside all brackets there are no brackets around. -/
theorem tag_bare_ne : ∀ e : Expr, (bare e).node.tag ≠ .paren
  | .paren inner _ => tag_bare_ne inner
  | .cell place _ _ _ => by cases place <;> exact Tag.noConfusion
  | .number _ _ _ | .string _ _ _ | .ident _ _ _ _ | .member _ _ _ | .intrinsic _ _ _
  | .call _ _ _ _ _ | .binop _ _ _ _ _ | .neg _ _ _ | .deref _ _ _
  | .immediate _ _ _ | .returned _ _ => Tag.noConfusion

/-- In one case only do the rules put brackets in the place of an expression. -/
theorem tag_head_eq_paren {e : Expr} : (head e).node.tag = .paren ↔ Shelters e := by
  cases e with
  | paren inner span => exact iff_of_false (tag_bare_ne inner) id
  | binop op lhs rhs type span =>
    rw [head, Shelters]
    split
    · rename_i h
      obtain ⟨hop, hzero⟩ := Bool.and_eq_true_iff.mp h
      exact ⟨fun hparen => ⟨eq_of_beq hop, hzero, hparen⟩, fun hparen => hparen.2.2⟩
    · rename_i h
      refine iff_of_false Tag.noConfusion fun ⟨hop, hzero, _⟩ => h ?_
      rw [hop, hzero, beq_self_eq_true, Bool.and_self]
  | neg operand type span =>
    cases operand with
    | number value type' span' => cases type' <;> exact iff_of_false Tag.noConfusion id
    | _ => exact iff_of_false Tag.noConfusion id
  | cell place _ _ _ => cases place <;> exact iff_of_false Tag.noConfusion id
  | _ => exact iff_of_false Tag.noConfusion id

theorem toList_simpleArgs (args : Args) : (simpleArgs args).toList = args.toList.map (simple .fresh) := by
  induction args using Args.toList.induct with
  | case1 => rfl
  | case2 arg rest span ih => rw [simpleArgs, Args.toList, Args.toList, ih, List.map_cons]

/-- An expression that no rule is tried at keeps its form, and the rules are tried inside of it. -/
theorem simple_placed (e : Expr) : (simple .placed e).node.tag = e.node.tag ∧
    operands (simple .placed e) = (operands e).map (simple .fresh) := by
  cases e with
  | cell place _ _ _ => cases place <;> exact ⟨rfl, rfl⟩
  | call target args callee type span => exact ⟨rfl, congrArg _ (toList_simpleArgs args)⟩
  | _ => simp [simple, operands, Expr.node, Node.tag]

theorem everywhere_binding (b : Binding) : b.node.Everywhere Unbracketed :=
  Node.everywhere_mk.mpr ⟨Tag.noConfusion, by simp⟩

theorem everywhere_args (args : Args) : (∀ n, args.node? = some n → n.Everywhere Unbracketed) ↔
    ∀ c ∈ args.toList, c.node.Everywhere Unbracketed := by
  induction args using Args.toList.induct with
  | case1 => simp [Args.node?, Args.toList]
  | case2 arg rest span ih => simp [Args.node?, Args.toList, Node.everywhere_mk, Unbracketed, Node.tag, ih]

/-- The brackets of an expression are the expression itself and those of its operands. -/
theorem everywhere_expr (e : Expr) : e.node.Everywhere Unbracketed ↔
    e.node.tag ≠ .paren ∧ ∀ c ∈ operands e, c.node.Everywhere Unbracketed := by
  cases e with
  | cell place _ _ _ => cases place <;> simp [Expr.node, Node.everywhere_mk, Unbracketed, operands, Node.tag]
  | call target args callee type span =>
    simp [Expr.node, Node.everywhere_mk, Unbracketed, operands, Node.tag, everywhere_binding,
      everywhere_args, and_comm]
  | _ => simp [Expr.node, Node.everywhere_mk, Unbracketed, operands, Node.tag, everywhere_binding]

/-- An operand is smaller than the expression. -/
theorem size_operand {e c : Expr} (hc : c ∈ operands e) : c.node.size < e.node.size := by
  cases e with
  | call target args callee type span =>
    rcases List.mem_cons.mp hc with rfl | hc
    · have hchild : ("target", c.node) ∈ (Expr.call c args callee type span).node.fields.nodes := by
        cases args <;> cases callee <;> simp [Expr.node, Args.node?, Node.fields, Fields.nodes, Fields.optional]
      exact Node.size_child_lt hchild
    · cases args with
      | nil => cases hc
      | cons arg rest span' => exact (Args.size_lt rfl hc).trans (Node.size_child_lt List.mem_cons_self)
  | binop op lhs rhs type span =>
    rcases List.mem_cons.mp hc with rfl | hc
    · exact Node.size_child_lt List.mem_cons_self
    · obtain rfl := List.mem_singleton.mp hc
      exact Node.size_child_lt (List.mem_cons_of_mem _ List.mem_cons_self)
  | member _ _ _ | deref _ _ _ | neg _ _ _ | paren _ _ =>
    obtain rfl := List.mem_singleton.mp hc
    exact Node.size_child_lt List.mem_cons_self
  | _ => cases hc

/-- **Brackets stay where zero is taken from something in brackets**, and nowhere else. -/
theorem everywhere_simple (e : Expr) : (simple .fresh e).node.Everywhere Unbracketed ↔
    ∀ e', Tried e e' → ¬ Shelters e' := by
  obtain ⟨htag, hoperands⟩ := simple_placed (head e)
  rw [simple_fresh, everywhere_expr, htag, hoperands, List.forall_mem_map, Ne, tag_head_eq_paren]
  have ih : ∀ c ∈ operands (head e), (simple .fresh c).node.Everywhere Unbracketed ↔
      ∀ e', Tried c e' → ¬ Shelters e' := fun c hc =>
    have : c.node.size < e.node.size := (size_operand hc).trans_le (size_head e)
    everywhere_simple c
  constructor
  · rintro ⟨hroot, hinside⟩ e' (_ | ⟨hc, htried⟩)
    · exact hroot
    · exact (ih _ hc).mp (hinside _ hc) e' htried
  · intro h
    exact ⟨h e (.here e), fun c hc => (ih c hc).mpr fun e' htried => h e' (.inside hc htried)⟩
termination_by e.node.size

/-! ## 7. Programs with brackets -/

theorem everywhere_type (t : TypeExpr) : t.node.Everywhere Unbracketed :=
  TypeExpr.everywhere (fun t => by cases t <;> exact Tag.noConfusion) t

theorem everywhere_stmt {s : Stmt} (h : s.Written) : s.node.Everywhere Unbracketed ↔
    ∀ e ∈ s.parts, e.node.Everywhere Unbracketed := by
  cases s with
  | ret value type span =>
    cases value <;>
      simp [Stmt.node, Stmt.parts, Stmt.exprs, Node.everywhere_mk, Unbracketed, Node.tag]
  | decl d =>
    simp [Stmt.node, Let.node, Stmt.parts, Node.everywhere_mk, Unbracketed, Node.tag, everywhere_type]
  | set _ _ _ _ | expr _ =>
    simp [Stmt.node, Stmt.parts, Stmt.exprs, Node.everywhere_mk, Unbracketed, Node.tag]
  | _ => cases h

theorem everywhere_stmts : ∀ {stmts : Stmts}, stmts.Written →
    ((∀ n, stmts.node? = some n → n.Everywhere Unbracketed) ↔
      ∀ e ∈ stmts.toList.flatMap Stmt.parts, e.node.Everywhere Unbracketed)
  | .nil, _ => by simp [Stmts.node?, Stmts.toList]
  | .cons stmt rest span, h => by
    obtain ⟨hs, hr⟩ := List.forall_mem_cons.mp h
    have ih := everywhere_stmts hr
    simp only [Stmts.toList, List.flatMap_cons, List.forall_mem_append, ← ih, ← everywhere_stmt hs]
    simp [Stmts.node?, Node.everywhere_mk, Unbracketed, Node.tag, and_comm]

/-- The expressions of an item. -/
def itemParts : Program.Item → List Expr
  | .constant _ _ value _ _ => [value]
  | .global s => s.parts
  | .function f => f.body.toList.flatMap Stmt.parts
  | .use _ _ | .compiled _ _ _ _ _ => []

theorem everywhere_params : ∀ params : Params, ∀ n, params.node? = some n → n.Everywhere Unbracketed
  | [], n, hn => by cases hn
  | entry :: rest, n, hn => by
    have hrest := everywhere_params rest
    obtain rfl := Option.some.inj hn
    simpa [Node.everywhere_mk, Unbracketed, Node.tag, Param.node, everywhere_type] using hrest

theorem everywhere_item {i : Program.Item} (h : i.Written) : i.node.Everywhere Unbracketed ↔
    ∀ e ∈ itemParts i, e.node.Everywhere Unbracketed := by
  cases i with
  | use name span => simp [Item.node, itemParts, Node.everywhere_mk, Unbracketed, Node.tag]
  | constant name ty value symbol span =>
    simp [Item.node, itemParts, Node.everywhere_mk, Unbracketed, Node.tag, everywhere_type]
  | global s =>
    cases s with
    | decl d => exact everywhere_stmt (show (Stmt.decl d).Written from h)
    | _ => cases h
  | function f =>
    rw [itemParts, ← everywhere_stmts h.body]
    simpa [Item.node, Function.node, Node.everywhere_mk, Unbracketed, Node.tag, everywhere_type, h.locals,
      h.frame, tableValue] using fun _ => everywhere_params f.params
  | compiled _ _ _ _ _ => cases h

/-- The brackets of all items are those of their expressions. -/
theorem everywhere_items : ∀ {items : Items}, (∀ i ∈ items.map Prod.fst, i.Written) →
    ((∀ n, Items.node? items = some n → n.Everywhere Unbracketed) ↔
      ∀ e ∈ (items.map Prod.fst).flatMap itemParts, e.node.Everywhere Unbracketed)
  | [], _ => by simp [Items.node?]
  | entry :: rest, h => by
    obtain ⟨hi, hr⟩ := List.forall_mem_cons.mp h
    have ih := everywhere_items hr
    rw [List.map_cons, List.flatMap_cons, List.forall_mem_append, ← ih, ← everywhere_item hi]
    simp [Items.node?, Node.everywhere_mk, Unbracketed, Node.tag]

theorem everywhere_program {p : Program} (h : p.Written) : p.node.Everywhere Unbracketed ↔
    ∀ e ∈ (p.items.map Prod.fst).flatMap itemParts, e.node.Everywhere Unbracketed := by
  rw [← everywhere_items h.items]
  simp [Program.node, Node.everywhere_mk, Unbracketed, Node.tag, tableValue]

theorem parts_simpleStmt {s : Stmt} (h : s.Written) : (simpleStmt s).parts = s.parts.map (simple .fresh) := by
  cases s with
  | ret value _ _ => cases value <;> rfl
  | decl _ | set _ _ _ _ | expr _ => rfl
  | _ => cases h

theorem itemParts_simpleItem {i : Program.Item} (h : i.Written) :
    itemParts (simpleItem i) = (itemParts i).map (simple .fresh) := by
  cases i with
  | global s =>
    cases s with
    | decl d => rfl
    | _ => cases h
  | function f =>
    simp only [simpleItem, itemParts, toList_simpleStmts, List.flatMap_map, List.map_flatMap]
    exact List.flatMap_congr fun s hs => parts_simpleStmt (h.body s hs)
  | _ => rfl

/-- **Simplification leaves no brackets, unless zero is taken from something in brackets.**  The brackets of
such a difference take its place, and stay; those of what stands elsewhere go. -/
theorem simplified_brackets (text : String) :
    match Language.read text with
    | .error _ => True
    | .ok tree => ∃ (p : Program) (left : Node), p.Written ∧ tree = p.node ∧
        Compiler.simplified tree = .ok left ∧
        ((left.Everywhere fun n => n.tag ≠ .paren) ↔
          ∀ e ∈ (p.items.map Prod.fst).flatMap itemParts, ∀ e', Tried e e' → ¬ Shelters e') := by
  cases hread : Language.read text with
  | error e => trivial
  | ok tree =>
    obtain ⟨p, hwritten, rfl⟩ := Language.read_written hread
    refine ⟨p, _, hwritten, rfl, simplified_node p, ?_⟩
    have hparts : ((program p).items.map Prod.fst).flatMap itemParts =
        ((p.items.map Prod.fst).flatMap itemParts).map (simple .fresh) := by
      rw [program, List.map_flatMap, List.map_map, List.flatMap_map, List.flatMap_map]
      exact List.flatMap_congr fun entry hentry =>
        itemParts_simpleItem (hwritten.items _ (List.mem_map_of_mem hentry))
    refine (everywhere_program (written_program hwritten)).trans ?_
    rw [hparts, List.forall_mem_map]
    exact forall₂_congr fun e _ => everywhere_simple e

/-- The brackets around the number in `(1) - 0` stay. -/
example : simple .fresh (.binop "-" (.paren (.number 1 none .nowhere) .nowhere) (.number 0 none .nowhere) none
    .nowhere) = .paren (.number 1 none .nowhere) .nowhere := by
  simp [simple, isZero]

end Lode.Simplify
