/-
# Two ways of computing with literals

The value of a constant is computed by a recursion over its expression.  Arithmetic anywhere else is done by
rules for operations on literals, which are tried at every node on the way up.  The two are separate pieces
of code, with the arithmetic of one operation in common.

On expressions of literals, operations and negations both come to the same number or fail in the same way
(`mapUp_fold`).  That they fail alike is the delicate part: the recursion puts a place to an error where it
catches it, while the rules have it from the node at which they are tried.  An operation that fails does so
at its own place (`applyOperator_located`), and both take operands from left to right, so the first failure
is the same.

The second half is about any tree, not only about those of expressions.  The rules leave no operation on two
literals and no negation of one (`reduced`): a node is tried when its children are done, a child that was an
operation is a literal then or cannot be one, and the literal that is put in place of a node has no parts.
-/
import Lode.Proofs.Pass.Constants
import Lode.Proofs.Program.Everywhere
import Lode.Proofs.Tree.Passing

namespace Lode

open Program

/-! ## 1. Arithmetic -/

/-- Whether an expression has literals, operations and negations only. -/
def Program.Expr.isArithmetic : Expr → Bool
  | .number _ _ _ => true
  | .binop _ lhs rhs _ _ => lhs.isArithmetic && rhs.isArithmetic
  | .neg operand _ _ => operand.isArithmetic
  | _ => false

/-- The type of the first literal of an arithmetic expression. -/
def Program.Expr.leadingType : Expr → Option Ty
  | .number _ type _ => type
  | .binop _ lhs _ _ _ => lhs.leadingType
  | .neg operand _ _ => operand.leadingType
  | _ => none

/-- The literal that an arithmetic expression with a value comes to. -/
def Program.Expr.literal (e : Expr) (value : Int) : Expr := .number value e.leadingType e.node.span

theorem checkWord64_located (n : Int) (span : Span) :
    let checked : Except Error Int :=
      (checkWord64 n).elim (.error (ConstantProblem.overflow.atSpan span)) .ok
    checked.mapError (·.locate span) = checked := by
  cases checkWord64 n <;> rfl

/-- An operation that fails does so at its own place. -/
theorem applyOperator_located (op : String) (lhs rhs : Int) (span : Span) :
    (applyOperator op lhs rhs span).mapError (·.locate span) = applyOperator op lhs rhs span := by
  unfold applyOperator
  split
  · exact checkWord64_located (lhs + rhs) span
  · exact checkWord64_located (lhs - rhs) span
  · exact checkWord64_located (lhs * rhs) span
  · rfl

theorem applyNegation_located (operand : Int) (span : Span) :
    (applyNegation operand span).mapError (·.locate span) = applyNegation operand span :=
  checkWord64_located (-operand) span

namespace FoldArithmetic

theorem fold_binop (op : String) (l r : Int) (lt rt : Option Ty) (place place' : Span) (type : Option Ty)
    (span : Span) : fold (.binop op (.number l lt place) (.number r rt place') type span) =
      (fun value => .number value lt span) <$> applyOperator op l r span := by
  rw [fold, applyOperator_located]

theorem fold_neg (v : Int) (vt : Option Ty) (place : Span) (type : Option Ty) (span : Span) :
    fold (.neg (.number v vt place) type span) =
      (fun value => .number value vt span) <$> applyNegation v span := by
  rw [fold, applyNegation_located]

/-- **The rules compute what the recursion computes.**  Operands come first, from left to right, so both fail
at the same operation. -/
theorem mapUp_fold (scopes : Scopes) : ∀ {fuel : Nat} {e : Expr}, e.isArithmetic = true →
    e.node.size ≤ fuel →
    e.mapUp fold = e.literal <$> EvaluateConstants.evaluateWithin scopes fuel e.node := by
  intro fuel
  induction fuel with
  | zero => exact fun _ hfuel => absurd (Node.size_pos _) (Nat.not_lt_of_le hfuel)
  | succ fuel ih =>
    intro e h hfuel
    cases e with
    | number v type span =>
      rw [EvaluateConstants.evaluateWithin]
      simp only [show (Expr.number v type span).node.tag = .number from rfl, Expr.int?_number]
      rfl
    | binop op lhs rhs type span =>
      obtain ⟨hl, hr⟩ := Bool.and_eq_true_iff.mp h
      have ihl := ih hl (Node.size_child_le hfuel List.mem_cons_self)
      have ihr := ih hr (Node.size_child_le hfuel (List.mem_cons_of_mem _ List.mem_cons_self))
      have hlhs : (Expr.binop op lhs rhs type span).node.child "lhs" = .ok lhs.node := rfl
      have hrhs : (Expr.binop op lhs rhs type span).node.child "rhs" = .ok rhs.node := rfl
      have hop : (Expr.binop op lhs rhs type span).node.textOf "op" = .ok op := rfl
      rw [EvaluateConstants.evaluateWithin, Expr.mapUp, ihl, ihr]
      simp only [show (Expr.binop op lhs rhs type span).node.tag = .binop from rfl, hlhs, hrhs, hop, ok_bind]
      cases EvaluateConstants.evaluateWithin scopes fuel lhs.node with
      | error e => rfl
      | ok l =>
        cases EvaluateConstants.evaluateWithin scopes fuel rhs.node with
        | error e => rfl
        | ok r => exact fold_binop op l r lhs.leadingType rhs.leadingType lhs.node.span rhs.node.span type span
    | neg operand type span =>
      have ih := ih (e := operand) h (Node.size_child_le hfuel List.mem_cons_self)
      have hoperand : (Expr.neg operand type span).node.child "operand" = .ok operand.node := rfl
      rw [EvaluateConstants.evaluateWithin, Expr.mapUp, ih]
      simp only [show (Expr.neg operand type span).node.tag = .neg from rfl, hoperand, ok_bind]
      cases EvaluateConstants.evaluateWithin scopes fuel operand.node with
      | error e => rfl
      | ok v => exact fold_neg v operand.leadingType operand.node.span type span
    | _ => cases h

/-- The pass on an expression. -/
theorem runPass_expr (unit : String) (e : Expr) :
    Compiler.runPass unit e.node pass = Expr.node <$> e.mapUp fold := by
  have hwalk := rewrites.walk_expr e e.node.walkBudget e.node.size_le_walkBudget
  have happly := rules_apply hwalk
  rw [Expr.outcome_mapUp (fun _ : Unit => fold) ()] at happly
  exact happly

/-! ## 2. What is left -/

/-- Whether a node is a literal. -/
def isLiteral (n : Node) : Bool := n.tag == .number

/-- Whether a node is an operation on two literals, or the negation of one. -/
def isReducible (n : Node) : Bool :=
  n.tag == .binop && (n.node? "lhs").any isLiteral && (n.node? "rhs").any isLiteral ||
    n.tag == .neg && (n.node? "operand").any isLiteral

/-- An operation has an operator. -/
def Operated (n : Node) : Prop := n.tag = .binop → ∃ op, n.get? "op" = some (.str op)

/-- A child that is a literal is a node with that tag. -/
theorem exists_literal {n : Node} {name : String} (h : (n.node? name).any isLiteral = true) :
    ∃ m, n.get? name = some (.node m) ∧ m.tag = .number := by
  cases hget : n.get? name with
  | none => simp [Node.node?, hget] at h
  | some v =>
    cases v with
    | node m => exact ⟨m, rfl, by simpa [Node.node?, hget, Value.node?, isLiteral] using h⟩
    | _ => simp [Node.node?, hget, Value.node?] at h

theorem match_literal {m : Node} (h : m.tag = .number) (name : String) (b : Bindings) :
    (Pattern.capture name (.tagged .number [])).match? (.node m) b =
      .ok (some (b.bind name (.value (.node m)))) := by
  rw [Pattern.match?, Pattern.match?_tagged h]
  rfl

/-- An operation on two literals matches. -/
theorem match_operation {n l r : Node} {op : Value} (htag : n.tag = .binop) (hop : n.get? "op" = some op)
    (hlhs : n.get? "lhs" = some (.node l)) (hl : l.tag = .number) (hrhs : n.get? "rhs" = some (.node r))
    (hr : r.tag = .number) : ∃ b, operation.pattern.match? (.node n) [] = .ok (some b) := by
  rw [operation, Pattern.match?_tagged htag]
  simp only [FieldPatterns.ofList]
  rw [FieldPatterns.match?_cons hop rfl, Option.elim_some,
    FieldPatterns.match?_cons hlhs (match_literal hl _ _), Option.elim_some,
    FieldPatterns.match?_cons hrhs (match_literal hr _ _), Option.elim_some]
  exact ⟨_, rfl⟩

/-- The negation of a literal matches. -/
theorem match_negation {n m : Node} (htag : n.tag = .neg) (hoperand : n.get? "operand" = some (.node m))
    (hm : m.tag = .number) : ∃ b, negation.pattern.match? (.node n) [] = .ok (some b) := by
  rw [negation, Pattern.match?_tagged htag]
  simp only [FieldPatterns.ofList]
  rw [FieldPatterns.match?_cons hoperand (match_literal hm _ _), Option.elim_some]
  exact ⟨_, rfl⟩

/-- What the rules do to a node: they put a literal in its place, or they keep it because there is nothing
to compute. -/
theorem apply_cases {n : Node} {verdict : Verdict} (h : rules.apply n = .ok verdict) :
    (∃ value like, verdict = .replace (numberLike value like n.span)) ∨
      verdict = .keep ∧ (Operated n → isReducible n = false) := by
  have h := mapError_eq_ok.mp h
  obtain ⟨left, hoperation, h⟩ := bind_eq_ok.mp h
  cases left with
  | some b =>
    obtain ⟨lhs, -, h⟩ := bind_eq_ok.mp h
    obtain ⟨rhs, -, h⟩ := bind_eq_ok.mp h
    obtain ⟨op, -, h⟩ := bind_eq_ok.mp h
    obtain ⟨value, -, h⟩ := bind_eq_ok.mp h
    exact .inl ⟨value, lhs, (Except.ok.inj h).symm⟩
  | none =>
    obtain ⟨left, hnegation, h⟩ := bind_eq_ok.mp h
    cases left with
    | some b =>
      obtain ⟨operand, -, h⟩ := bind_eq_ok.mp h
      obtain ⟨value, -, h⟩ := bind_eq_ok.mp h
      exact .inl ⟨value, operand, (Except.ok.inj h).symm⟩
    | none =>
      refine .inr ⟨(Except.ok.inj h).symm, fun hoperated => ?_⟩
      by_contra hreducible
      simp only [isReducible, Bool.not_eq_false, Bool.or_eq_true, Bool.and_eq_true, beq_iff_eq] at hreducible
      rcases hreducible with ⟨⟨htag, hl⟩, hr⟩ | ⟨htag, hm⟩
      · obtain ⟨op, hop⟩ := hoperated htag
        obtain ⟨l, hlhs, hl⟩ := exists_literal hl
        obtain ⟨r, hrhs, hr⟩ := exists_literal hr
        obtain ⟨b, hmatch⟩ := match_operation htag hop hlhs hl hrhs hr
        cases hoperation.symm.trans hmatch
      · obtain ⟨m, hoperand, hm⟩ := exists_literal hm
        obtain ⟨b, hmatch⟩ := match_negation htag hoperand hm
        cases hnegation.symm.trans hmatch

/-- A literal has no parts. -/
theorem everywhere_numberLike {P : Node → Prop} (hP : ∀ n : Node, n.tag = .number → P n) (value : Int)
    (like : Node) (span : Span) : (numberLike value like span).Everywhere P := by
  have hleaf : (Node.build .number span [("value", .int value)]).Everywhere P :=
    .build (hP _ rfl) (by simp)
  rw [numberLike]
  cases like.type? "type" with
  | none => exact hleaf
  | some type =>
    cases hleaf with
    | intro _ hfields => exact .set (hP _ rfl) hfields (fun _ hnode => by cases hnode)

/-- **Nothing is left to compute** in a tree after the pass. -/
theorem reduced {unit : String} {tree left : Node}
    (htree : tree.Everywhere fun n => n.fields.ordered = true ∧ Operated n)
    (h : Compiler.runPass unit tree pass = .ok left) :
    left.Everywhere fun n => isReducible n = false := by
  obtain ⟨verdict, hrun, h⟩ := bind_eq_ok.mp h
  obtain rfl := Except.ok.inj h
  obtain ⟨verdict', hwalk, hroot⟩ := bind_eq_ok.mp hrun
  have hexit : ∀ {origin n : Node} {verdict : Verdict} {s s' : Unit}, Operated origin → n.Refills origin →
      (∀ entry ∈ n.fields.nodes, entry.2.Everywhere fun m => isReducible m = false) →
      (rules.hooks.exit n).outcome s = (.ok verdict, s') →
      ∀ left ∈ verdict.apply n, left.Everywhere fun m => isReducible m = false := by
    intro origin n verdict s s' horigin hrefills hchildren hrun left hleft
    rcases apply_cases (Prod.mk.inj hrun).1 with ⟨value, like, rfl⟩ | ⟨rfl, hkept⟩
    · obtain rfl := Option.some.inj hleft
      exact everywhere_numberLike (fun n htag => by simp [isReducible, htag]) value like n.span
    · obtain rfl := Option.some.inj hleft
      refine .intro (hkept fun htag => ?_) hchildren
      obtain ⟨op, hop⟩ := horigin (hrefills.tag.symm.trans htag)
      exact ⟨op, hrefills.plain rfl hop⟩
  have hleft := everywhere_of_exit (fun _ => rfl) hexit htree
    (Prod.ext hwalk rfl : (tree.transform rules.hooks).outcome () = (.ok verdict', _))
  cases verdict' with
  | remove => cases hroot
  | _ =>
    obtain rfl := Except.ok.inj hroot
    exact hleft _ rfl

theorem operated_of_tag {n : Node} (h : n.tag ≠ .binop) : Operated n := fun htag => absurd htag h

/-- The attributes of expressions have their order, and operations have operators. -/
theorem ofExprs_operated : OfExprs fun n => n.fields.ordered = true ∧ Operated n where
  expr e := by
    refine ⟨?_, ?_⟩
    · cases e with
      | number v type span | string v type span | neg v type span | deref v type span => cases type <;> rfl
      | ident name binding type span => cases binding <;> cases type <;> rfl
      | call target args callee type span => cases args <;> cases callee <;> cases type <;> rfl
      | binop op lhs rhs type span => cases type <;> rfl
      | cell place zeroPage type span => cases place <;> rfl
      | _ => rfl
    · cases e with
      | binop op lhs rhs type span => exact fun _ => ⟨op, by cases type <;> rfl⟩
      | cell place zeroPage type span => cases place <;> exact operated_of_tag (by simp [Expr.node, Node.tag])
      | _ => exact operated_of_tag (by simp [Expr.node, Node.tag])
  binding b := by
    obtain ⟨⟨name, symbol, kind, type, mutable, storage⟩, params, span⟩ := b
    refine ⟨?_, operated_of_tag (by simp [Binding.node, Node.tag])⟩
    cases params <;> cases storage <;> rfl
  args args n hn := by
    cases args with
    | nil => cases hn
    | cons arg rest span =>
      obtain rfl := Option.some.inj hn
      refine ⟨?_, operated_of_tag (by simp [Node.tag])⟩
      cases rest <;> rfl

/-- **The two ways agree.**  For an arithmetic expression, the pass leaves a literal with the value that is
computed for a constant, or fails as that computation does; and wherever it ends well, no operation on two
literals and no negation of one is left. -/
theorem folders_agree (unit : String) (scopes : Scopes) :
    (∀ e : Expr, e.isArithmetic = true →
      Compiler.runPass unit e.node pass =
        (fun value => (e.literal value).node) <$> EvaluateConstants.evaluate scopes e.node) ∧
    ∀ tree left : Node, (tree.Everywhere fun n => n.fields.ordered = true ∧ Operated n) →
      Compiler.runPass unit tree pass = .ok left → left.Everywhere fun n => isReducible n = false := by
  refine ⟨fun e he => ?_, fun tree left htree h => reduced htree h⟩
  rw [runPass_expr, mapUp_fold scopes he le_rfl, EvaluateConstants.evaluate]
  cases EvaluateConstants.evaluateWithin scopes e.node.size e.node <;> rfl

/-- Both take `-(1 + 2)` for -3, which leaves nothing to compute. -/
theorem folders_agree_sum :
    let e := Expr.neg (.binop "+" (.number 1 (some (.int 1 false)) .nowhere) (.number 2 none .nowhere) none
      .nowhere) none .nowhere
    EvaluateConstants.evaluate [] e.node = .ok (-3) ∧
      Compiler.runPass "main" e.node pass = .ok (e.literal (-3)).node ∧
      (e.literal (-3)).node.Everywhere fun n => isReducible n = false := by
  intro e
  have hvalue : EvaluateConstants.evaluate [] e.node = .ok (-3) := by rfl
  have hfolded := (folders_agree "main" []).1 e rfl
  rw [hvalue] at hfolded
  exact ⟨hvalue, hfolded, (folders_agree "main" []).2 e.node _ (ofExprs_operated.everywhere_expr e) hfolded⟩

end FoldArithmetic

end Lode
