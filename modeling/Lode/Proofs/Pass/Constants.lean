/-
# Constants and literal arithmetic

The passes that compute, as visitors of programs: the calls of intrinsics get their values and constants are
recorded in the frame of their scope (section 1), the names of constants are replaced by these (section 2),
and operations on literals are folded (section 3).  Wherever one of them computes, it leaves a literal.

What the rest of the development needs of all three is little, and the same.  An expression stays linked,
because a literal mentions no symbol (`evaluateCall_staysLinked`, `resolve_staysLinked`,
`fold_staysLinked`).  Each pass is steady: it changes expressions one by one, from the inside out, and
nothing else about declarations and statements (`steady`).  From these two facts the results on whole
programs follow by a general lemma: expressions of the program after the pass are those before, rewritten
(`related`), and a bound program stays bound (`bound`).

Only the first pass removes something, the declarations of constants, and they leave their values in the
frames. That the values are right is proved elsewhere; here they only have to be literals.
-/
import Lode.Proofs.Pass.Binding

namespace Lode

open Program

/-! ## 1. Computing constants -/

namespace EvaluateConstants

/-- The literal that a node is. -/
def literalOf (n : Node) : Expr := .number ((n.int? "value").getD 0) (n.type? "type") n.span

/-- The call of an intrinsic has its value. -/
def evaluateCall (s : Nested Unit) : Expr → Except Error Expr
  | .call (.intrinsic u name _) args _ _ span =>
    match u.member? name with
    | none => .error (InternalProblem.noMember u.name name).error
    | some member => do
      let numbers ← evaluateArguments s.frames.raw (args.toList.map Expr.node)
      literalOf <$> member.evaluate numbers span
  | e => .ok e

/-- A constant is recorded and removed. -/
def recordConstant : Program.Item → Walk (Nested Unit) (Option Program.Item)
  | .constant name ty value _ span => do
    let state ← get
    let computed ← evaluate state.frames.raw value.node
    let type ← BindNames.knownType .constant ty span
    if !type.fits computed then throw ((ConstantProblem.range computed type).atSpan value.node.span)
    set { state with frames := state.frames.define name ⟨computed, type, value.node.span⟩ }
    return none
  | i => pure (some i)

/-- What the pass does to the parts of a program, frames apart. -/
def inner : Visitor (Nested Unit) where
  expr := Expr.mapUp fun e => Walk.reading (evaluateCall · e)
  item := recordConstant

/-- The value of a member of a unit is a literal. -/
theorem member_literal {u : IntrinsicUnit} {name : String} {member : IntrinsicMember}
    (h : u.member? name = some member) {numbers : List Node} {span : Span} {n : Node}
    (hn : member.evaluate numbers span = .ok n) : (literalOf n).node = n := by
  have hmem := List.mem_of_find?_eq_some h
  have hword : ∃ name result compute, member = Intrinsic.wordMember name result compute := by
    cases u
    simp only [IntrinsicUnit.members, Intrinsic.memMembers, List.mem_cons, List.not_mem_nil,
      or_false] at hmem
    rcases hmem with rfl | rfl | rfl | rfl <;> exact ⟨_, _, _, rfl⟩
  obtain ⟨name, result, compute, rfl⟩ := hword
  obtain ⟨value, _, hn⟩ := bind_eq_ok.mp hn
  obtain rfl := Except.ok.inj hn
  rfl

/-- Leaving a call puts its value in its place, if the target is an intrinsic. -/
theorem exitCall_node (target : Expr) (args : Args) (callee : Option Binding) (type : Option Ty)
    (span : Span) :
    Walk.Mirrors Nested.raw (settle hooks.exit (Expr.call target args callee type span).node)
      ((fun e => some e.node) <$> Walk.reading (evaluateCall · (.call target args callee type span))) := by
  intro s
  change (settle exitCall _).outcome s.raw = _
  have hchild : (Expr.call target args callee type span).node.child "target" = .ok target.node := by
    simp [Node.child, Node.node?, Node.get?, Expr.node, Node.fields, Fields.get?_optional,
      Fields.get?, Value.node?]
  simp only [settle, exitCall, hchild, Walk.outcome_map, Walk.outcome_bind, Walk.outcome_lift,
    Walk.andThen_ok, Walk.outcome_reading, Expr.elementsOf_args]
  cases target with
  | intrinsic u name place =>
    have hunit : (Expr.intrinsic u name place).node.unit? "unit" = some u := rfl
    have hmember : (Expr.intrinsic u name place).node.textOf "member" = .ok name := rfl
    have htag : (Expr.intrinsic u name place).node.tag = .intrinsic := rfl
    simp only [htag, ne_eq, not_true_eq_false, if_false, hunit, hmember, Walk.outcome_bind,
      Walk.outcome_lift, Walk.andThen_ok, evaluateCall]
    cases hm : u.member? name with
    | none => rfl
    | some member =>
      have hspan : (Expr.call (.intrinsic u name place) args callee type span).node.span = span := rfl
      simp only [Walk.outcome_bind, Walk.outcome_get, Walk.andThen_ok, Walk.outcome_lift, hspan]
      rw [show s.raw.scopes = s.frames.raw from rfl]
      cases evaluateArguments s.frames.raw (args.toList.map Expr.node) with
      | error e => rfl
      | ok numbers =>
        simp only [Walk.andThen_ok, Walk.outcome_bind, Walk.outcome_lift]
        cases hn : member.evaluate numbers span with
        | error e => simp [hn, bind, Except.bind, Functor.map, Except.map]
        | ok n => simp [hn, bind, Except.bind, Functor.map, Except.map, member_literal hm hn]
  | cell place _ _ _ => cases place <;> rfl
  | _ => rfl

/-- Leaving the declaration of a constant records it in the innermost frame and removes the item. -/
theorem exitConstant_node (name : String) (ty : TypeExpr) (value : Expr) (symbol : Option String)
    (span : Span) :
    Walk.Mirrors Nested.raw
      (settle hooks.exit (Program.Item.constant name ty value symbol span).node)
      ((fun i => i.map Program.Item.node) <$> recordConstant (.constant name ty value symbol span)) := by
  intro s
  change (settle exitConstant _).outcome s.raw = _
  have hname : (Program.Item.constant name ty value symbol span).node.textOf "name" = .ok name := by
    cases symbol <;> rfl
  have hvalue : (Program.Item.constant name ty value symbol span).node.child "value" =
      .ok value.node := by
    cases symbol <;> rfl
  have htype : (Program.Item.constant name ty value symbol span).node.declaredType =
      BindNames.knownType .constant ty span := by
    cases symbol <;> exact BindNames.declaredType_of_ty rfl
  simp only [settle, exitConstant, hname, hvalue, htype, recordConstant, Walk.outcome_map,
    Walk.outcome_bind, Walk.outcome_lift, Walk.andThen_ok, Walk.outcome_get]
  rw [show s.raw.scopes = s.frames.raw from rfl]
  cases evaluate s.frames.raw value.node with
  | error e => rfl
  | ok computed =>
    simp only [Walk.outcome_bind, Walk.outcome_lift, Walk.andThen_ok]
    cases BindNames.knownType .constant ty span with
    | error e => rfl
    | ok type =>
      simp only [Walk.andThen_ok]
      cases type.fits computed with
      | false => rfl
      | true =>
        have hdefine := Frames.define_raw s.frames name ⟨computed, type, value.node.span⟩
        simp only [Bool.not_true, Bool.false_eq_true, if_false, Walk.outcome_pure, Walk.andThen_ok,
          Walk.outcome_bind, Walk.outcome_set]
        refine congrArg₂ Prod.mk rfl ?_
        exact congrArg (Scoped.mk · s.own) hdefine

theorem rewrites : Rewrites Nested.raw hooks fun e => Walk.reading (evaluateCall · e) where
  enter _ := rfl
  exit e := by
    cases e with
    | cell place _ _ _ => cases place <;> exact .pure _
    | call target args callee type span => exact exitCall_node target args callee type span
    | _ => exact .pure _
  binding _ := ⟨rfl, rfl⟩
  args _ _ _ := ⟨rfl, rfl⟩

theorem visitsParts : VisitsParts Nested.raw hooks inner where
  pass part _ := by cases part <;> rfl
  enterScope _ _ _ _ := .pure _
  enterFunction _ := .pure _
  enterUnit _ := .pure _
  exit part := by
    cases part with
    | constant name ty value symbol span => exact exitConstant_node name ty value symbol span
    | type t => cases t <;> exact .pure _
    | stmt s h =>
      cases s with
      | expr e => simp [Stmt.isPlain] at h
      | _ => exact .pure _
    | _ => exact .pure _

/-- What the pass does to the parts of a program. -/
def visitor : Visitor (Nested Unit) := inner.scoped pure

/-- **The pass is the visitor.** -/
theorem visits : Visits Nested.raw (Scoped.hooks hooks) visitor :=
  .ascending (visitsParts.scoped rfl fun _ => (map_pure _ _).symm) rewrites.scoped rfl

theorem runPass (unit : String) (p : Program) :
    Compiler.runPass unit p.node pass = Program.node <$> ((p.mapUp visitor).outcome ⟨[], ()⟩).1 :=
  runPass_of_scoped (fun _ => rfl) visits rfl p

/-- A value mentions no symbol. -/
theorem evaluateCall_staysLinked {s : Nested Unit} {e e' : Expr} (h : evaluateCall s e = .ok e') :
    e.StaysLinked e' := by
  unfold evaluateCall at h
  split at h
  · split at h
    · cases h
    · obtain ⟨numbers, _, h⟩ := bind_eq_ok.mp h
      obtain ⟨n, _, rfl⟩ := map_eq_ok.mp h
      exact fun _ _ => trivial
  · exact Except.ok.inj h ▸ .refl _

/-- The pass rewrites expressions and leaves declarations and statements. -/
theorem steady : Steady visitor evaluateCall (fun _ d => .ok d) (fun _ st => .ok st) Nested.pushed :=
  Visitor.scoped_steady (fun _ _ => rfl) rfl (fun _ _ => rfl) (fun _ _ => rfl) rfl rfl rfl

/-- The items that are removed. -/
def IsConstant (i : Program.Item) : Prop :=
  ∃ name ty value symbol span, i = .constant name ty value symbol span

/-- An item stays, or it was a constant. -/
theorem recordConstant_left {i : Program.Item} {left : Option Program.Item} {s s' : Nested Unit}
    (h : (recordConstant i).outcome s = (.ok left, s')) : left = some i ∨ left = none ∧ IsConstant i := by
  cases i with
  | constant name ty value symbol span =>
    refine .inr ⟨?_, name, ty, value, symbol, span, rfl⟩
    obtain ⟨state, s1, -, h⟩ := Walk.outcome_bind_eq_ok.mp h
    obtain ⟨computed, -, h⟩ := Walk.outcome_lift_bind_eq_ok.mp h
    obtain ⟨type, -, h⟩ := Walk.outcome_lift_bind_eq_ok.mp h
    split at h
    · cases (Prod.mk.inj h).1
    · exact (Except.ok.inj (Prod.mk.inj h).1).symm
  | _ =>
    obtain ⟨rfl, -⟩ := Walk.outcome_pure_eq_ok.mp h
    exact .inl rfl

/-- A constant declares no function and no variable, so nothing is lost when it goes. -/
theorem isWhole_of_isConstant {i : Program.Item} (h : IsConstant i) : i.isWhole = true := by
  obtain ⟨_, _, _, _, _, rfl⟩ := h
  rfl

/-- Constants are dropped, and the calls of intrinsics rewritten. -/
theorem related {p p' : Program} (hsource : p.IsSource)
    (hrun : ((p.mapUp visitor).outcome ⟨[], ()⟩).1 = .ok p') :
    Items.Related IsConstant (Item.Alike (Steady.Rewritten evaluateCall)) p.items p'.items :=
  Visitor.scoped_related steady (Steady.keeps_staysLinked rfl evaluateCall_staysLinked).rewritten
    (Visitor.scoped_keepsFunctions_pure rfl) rfl rfl recordConstant_left
    (fun _ => ⟨_, _, _, _, _, rfl⟩) hsource hrun

/-- **Constants.**  Their values mention nothing. -/
theorem bound {p p' : Program} {S : Symbols} (hsource : p.IsSource) (h : p.Bound S)
    (hrun : ((p.mapUp visitor).outcome ⟨[], ()⟩).1 = .ok p') : p'.IsSource ∧ p'.Bound S := by
  refine Program.Bound.of_related ((related hsource hrun).staysLinked evaluateCall_staysLinked) ?_ hsource h
  rintro _ ⟨_, _, _, _, _, rfl⟩
  exact ⟨rfl, rfl⟩

end EvaluateConstants

/-! ## 2. Resolving constants -/

namespace ResolveConstants

/-- The name of a constant has its value. -/
def resolve (s : Nested Unit) : Expr → Except Error Expr
  | .ident name (some b) type span =>
    if b.declaration.kind = .constant then
      match s.frames.constant? name with
      | some c => .ok (.number c.value (some c.type) span)
      | none => .error ((InternalProblem.neverEvaluated name).atSpan span)
    else .ok (.ident name (some b) type span)
  | e => .ok e

/-- What the pass does to the parts of a program, frames apart. -/
def inner : Visitor (Nested Unit) where
  expr := Expr.mapUp fun e => Walk.reading (resolve · e)

theorem namesConstant_ident (name : String) (b : Binding) (type : Option Ty) (span : Span) :
    namesConstant (Expr.ident name (some b) type span).node =
      decide (b.declaration.kind = .constant) := by
  obtain ⟨⟨_, _, kind, _, _, storage⟩, params, _⟩ := b
  cases kind <;> cases type <;> rfl

/-- Leaving an identifier puts the value of the constant in its place, if it names one. -/
theorem exitIdent_node (name : String) (b : Binding) (type : Option Ty) (span : Span) :
    Walk.Mirrors Nested.raw (settle hooks.exit (Expr.ident name (some b) type span).node)
      ((fun e => some e.node) <$> Walk.reading (resolve · (.ident name (some b) type span))) := by
  intro s
  change (settle exitIdent _).outcome s.raw = _
  have hname : (Expr.ident name (some b) type span).node.textOf "name" = .ok name := by
    cases type <;> rfl
  have hconstant : s.raw.scopes.constant name = (s.frames.constant? name).map Constant.node :=
    Frames.constant_raw s.frames name
  simp only [settle, exitIdent, namesConstant_ident, hname, Walk.outcome_map,
    Walk.outcome_reading, resolve]
  by_cases hkind : b.declaration.kind = .constant
  · simp only [hkind, decide_true, Bool.not_true, Bool.false_eq_true, if_false, Walk.outcome_bind,
      Walk.outcome_lift, Walk.andThen_ok, Walk.outcome_get, hconstant, if_true]
    cases s.frames.constant? name <;> rfl
  · simp only [hkind, decide_false, Bool.not_false, if_true, if_false]
    rfl

theorem rewrites : Rewrites Nested.raw hooks fun e => Walk.reading (resolve · e) where
  enter _ := rfl
  exit e := by
    cases e with
    | cell place _ _ _ => cases place <;> exact .pure _
    | ident name binding type span =>
      cases binding with
      | none => cases type <;> exact fun _ => rfl
      | some b => exact exitIdent_node name b type span
    | _ => exact .pure _
  binding _ := ⟨rfl, rfl⟩
  args _ _ _ := ⟨rfl, rfl⟩

theorem visitsParts : VisitsParts Nested.raw hooks inner where
  pass part _ := by cases part <;> rfl
  enterScope _ _ _ _ := .pure _
  enterFunction _ := .pure _
  enterUnit _ := .pure _
  exit part := by
    cases part with
    | type t => cases t <;> exact .pure _
    | stmt s h =>
      cases s with
      | expr e => simp [Stmt.isPlain] at h
      | _ => exact .pure _
    | _ => exact .pure _

/-- What the pass does to the parts of a program. -/
def visitor : Visitor (Nested Unit) := inner.scoped pure

/-- **The pass is the visitor.** -/
theorem visits : Visits Nested.raw (Scoped.hooks hooks) visitor :=
  .ascending (visitsParts.scoped rfl fun _ => (map_pure _ _).symm) rewrites.scoped rfl

theorem runPass (unit : String) (p : Program) :
    Compiler.runPass unit p.node pass = Program.node <$> ((p.mapUp visitor).outcome ⟨[], ()⟩).1 :=
  runPass_of_scoped (fun _ => rfl) visits rfl p

/-- A value mentions no symbol. -/
theorem resolve_staysLinked {s : Nested Unit} {e e' : Expr} (h : resolve s e = .ok e') :
    e.StaysLinked e' := by
  unfold resolve at h
  split at h
  · split at h
    · split at h
      · obtain rfl := Except.ok.inj h
        exact fun _ _ => trivial
      · cases h
    · exact Except.ok.inj h ▸ .refl _
  · exact Except.ok.inj h ▸ .refl _

/-- The pass rewrites expressions and leaves declarations and statements. -/
theorem steady : Steady visitor resolve (fun _ d => .ok d) (fun _ st => .ok st) Nested.pushed :=
  Visitor.scoped_steady (fun _ _ => rfl) rfl (fun _ _ => rfl) (fun _ _ => rfl) rfl rfl rfl

/-- The names of constants are rewritten. -/
theorem related {p p' : Program} (hsource : p.IsSource)
    (hrun : ((p.mapUp visitor).outcome ⟨[], ()⟩).1 = .ok p') :
    Items.Related (fun _ => False) (Item.Alike (Steady.Rewritten resolve)) p.items p'.items ∧
      p'.frame = p.frame :=
  Visitor.scoped_steady_program steady (Steady.keeps_staysLinked rfl resolve_staysLinked).rewritten
    (Visitor.scoped_keepsFunctions_pure rfl) rfl rfl rfl hsource hrun

/-- **Names of constants.** -/
theorem bound {p p' : Program} {S : Symbols} (hsource : p.IsSource) (h : p.Bound S)
    (hrun : ((p.mapUp visitor).outcome ⟨[], ()⟩).1 = .ok p') :
    (p'.IsSource ∧ p'.Bound S) ∧ p'.frame = p.frame := by
  obtain ⟨hrelated, hframe⟩ := related hsource hrun
  exact ⟨Program.Bound.of_related (hrelated.staysLinked resolve_staysLinked) False.elim hsource h, hframe⟩

end ResolveConstants

/-! ## 3. Literal arithmetic -/

namespace FoldArithmetic

/-- An operation on literals is a literal. -/
def fold : Expr → Except Error Expr
  | .binop op (.number lhs type _) (.number rhs _ _) _ span =>
    (fun value => .number value type span) <$> (applyOperator op lhs rhs span).mapError (·.locate span)
  | .neg (.number operand type _) _ span =>
    (fun value => .number value type span) <$> (applyNegation operand span).mapError (·.locate span)
  | e => .ok e

/-- What the pass does to the parts of a program. -/
def visitor : Visitor Unit where
  expr := Expr.mapUp fun e => Walk.reading fun _ => fold e

/-- The rules fold an operation on two literals. -/
theorem apply_binop (op : String) (lhs rhs : Expr) (type : Option Ty) (span : Span) :
    (fun verdict => verdict.apply (Expr.binop op lhs rhs type span).node) <$>
        rules.apply (Expr.binop op lhs rhs type span).node =
      (fun e' => some e'.node) <$> fold (.binop op lhs rhs type span) := by
  cases lhs with
  | number l lt place =>
    cases rhs with
    | number r rt place' =>
      have hrule : rules.apply (Expr.binop op (.number l lt place) (.number r rt place') type span).node =
          ((fun value => .replace (Expr.number value lt span).node) <$>
            applyOperator op l r span).mapError (·.locate span) := by
        cases lt <;> cases rt <;> rfl
      rw [hrule, fold]
      cases applyOperator op l r span <;> rfl
    | cell place _ _ _ => cases place <;> rfl
    | _ => rfl
  | cell place _ _ _ => cases place <;> rfl
  | _ => rfl

theorem apply_neg (operand : Expr) (type : Option Ty) (span : Span) :
    (fun verdict => verdict.apply (Expr.neg operand type span).node) <$>
        rules.apply (Expr.neg operand type span).node =
      (fun e' => some e'.node) <$> fold (.neg operand type span) := by
  cases operand with
  | number v vt place =>
    have hrule : rules.apply (Expr.neg (.number v vt place) type span).node =
        ((fun value => .replace (Expr.number value vt span).node) <$>
          applyNegation v span).mapError (·.locate span) := by
      cases vt <;> rfl
    rw [hrule, fold]
    cases applyNegation v span <;> rfl
  | cell place _ _ _ => cases place <;> rfl
  | _ => rfl

theorem apply_expr (e : Expr) : (fun verdict => verdict.apply e.node) <$> rules.apply e.node =
    (fun e' => some e'.node) <$> fold e := by
  cases e with
  | binop op lhs rhs type span => exact apply_binop op lhs rhs type span
  | neg operand type span => exact apply_neg operand type span
  | cell place _ _ _ => cases place <;> rfl
  | _ => rfl

theorem rewrites : Rewrites id rules.hooks fun e => Walk.reading fun _ => fold e where
  enter _ := rfl
  exit e := by
    refine .of_eq (Walk.ext fun s => ?_)
    simp only [settle, Walk.outcome_map, Walk.outcome_reading]
    exact congrArg (·, s) (apply_expr e)
  binding _ := ⟨rfl, rfl⟩
  args _ _ _ := ⟨rfl, rfl⟩

theorem visitsParts : VisitsParts id rules.hooks visitor where
  pass part _ := by cases part <;> rfl
  enterScope _ _ _ _ := .of_eq rfl
  enterFunction _ := .of_eq rfl
  enterUnit _ := .of_eq rfl
  exit part := by
    refine .of_eq ?_
    cases part with
    | type t => cases t <;> rfl
    | stmt s h =>
      cases s with
      | expr e => simp [Stmt.isPlain] at h
      | _ => rfl
    | _ => rfl

/-- **The pass is the visitor.** -/
theorem visits : Visits id rules.hooks visitor := .ascending visitsParts rewrites rfl

theorem runPass (unit : String) (p : Program) :
    Compiler.runPass unit p.node pass = Program.node <$> ((p.mapUp visitor).outcome ()).1 :=
  runPass_of_rules (fun _ => rfl) visits rfl p

/-- A literal mentions no symbol. -/
theorem fold_staysLinked {e e' : Expr} (h : fold e = .ok e') : e.StaysLinked e' := by
  unfold fold at h
  split at h
  · obtain ⟨_, _, rfl⟩ := map_eq_ok.mp h
    exact fun _ _ => trivial
  · obtain ⟨_, _, rfl⟩ := map_eq_ok.mp h
    exact fun _ _ => trivial
  · exact Except.ok.inj h ▸ .refl _

/-- The pass rewrites expressions and leaves declarations and statements. -/
theorem steady : Steady visitor (fun _ => fold) (fun _ d => .ok d) (fun _ st => .ok st)
    (fun _ s => s) where
  type _ _ := rfl
  expr := rfl
  decl _ _ := rfl
  stmt _ _ := rfl
  enterScope _ _ _ _ _ := rfl
  exitScope _ _ _ _ _ := rfl
  cell := rfl
  itemCell := rfl

/-- Operations on literals are rewritten. -/
theorem related {p p' : Program} (hsource : p.IsSource)
    (hrun : ((p.mapUp visitor).outcome ()).1 = .ok p') :
    Items.Related (fun _ => False) (Item.Alike (Steady.Rewritten fun _ : Unit => fold)) p.items p'.items ∧
      p'.frame = p.frame :=
  steady.mapUp_program (Steady.keeps_staysLinked rfl fun h => fold_staysLinked h).rewritten
    (Steady.keepsFunctions_pure rfl rfl) rfl rfl rfl hsource hrun

/-- **Literals** mention nothing. -/
theorem bound {p p' : Program} {S : Symbols} (hsource : p.IsSource) (h : p.Bound S)
    (hrun : ((p.mapUp visitor).outcome ()).1 = .ok p') :
    (p'.IsSource ∧ p'.Bound S) ∧ p'.frame = p.frame := by
  obtain ⟨hrelated, hframe⟩ := related hsource hrun
  exact ⟨Program.Bound.of_related (hrelated.staysLinked fun h => fold_staysLinked h) False.elim hsource h,
    hframe⟩

end FoldArithmetic

end Lode
