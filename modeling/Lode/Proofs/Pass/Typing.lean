/-
# Types and storage

The passes that type and place expressions, as visitors of programs.  A name gets the type of its binding, a
call the function that its target is bound to, and an operation the type of its operands.  Then the names of
variables become the memory cells of the symbols they are bound to, in the zero page exactly if the variable
is.

Both passes look at more than the expression at hand.  A return has to agree with the function around it, so
the first visitor carries the types of results that are expected, and the second the number of functions
around, since a name is a cell only inside of one.  Both go with the frames of `Nested`.

The hooks read attributes of nodes, and a type or a binding may be missing there.  A lemma for every hook
says that it does to the node of an expression or a statement what the visitor does (`exitBinop_node` to
`exitFunction_node`), errors and their places included.

What is mentioned afterwards was mentioned before: types come from bindings, and a cell is that of the
variable that its name was bound to (`typeExpr_staysLinked`, `place_staysLinked`).  So bound programs stay
bound.  That the types check the calls as well is shown in `Expressions`.
-/
import Lode.Proofs.Pass.Constants

namespace Lode

open Program

/-! ## 1. Types -/

namespace PropagateTypes

/-- The type of a binary operation. -/
def binopType (lhs rhs : Node) (span : Span) : Except Error Ty := do
  let left ← lhs.exprType
  let right ← rhs.exprType
  checkArithmetic left lhs
  checkArithmetic right rhs
  if ← assignable left rhs then return left
  else if ← assignable right lhs then return right
  else throw ((TypeProblem.incompatible left right).atSpan span)

/-- The type of a negation. -/
def negType (operand : Node) : Except Error Ty := do
  let type ← operand.exprType
  if !type.isInt then throw ((TypeProblem.negation type).atSpan operand.span)
  return type

/-- The binding of a called function. -/
def calleeBinding : Expr → Except Error Binding
  | .ident _ (some b) _ span =>
    if b.declaration.kind = .function then .ok b else .error (TypeProblem.notAFunction.atSpan span)
  | e => .error (TypeProblem.notAFunction.atSpan e.node.span)

/-- The function that is called, and the type of its result. -/
def callType (target : Expr) (args : List Node) (span : Span) : Except Error (Binding × Ty) := do
  let b ← calleeBinding target
  match b.declaration.type with
  | .function result params =>
    if args.length ≠ params.length then
      throw ((TypeProblem.argumentCount ((target.node.str? "name").getD "") params.length
        args.length).atSpan span)
    checkArguments args params
    return (b, result)
  | _ => throw InternalProblem.functionType.error

/-- An expression with its type. -/
def typeExpr : Expr → Except Error Expr
  | .number value type span => .ok (.number value (some (type.getD (.ofLiteral value))) span)
  | .string value _ span => .ok (.string value (some (.phantom "str")) span)
  | .ident name none _ span => .error ⟨.unknownName name, some span⟩
  | .ident name (some b) _ span => .ok (.ident name (some b) (some b.declaration.type) span)
  | .member _ _ span => .error (TypeProblem.noMembers.atSpan span)
  | .intrinsic _ member span => .error ((TypeProblem.intrinsicAsValue member).atSpan span)
  | .call target args _ _ span =>
    (fun (b, result) => .call target args (some b) (some result) span) <$>
      callType target (args.toList.map Expr.node) span
  | .binop op lhs rhs _ span =>
    (fun type => .binop op lhs rhs (some type) span) <$> binopType lhs.node rhs.node span
  | .neg operand _ span => (fun type => .neg operand (some type) span) <$> negType operand.node
  | .deref target _ span => (fun type => .deref target (some type) span) <$> derefType target.node
  | e => .ok e

/-- A declaration with its type. -/
def typeLet (d : Let) : Except Error Let := do
  let declared ← BindNames.knownType .letDecl d.ty d.span
  checkAssignable declared d.value.node
  return { d with type := some declared }

/-- The type of an assignment. -/
def setType (lvalue rvalue : Node) : Except Error Ty := do
  checkMutable lvalue
  let target ← lvalue.exprType
  checkAssignable target rvalue
  return target

/-- A statement with its type. -/
def typeStmt (s : Nested (List Ty)) : Stmt → Except Error Stmt
  | .set lvalue rvalue _ span =>
    (fun type => .set lvalue rvalue (some type) span) <$> setType lvalue.node rvalue.node
  | .ret value type span => do
    checkReturn (Stmt.ret value type span).node (s.own.headD .void)
    return .ret value (some (s.own.headD .void)) span
  | st => .ok st

/-- A function with its type. -/
def typeFunction (f : Function) : Walk (Nested (List Ty)) Function := do
  modify fun s => { s with own := s.own.tail }
  return { f with type := some (← functionType f.node) }

/-- What the pass does to the parts of a program, frames apart. -/
def inner : Visitor (Nested (List Ty)) where
  expr := Expr.mapUp fun e => Walk.reading fun _ => typeExpr e
  decl d := liftM (Stmt.decl <$> typeLet d)
  stmt st := Walk.reading (typeStmt · st)
  enterFunction f := do
    match ← functionType f.node with
    | .function result _ => modify fun s => { s with own := result :: s.own }
    | _ => pure ()
  exitFunction f := .function <$> typeFunction f

/-- The function of a call is the binding of its target. -/
theorem calleeOf_node (e : Expr) : calleeOf e.node = Binding.node <$> calleeBinding e := by
  cases e with
  | ident name binding type span =>
    cases binding with
    | none => cases type <;> rfl
    | some b =>
      obtain ⟨⟨_, _, kind, _, _, storage⟩, params, _⟩ := b
      cases type <;> cases kind <;> rfl
  | number _ type _ => cases type <;> rfl
  | string _ type _ => cases type <;> rfl
  | call target args callee type _ =>
    cases args <;> cases callee <;> cases type <;> rfl
  | binop _ _ _ type _ => cases type <;> rfl
  | neg _ type _ => cases type <;> rfl
  | deref _ type _ => cases type <;> rfl
  | cell place _ _ _ => cases place <;> rfl
  | _ => rfl

/-- An operation gets its type. -/
theorem exitBinop_node (op : String) (lhs rhs : Expr) (type : Option Ty) (span : Span) :
    exitBinop (Expr.binop op lhs rhs type span).node =
      (fun t => .replace (Expr.binop op lhs rhs (some t) span).node) <$>
        binopType lhs.node rhs.node span := by
  have hl : (Expr.binop op lhs rhs type span).node.child "lhs" = .ok lhs.node := by
    cases type <;> rfl
  have hr : (Expr.binop op lhs rhs type span).node.child "rhs" = .ok rhs.node := by
    cases type <;> rfl
  have hset : ∀ t, typed (Expr.binop op lhs rhs type span).node t =
      .replace (Expr.binop op lhs rhs (some t) span).node := by
    intro t
    cases type <;> rfl
  have hspan : (Expr.binop op lhs rhs type span).node.span = span := rfl
  simp only [exitBinop, binopType, hl, hr, hset, hspan, map_bind, ok_bind]
  refine bind_congr fun left => bind_congr fun right => bind_congr fun _ => bind_congr fun _ =>
    bind_congr fun fits => ?_
  cases fits with
  | true => rfl
  | false =>
    simp only [Bool.false_eq_true, if_false, map_bind]
    refine bind_congr fun fits => ?_
    cases fits <;> rfl

theorem exitNeg_node (operand : Expr) (type : Option Ty) (span : Span) :
    exitNeg (Expr.neg operand type span).node =
      (fun t => .replace (Expr.neg operand (some t) span).node) <$> negType operand.node := by
  have hchild : (Expr.neg operand type span).node.child "operand" = .ok operand.node := by
    cases type <;> rfl
  have hset : ∀ t, typed (Expr.neg operand type span).node t =
      .replace (Expr.neg operand (some t) span).node := by
    intro t
    cases type <;> rfl
  simp only [exitNeg, negType, hchild, hset, map_bind, ok_bind]
  refine bind_congr fun t => ?_
  cases t.isInt <;> rfl

theorem exitDeref_node (target : Expr) (type : Option Ty) (span : Span) :
    exitDeref (Expr.deref target type span).node =
      (fun t => .replace (Expr.deref target (some t) span).node) <$> derefType target.node := by
  have hchild : (Expr.deref target type span).node.child "target" = .ok target.node := by
    cases type <;> rfl
  have hset : ∀ t, typed (Expr.deref target type span).node t =
      .replace (Expr.deref target (some t) span).node := by
    intro t
    cases type <;> rfl
  simp only [exitDeref, hchild, hset]
  rw [map_eq_pure_bind]
  rfl

theorem exitCall_node (target : Expr) (args : Args) (callee : Option Binding) (type : Option Ty)
    (span : Span) :
    exitCall (Expr.call target args callee type span).node =
      (fun r : Binding × Ty => .replace (Expr.call target args (some r.1) (some r.2) span).node) <$>
        callType target (args.toList.map Expr.node) span := by
  have hchild : (Expr.call target args callee type span).node.child "target" = .ok target.node := by
    simp [Node.child, Node.node?, Node.get?, Expr.node, Node.fields, Fields.get?_optional,
      Fields.get?, Value.node?]
  have hset : ∀ (b : Binding) (t : Ty),
      ((Expr.call target args callee type span).node.set "type" (.type t)).set "callee" (.node b.node) =
        (Expr.call target args (some b) (some t) span).node := by
    intro b t
    cases args <;> cases callee <;> cases type <;> rfl
  have hspan : (Expr.call target args callee type span).node.span = span := rfl
  simp only [exitCall, callType, hchild, hspan, Expr.elementsOf_args, map_bind, ok_bind,
    calleeOf_node]
  cases calleeBinding target with
  | error e => rfl
  | ok b =>
    have htype : b.node.exprType = .ok b.declaration.type := by
      obtain ⟨⟨_, _, kind, _, _, storage⟩, params, _⟩ := b
      cases params <;> cases storage <;> rfl
    simp only [map_ok, ok_bind, htype]
    cases b.declaration.type with
    | function result params =>
      dsimp only
      split
      · rfl
      · simp only [map_bind, hset]
        rfl
    | _ => rfl

theorem rewrites : Rewrites Nested.raw hooks fun e => Walk.reading fun _ => typeExpr e where
  enter e := by
    cases e with
    | cell place _ _ _ => cases place <;> rfl
    | _ => rfl
  exit e := by
    change Walk.Mirrors Nested.raw (settle hooks.exit e.node)
      ((fun e' => some e'.node) <$> (liftM (typeExpr e) : Walk (Nested (List Ty)) Expr))
    cases e with
    | number value type span => cases type <;> exact mirrors_lift rfl rfl
    | string value type span => cases type <;> exact mirrors_lift rfl rfl
    | ident name binding type span =>
      cases binding with
      | none => cases type <;> exact mirrors_lift rfl rfl
      | some b =>
        obtain ⟨⟨_, _, kind, _, _, storage⟩, params, _⟩ := b
        cases type <;> cases params <;> cases storage <;> exact mirrors_lift rfl rfl
    | member target name span => exact mirrors_lift rfl rfl
    | intrinsic unit member span => exact mirrors_lift rfl rfl
    | call target args callee type span =>
      refine mirrors_lift rfl ?_
      rw [exitCall_node, typeExpr, Functor.map_map, Functor.map_map]
      rfl
    | binop op lhs rhs type span =>
      refine mirrors_lift rfl ?_
      rw [exitBinop_node, typeExpr, Functor.map_map, Functor.map_map]
      rfl
    | neg operand type span =>
      refine mirrors_lift rfl ?_
      rw [exitNeg_node, typeExpr, Functor.map_map, Functor.map_map]
      rfl
    | deref target type span =>
      refine mirrors_lift rfl ?_
      rw [exitDeref_node, typeExpr, Functor.map_map, Functor.map_map]
      rfl
    | cell place _ _ _ => cases place <;> exact .pure _
    | _ => exact .pure _
  binding _ := ⟨rfl, rfl⟩
  args _ _ _ := ⟨rfl, rfl⟩

/-- An assignment gets the type of its left side, if the right side is accepted for it. -/
theorem exitSet_node (lvalue rvalue : Expr) (type : Option Ty) (span : Span) :
    exitSet (Stmt.set lvalue rvalue type span).node =
      (fun t => .replace (Stmt.set lvalue rvalue (some t) span).node) <$>
        setType lvalue.node rvalue.node := by
  have hl : (Stmt.set lvalue rvalue type span).node.child "lvalue" = .ok lvalue.node := by
    cases type <;> rfl
  have hr : (Stmt.set lvalue rvalue type span).node.child "rvalue" = .ok rvalue.node := by
    cases type <;> rfl
  have hset : ∀ t, typed (Stmt.set lvalue rvalue type span).node t =
      .replace (Stmt.set lvalue rvalue (some t) span).node := by
    intro t
    cases type <;> rfl
  simp only [exitSet, setType, hl, hr, hset, map_bind, ok_bind]
  rfl

/-- A declaration gets its written type, if the value is accepted for it. -/
theorem exitLet_node (d : Let) :
    exitLet d.node = (fun d' : Let => .replace d'.node) <$> typeLet d := by
  have hchild : d.node.child "value" = .ok d.value.node := by
    obtain ⟨name, storage, ty, value, symbol, place, type, span⟩ := d
    cases storage <;> cases symbol <;> cases place <;> cases type <;> rfl
  have hset : ∀ t, typed d.node t = .replace ({ d with type := some t } : Let).node := by
    intro t
    obtain ⟨name, storage, ty, value, symbol, place, type, span⟩ := d
    cases storage <;> cases symbol <;> cases place <;> cases type <;> rfl
  simp only [exitLet, typeLet, BindNames.Let.declaredType, hchild, hset, map_bind, ok_bind]
  rfl

/-- A return is checked against the type that the function around it expects. -/
theorem exitReturn_node (value : Option Expr) (type : Option Ty) (span : Span) :
    Walk.Mirrors Nested.raw (settle hooks.exit (Stmt.ret value type span).node)
      ((fun s : Stmt => some s.node) <$> inner.stmt (.ret value type span)) := by
  intro s
  change (settle exitReturn _).outcome s.raw = _
  have hset : ∀ t, typed (Stmt.ret value type span).node t =
      .replace (Stmt.ret value (some t) span).node := by
    intro t
    cases value <;> cases type <;> rfl
  simp only [settle, exitReturn, Walk.outcome_map, Walk.outcome_bind, Walk.outcome_get,
    Walk.andThen_ok, Walk.outcome_lift, hset, inner, Walk.outcome_reading, typeStmt]
  rw [show s.raw.own = s.own from rfl]
  cases checkReturn (Stmt.ret value type span).node (s.own.headD .void) <;> rfl

/-- Leaving a function takes that type from the stack. -/
theorem exitFunction_node (f : Function) :
    Walk.Mirrors Nested.raw (settle hooks.exit f.node)
      ((fun i : Program.Item => some i.node) <$> inner.exitFunction f) := by
  change Walk.Mirrors Nested.raw (settle exitFunction f.node)
    ((fun i : Program.Item => some i.node) <$> (.function <$> typeFunction f))
  have hset : ∀ t, f.node.set "type" (.type t) = ({ f with type := some t } : Function).node := by
    intro t
    change Node.mk .function (Fields.assign _ "type" (some (.type t))) f.span = _
    rw [Fields.assign_optional_of_gt rfl, Fields.assign_optional_of_gt rfl,
      Fields.assign_optional_of_gt rfl, Fields.assign_cons_of_gt rfl,
      Fields.assign_optional_of_gt rfl, Fields.assign_optional_of_gt rfl,
      Fields.assign_optional_of_gt rfl, Fields.assign_optional_of_gt rfl,
      Fields.assign_optional_self Fields.follows_nil]
    rfl
  simp only [settle, exitFunction, typeFunction, hset, map_bind, map_pure]
  refine Walk.Mirrors.bind (fun _ => rfl) fun _ => ?_
  exact (Walk.Mirrors.lift _).bind fun _ => .pure _

theorem visitsParts : VisitsParts Nested.raw hooks inner where
  pass part hpart := by
    cases part with
    | type t => cases t <;> rfl
    | stmt s h =>
      cases s with
      | expr e => simp [Stmt.isPlain] at h
      | _ => rfl
    | function _ => cases hpart
    | _ => rfl
  enterScope _ _ _ _ := .pure _
  enterFunction f := by
    change Walk.Mirrors Nested.raw (settle enterFunction f.node) _
    simp only [settle, enterFunction, inner, map_bind]
    refine (Walk.Mirrors.lift _).bind fun type => ?_
    cases type <;> exact fun _ => rfl
  enterUnit _ := .pure _
  exit part := by
    cases part with
    | type t => cases t <;> exact .pure _
    | decl d =>
      change Walk.Mirrors Nested.raw (settle hooks.exit d.node)
        ((fun s : Stmt => some s.node) <$> (liftM (Stmt.decl <$> typeLet d) : Walk (Nested (List Ty)) Stmt))
      refine mirrors_lift rfl ?_
      rw [exitLet_node, Functor.map_map, Functor.map_map]
      rfl
    | stmt s h =>
      cases s with
      | decl d | expr e => simp [Stmt.isPlain] at h
      | set lvalue rvalue type span =>
        change Walk.Mirrors Nested.raw (settle hooks.exit (Stmt.set lvalue rvalue type span).node)
          ((fun s : Stmt => some s.node) <$>
            (liftM (typeStmt ⟨[], []⟩ (.set lvalue rvalue type span)) : Walk (Nested (List Ty)) Stmt))
        refine mirrors_lift rfl ?_
        rw [exitSet_node, typeStmt, Functor.map_map, Functor.map_map]
        rfl
      | ret value type span => exact exitReturn_node value type span
      | _ => exact .pure _
    | function f => exact exitFunction_node f
    | _ => exact .pure _

/-- What the pass does to the parts of a program. -/
def visitor : Visitor (Nested (List Ty)) := inner.scoped typeFunction

/-- **The pass is the visitor.** -/
theorem visits : Visits Nested.raw (Scoped.hooks hooks) visitor :=
  .ascending (visitsParts.scoped rfl fun _ => rfl) rewrites.scoped rfl

theorem runPass (unit : String) (p : Program) :
    Compiler.runPass unit p.node pass = Program.node <$> ((p.mapUp visitor).outcome ⟨[], []⟩).1 :=
  runPass_of_scoped (fun _ => rfl) visits rfl p

/-- Types come from bindings, and so do the functions that are called. -/
theorem typeExpr_staysLinked {e e' : Expr} (h : typeExpr e = .ok e') : e.StaysLinked e' := by
  intro S hS
  cases e with
  | ident name binding type span =>
    cases binding with
    | none => cases h
    | some b =>
      obtain rfl := Except.ok.inj h
      refine ⟨hS.1, ?_⟩
      rintro _ ⟨⟩
      exact ⟨b, rfl, rfl⟩
  | call target args callee type span =>
    obtain ⟨⟨b, result⟩, hb, rfl⟩ := map_eq_ok.mp h
    obtain ⟨b', hb', hrest⟩ := bind_eq_ok.mp hb
    have hcallee : b = b' := by
      split at hrest
      · split at hrest
        · cases hrest
        · obtain ⟨_, _, hrest⟩ := bind_eq_ok.mp hrest
          exact (Prod.mk.inj (Except.ok.inj hrest)).1.symm
      · cases hrest
    subst hcallee
    refine ⟨hS.1, hS.2.1, ?_⟩
    rintro _ ⟨⟩
    unfold calleeBinding at hb'
    split at hb'
    · split at hb'
      · rename_i hkind
        obtain rfl := Except.ok.inj hb'
        exact ⟨hS.1.1 _ rfl, hkind⟩
      · cases hb'
    · cases hb'
  | binop op lhs rhs type span =>
    obtain ⟨_, _, rfl⟩ := map_eq_ok.mp h
    exact hS
  | neg operand type span =>
    obtain ⟨_, _, rfl⟩ := map_eq_ok.mp h
    exact hS
  | deref target type span =>
    obtain ⟨_, _, rfl⟩ := map_eq_ok.mp h
    exact hS
  | member _ _ _ | intrinsic _ _ _ => cases h
  | _ =>
    obtain rfl := Except.ok.inj h
    exact hS

/-- The pass rewrites expressions, declarations and statements one by one, from the inside out. -/
theorem steady : Steady visitor (fun _ => typeExpr) (fun _ => typeLet) typeStmt Nested.pushed :=
  Visitor.scoped_steady (fun _ _ => rfl) rfl (fun _ _ => rfl) (fun _ _ => rfl) rfl rfl rfl

/-- No property of frames is needed: bindings are attached already. -/
theorem keeps : Steady.Keeps visitor (fun _ => typeExpr) (fun _ => typeLet) typeStmt Nested.pushed
    Expr.StaysLinked (fun _ => True) (fun _ => True) where
  type h := by
    obtain ⟨rfl, -⟩ := Walk.outcome_pure_eq_ok.mp h
    exact .refl _
  expr _ h := Expr.staysLinked_of_mapUp (fun h => typeExpr_staysLinked h) h
  decl h := by
    obtain ⟨declared, hdeclared, h⟩ := bind_eq_ok.mp h
    obtain ⟨_, _, h⟩ := bind_eq_ok.mp h
    obtain rfl := Except.ok.inj h
    exact ⟨rfl, rfl, rfl, rfl, rfl, .refl _, fun ht => .inr (by
      obtain rfl := Option.some.inj ht
      exact BindNames.knownType_ok hdeclared)⟩
  set h := by
    obtain ⟨t, _, rfl⟩ := map_eq_ok.mp h
    exact ⟨_, rfl⟩
  ret h := by
    obtain ⟨_, _, h⟩ := bind_eq_ok.mp h
    exact ⟨_, (Except.ok.inj h).symm⟩
  push _ _ := trivial

/-- No property of frames is needed when functions are left. -/
theorem keepsFunctions : Steady.KeepsFunctions visitor (fun _ => True) (fun _ => True) :=
  Visitor.scoped_keepsFunctions (fun _ _ => trivial) (fun _ _ => trivial) fun {f g g' s s1 s2} henter hexit => by
    obtain ⟨type, htype, henter⟩ := Walk.outcome_lift_bind_eq_ok.mp henter
    obtain ⟨result, _, htype⟩ := bind_eq_ok.mp htype
    obtain ⟨params, _, htype⟩ := bind_eq_ok.mp htype
    obtain rfl := Except.ok.inj htype
    obtain ⟨-, rfl⟩ := Prod.mk.inj henter
    obtain ⟨⟨⟩, s3, hpop, hexit⟩ := Walk.outcome_bind_eq_ok.mp hexit
    obtain ⟨-, rfl⟩ := Prod.mk.inj hpop
    obtain ⟨t, _, hexit⟩ := Walk.outcome_lift_bind_eq_ok.mp hexit
    obtain ⟨rfl, rfl⟩ := Walk.outcome_pure_eq_ok.mp hexit
    exact ⟨rfl, rfl, rfl, rfl, rfl, rfl, rfl⟩

/-- Expressions are typed. -/
theorem related {p p' : Program} (hsource : p.IsSource)
    (hrun : ((p.mapUp visitor).outcome ⟨[], []⟩).1 = .ok p') :
    Items.Related (fun _ => False) (Item.Alike (Steady.Rewritten fun _ : Nested (List Ty) => typeExpr))
      p.items p'.items ∧ p'.frame = p.frame :=
  Visitor.scoped_steady_program steady keeps.rewritten keepsFunctions rfl rfl rfl hsource hrun

/-- **Types.**  They mention what bindings mention. -/
theorem bound {p p' : Program} {S : Symbols} (hsource : p.IsSource) (h : p.Bound S)
    (hrun : ((p.mapUp visitor).outcome ⟨[], []⟩).1 = .ok p') :
    (p'.IsSource ∧ p'.Bound S) ∧ p'.frame = p.frame := by
  obtain ⟨hrelated, hframe⟩ := related hsource hrun
  exact ⟨Program.Bound.of_related (hrelated.staysLinked typeExpr_staysLinked) False.elim hsource h, hframe⟩

end PropagateTypes

/-! ## 2. Storage -/

namespace ResolveStorage

/-- Whether a binding is that of a variable. -/
def isVariable (b : Binding) : Bool :=
  match b.declaration.kind with
  | .global | .localVar | .param => true
  | .function | .constant => false

/-- The type of an expression that has to have one. -/
def knownType (tag : Tag) (type : Option Ty) (span : Span) : Except Error Ty :=
  match type with
  | some t => .ok t
  | none => .error ((InternalProblem.untyped tag).atSpan span)

/-- The storage that an expression denotes. -/
def place (s : Nested Nat) : Expr → Except Error Expr
  | .ident name (some b) type span =>
    if s.own = 0 || !isVariable b then .ok (.ident name (some b) type span)
    else (fun t => .cell (.symbol b.declaration.symbol) (b.declaration.storage == some .zp) t span) <$>
      knownType .ident type span
  | .number value type span =>
    if s.own = 0 || value < -128 || 255 < value then .ok (.number value type span)
    else (fun t => .immediate (value % 256) t span) <$> knownType .number type span
  | .deref target type span =>
    match constantAddress? target.node with
    | some address =>
      (fun t => .cell (.address address) (decide (address ≤ 0xff)) t span) <$> knownType .deref type span
    | none => .error (TypeProblem.dynamicAddress.atSpan target.node.span)
  | e => .ok e

/-- Leaves a function. -/
def leaveFunction (f : Function) : Walk (Nested Nat) Function := do
  modify fun s => { s with own := s.own - 1 }
  return f

/-- What the pass does to the parts of a program, frames apart. -/
def inner : Visitor (Nested Nat) where
  expr := Expr.mapUp fun e => Walk.reading (place · e)
  enterFunction _ := modify fun s => { s with own := s.own + 1 }
  exitFunction f := .function <$> leaveFunction f

/-- Leaving an identifier puts the cell of its variable in its place. -/
theorem exitIdent_node (name : String) (b : Binding) (type : Option Ty) (span : Span) :
    Walk.Mirrors Nested.raw (settle hooks.exit (Expr.ident name (some b) type span).node)
      ((fun e => some e.node) <$> Walk.reading (place · (.ident name (some b) type span))) := by
  intro s
  change (settle exitIdent _).outcome s.raw = _
  have hbinding : (Expr.ident name (some b) type span).node.node? "binding" = some b.node := rfl
  have hvariable : bindsVariable b.node = isVariable b := by
    obtain ⟨⟨_, _, kind, _, _, storage⟩, params, _⟩ := b
    cases kind <;> rfl
  have hsymbol : b.node.textOf "symbol" = .ok b.declaration.symbol := by
    obtain ⟨⟨_, _, kind, _, _, storage⟩, params, _⟩ := b
    cases params <;> cases storage <;> rfl
  have hsection : (b.node.str? "section" == some Section.zp.name) =
      (b.declaration.storage == some .zp) := by
    obtain ⟨⟨_, _, kind, _, _, storage⟩, params, _⟩ := b
    cases params <;> cases storage with
    | none => rfl
    | some place => cases place <;> rfl
  have hstorage : ∀ symbol zeroPage, symbolStorage symbol zeroPage
      (Expr.ident name (some b) type span).node =
        (fun t => (Expr.cell (.symbol symbol) zeroPage t span).node) <$> knownType .ident type span := by
    intro symbol zeroPage
    cases type <;> rfl
  simp only [settle, exitIdent, hbinding, Walk.outcome_map, Walk.outcome_bind, Walk.outcome_get,
    Walk.andThen_ok, Walk.outcome_reading, hvariable, place]
  rw [show s.raw.own = s.own from rfl]
  split
  · rfl
  · simp only [Walk.outcome_bind, Walk.outcome_lift, hsymbol, hsection, hstorage, Walk.andThen_ok]
    cases knownType .ident type span <;> rfl

theorem exitNumber_node (value : Int) (type : Option Ty) (span : Span) :
    Walk.Mirrors Nested.raw (settle hooks.exit (Expr.number value type span).node)
      ((fun e => some e.node) <$> Walk.reading (place · (.number value type span))) := by
  intro s
  change (settle exitNumber _).outcome s.raw = _
  have htype : (Expr.number value type span).node.exprType = knownType .number type span := by
    cases type <;> rfl
  simp only [settle, exitNumber, Expr.int?_number, Option.getD_some, htype, Walk.outcome_map, Walk.outcome_bind, Walk.outcome_get,
    Walk.andThen_ok, Walk.outcome_reading, place]
  rw [show s.raw.own = s.own from rfl]
  split
  · rfl
  · simp only [Walk.outcome_bind, Walk.outcome_lift]
    cases knownType .number type span <;> rfl

theorem exitDeref_node (target : Expr) (type : Option Ty) (span : Span) :
    Walk.Mirrors Nested.raw (settle hooks.exit (Expr.deref target type span).node)
      ((fun e => some e.node) <$> Walk.reading (place · (.deref target type span))) := by
  intro s
  change (settle exitDeref _).outcome s.raw = _
  have hchild : (Expr.deref target type span).node.child "target" = .ok target.node := by
    cases type <;> rfl
  have hstorage : ∀ address, addressStorage address (Expr.deref target type span).node =
      (fun t => (Expr.cell (.address address) (decide (address ≤ 0xff)) t span).node) <$>
        knownType .deref type span := by
    intro address
    cases type <;> rfl
  simp only [settle, exitDeref, hchild, Walk.outcome_map, Walk.outcome_bind, Walk.outcome_lift,
    Walk.andThen_ok, Walk.outcome_reading, place]
  cases constantAddress? target.node with
  | none => rfl
  | some address =>
    simp only [Walk.outcome_bind, Walk.outcome_lift, hstorage]
    cases knownType .deref type span <;> rfl

theorem rewrites : Rewrites Nested.raw hooks fun e => Walk.reading (place · e) where
  enter e := by
    cases e with
    | cell place _ _ _ => cases place <;> rfl
    | _ => rfl
  exit e := by
    cases e with
    | cell place _ _ _ => cases place <;> exact .pure _
    | ident name binding type span =>
      cases binding with
      | none => cases type <;> exact fun _ => rfl
      | some b => exact exitIdent_node name b type span
    | number value type span => exact exitNumber_node value type span
    | deref target type span => exact exitDeref_node target type span
    | _ => exact .pure _
  binding _ := ⟨rfl, rfl⟩
  args _ _ _ := ⟨rfl, rfl⟩

theorem visitsParts : VisitsParts Nested.raw hooks inner where
  pass part hpart := by
    cases part with
    | type t => cases t <;> rfl
    | stmt s h =>
      cases s with
      | expr e => simp [Stmt.isPlain] at h
      | _ => rfl
    | function _ => cases hpart
    | _ => rfl
  enterScope _ _ _ _ := .pure _
  enterFunction _ _ := rfl
  enterUnit _ := .pure _
  exit part := by
    cases part with
    | type t => cases t <;> exact .pure _
    | stmt s h =>
      cases s with
      | expr e => simp [Stmt.isPlain] at h
      | _ => exact .pure _
    | function _ => exact fun _ => rfl
    | _ => exact .pure _

/-- What the pass does to the parts of a program. -/
def visitor : Visitor (Nested Nat) := inner.scoped leaveFunction

/-- **The pass is the visitor.** -/
theorem visits : Visits Nested.raw (Scoped.hooks hooks) visitor :=
  .ascending (visitsParts.scoped rfl fun _ => rfl) rewrites.scoped rfl

theorem runPass (unit : String) (p : Program) :
    Compiler.runPass unit p.node pass = Program.node <$> ((p.mapUp visitor).outcome ⟨[], 0⟩).1 :=
  runPass_of_scoped (fun _ => rfl) visits rfl p

/-- The binding of a variable is to a variable. -/
theorem Binding.Linked.variable {b : Binding} {S : Symbols} (hb : b.Linked S)
    (hvariable : isVariable b = true) : ∃ place, b.declaration.storage = some place ∧
      ⟨b.declaration.symbol, place, b.declaration.type⟩ ∈ S.vars := by
  unfold Binding.Linked at hb
  unfold isVariable at hvariable
  cases hkind : b.declaration.kind <;> rw [hkind] at hb hvariable <;> first | exact hb | cases hvariable

/-- **Cells.**  A memory cell is that of the variable that its name was bound to. -/
theorem place_staysLinked {s : Nested Nat} {e e' : Expr} (h : place s e = .ok e') :
    e.StaysLinked e' := by
  intro S hS
  unfold place at h
  split at h
  · rename_i name b type span
    split at h
    · exact Except.ok.inj h ▸ hS
    · rename_i hinside
      obtain ⟨t, ht, rfl⟩ := map_eq_ok.mp h
      obtain ⟨section_, hstorage, hmem⟩ := Binding.Linked.variable (hS.1 b rfl) (by simp_all)
      have htype : t = b.declaration.type := by
        cases type with
        | none => cases ht
        | some t' =>
          obtain rfl := Except.ok.inj ht
          obtain ⟨b', hb', htype⟩ := hS.2 t' rfl
          obtain rfl := Option.some.inj hb'
          exact htype
      refine ⟨section_, b.declaration.type, hmem, by simp [hstorage], fun _ => htype.symm⟩
  · split at h
    · exact Except.ok.inj h ▸ hS
    · obtain ⟨t, _, rfl⟩ := map_eq_ok.mp h
      trivial
  · split at h
    · obtain ⟨t, _, rfl⟩ := map_eq_ok.mp h
      trivial
    · cases h
  · exact Except.ok.inj h ▸ hS

/-- The pass rewrites expressions and leaves declarations and statements. -/
theorem steady : Steady visitor place (fun _ d => .ok d) (fun _ st => .ok st) Nested.pushed :=
  Visitor.scoped_steady (fun _ _ => rfl) rfl (fun _ _ => rfl) (fun _ _ => rfl) rfl rfl rfl

/-- No property of frames is needed when functions are left. -/
theorem keepsFunctions : Steady.KeepsFunctions visitor (fun _ => True) (fun _ => True) :=
  Visitor.scoped_keepsFunctions (fun _ _ => trivial) (fun _ _ => trivial) fun henter hexit => by
    obtain ⟨-, rfl⟩ := Prod.mk.inj henter
    obtain ⟨hg, rfl⟩ := Prod.mk.inj hexit
    obtain rfl := Except.ok.inj hg
    exact ⟨rfl, rfl, rfl, rfl, rfl, rfl, rfl⟩

/-- Names of variables become cells. -/
theorem related {p p' : Program} (hsource : p.IsSource)
    (hrun : ((p.mapUp visitor).outcome ⟨[], 0⟩).1 = .ok p') :
    Items.Related (fun _ => False) (Item.Alike (Steady.Rewritten place)) p.items p'.items ∧
      p'.frame = p.frame :=
  Visitor.scoped_steady_program steady (Steady.keeps_staysLinked rfl place_staysLinked).rewritten
    keepsFunctions rfl rfl rfl hsource hrun

/-- **Storage.** -/
theorem bound {p p' : Program} {S : Symbols} (hsource : p.IsSource) (h : p.Bound S)
    (hrun : ((p.mapUp visitor).outcome ⟨[], 0⟩).1 = .ok p') :
    (p'.IsSource ∧ p'.Bound S) ∧ p'.frame = p.frame := by
  obtain ⟨hrelated, hframe⟩ := related hsource hrun
  exact ⟨Program.Bound.of_related (hrelated.staysLinked place_staysLinked) False.elim hsource h, hframe⟩

end ResolveStorage

end Lode
