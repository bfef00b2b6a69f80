/-
# Lowered statements

Assignments and returns become instructions: the value is loaded into the accumulator, and stored where the
assignment says or left for the caller.  There are two passes, which differ in the statements that they
replace and in what they do to a function when they leave it.  What they have in common is said once: hooks
that replace the statements of one tag are a visitor (`visits_lowering`), and each pass is an instance with
its own tag and its own function on statements.

The instructions for an expression are those that the code finds by recursion over the tree, with the size
of the tree as its budget.  The budget always suffices (`loadWithin_eq`), so the recursion over the
expression itself is all that the rest of the development sees (`Program.Expr.load`), and `Loads` tells
which forms have instructions at all: an operand, the result of a call, and an operation whose right
side is an operand.

The second pass also closes functions.  A body that does not end in a return gets one (`closed_eq`), so
every function ends in a return afterwards (`Returns`); behind this pass no code runs off the end of a
function.  Both passes keep a program bound (`bound`).
-/
import Lode.Proofs.Program.Scoped
import Lode.Proofs.Program.Straight

namespace Lode

open Program
open Walk (Mirrors)

/-! ## 1. Loading expressions -/

/-- The instructions that leave the value of an expression in the accumulator. -/
def Program.Expr.load (width : Nat) : Expr → Except Error (List Stmt)
  | .binop op lhs rhs type span => do
    checkWidth (Expr.binop op lhs rhs type span).node width
    if op != "+" && op != "-" then throw ((AssemblyProblem.noInstruction op).atSpan span)
    if !isOperand rhs.node then throw (AssemblyProblem.compoundOperand.atSpan rhs.node.span)
    checkWidth rhs.node width
    let front ← lhs.load width
    return front ++ [.arith op rhs width span]
  | .returned type span => do
    checkWidth (Expr.returned type span).node width
    return []
  | e => do
    checkWidth e.node width
    if isOperand e.node then return [.load e width e.node.span]
    throw ((AssemblyProblem.notComputable e.node.tag).atSpan e.node.span)

/-- **The budget suffices**: with at least the size of the tree the instructions are those of the
expression, or its error. -/
theorem loadWithin_eq (width : Nat) : ∀ (e : Expr) (fuel : Nat), e.node.size ≤ fuel →
    loadWithin fuel e.node width = List.map Stmt.node <$> e.load width
  | e, 0, hfuel => absurd (Node.size_pos e.node) (by omega)
  | .binop op lhs rhs type span, fuel + 1, hfuel => by
    have ih := loadWithin_eq width lhs fuel (Node.size_child_le hfuel List.mem_cons_self)
    have hop : (Expr.binop op lhs rhs type span).node.textOf "op" = .ok op := by cases type <;> rfl
    have hrhs : (Expr.binop op lhs rhs type span).node.child "rhs" = .ok rhs.node := by
      cases type <;> rfl
    have hlhs : (Expr.binop op lhs rhs type span).node.child "lhs" = .ok lhs.node := by
      cases type <;> rfl
    have htag : (Expr.binop op lhs rhs type span).node.tag = .binop := rfl
    have hspan : (Expr.binop op lhs rhs type span).node.span = span := rfl
    have hoperand : isOperand (Expr.binop op lhs rhs type span).node = false := rfl
    simp only [loadWithin, Expr.load, hoperand, htag, hop, hrhs, hlhs, ok_bind, ih, hspan, map_bind,
      Bool.false_eq_true, if_false]
    refine bind_congr fun _ => ?_
    by_cases hknown : (op != "+" && op != "-") = true
    · rw [if_pos hknown, if_pos hknown]
      rfl
    rw [if_neg hknown, if_neg hknown]
    by_cases hcompound : (!isOperand rhs.node) = true
    · rw [if_pos hcompound, if_pos hcompound]
      rfl
    rw [if_neg hcompound, if_neg hcompound, map_bind]
    refine bind_congr fun _ => ?_
    rw [map_bind, bind_map_left]
    refine bind_congr fun front => ?_
    simp only [map_pure, List.map_append]
    rfl
  | .returned type span, fuel + 1, hfuel => by
    simp only [loadWithin, Expr.load, map_bind]
    rfl
  | .number _ _ _, fuel + 1, _ => by
    simp only [loadWithin, Expr.load, map_bind]
    rfl
  | .immediate _ _ _, fuel + 1, _ => by
    simp only [loadWithin, Expr.load, map_bind]
    rfl
  | .cell (.symbol _) _ _ _, fuel + 1, _ => by
    simp only [loadWithin, Expr.load, map_bind]
    rfl
  | .cell (.address _) _ _ _, fuel + 1, _ => by
    simp only [loadWithin, Expr.load, map_bind]
    rfl
  | .string _ _ _, fuel + 1, _ | .ident _ _ _ _, fuel + 1, _ | .member _ _ _, fuel + 1, _
  | .intrinsic _ _ _, fuel + 1, _ | .call _ _ _ _ _, fuel + 1, _ | .neg _ _ _, fuel + 1, _
  | .deref _ _ _, fuel + 1, _ | .paren _ _, fuel + 1, _ => by
    simp only [loadWithin, Expr.load, map_bind]
    rfl

theorem loadExpression_eq (e : Expr) (width : Nat) :
    loadExpression e.node width = List.map Stmt.node <$> e.load width :=
  loadWithin_eq width e _ (Nat.le_refl _)

/-- A width that is checked is that of the expression. -/
theorem hasWidth_of_checkWidth {e : Expr} {width : Nat} (h : checkWidth e.node width = .ok ()) :
    e.HasWidth width := by
  cases e with
  | cell place zeroPage type span =>
    have hcheck : checkWidth (Expr.cell place zeroPage type span).node width =
        if type.width = width then .ok ()
        else .error ((AssemblyProblem.storageWidth type width).atSpan span) := by
      cases place <;> rfl
    rw [hcheck] at h
    split at h
    · assumption
    · cases h
  | _ => trivial

/-- The instructions of an expression, by its form. -/
inductive Loads (width : Nat) : Expr → List Stmt → Prop
  | operand {e : Expr} : isOperand e.node = true → e.HasWidth width →
      Loads width e [.load e width e.node.span]
  | returned {type : Ty} {span : Span} : Loads width (.returned type span) []
  | binop {op : String} {lhs rhs : Expr} {type : Option Ty} {span : Span} {front : List Stmt} :
      op = "+" ∨ op = "-" → isOperand rhs.node = true → rhs.HasWidth width → Loads width lhs front →
      Loads width (.binop op lhs rhs type span) (front ++ [.arith op rhs width span])

/-- An expression that has instructions has one of the forms that can be loaded. -/
theorem loads_of_load {width : Nat} : ∀ {e : Expr} {stmts : List Stmt},
    e.load width = .ok stmts → Loads width e stmts
  | .binop op lhs rhs type span, stmts, h => by
    simp only [Expr.load] at h
    obtain ⟨-, -, h⟩ := bind_eq_ok.mp h
    by_cases hknown : (op != "+" && op != "-") = true
    · rw [if_pos hknown] at h
      cases h
    by_cases hcompound : (!isOperand rhs.node) = true
    · rw [if_neg hknown, if_pos hcompound] at h
      cases h
    rw [if_neg hknown, if_neg hcompound] at h
    obtain ⟨⟨⟩, hwidth, h⟩ := bind_eq_ok.mp h
    obtain ⟨front, hfront, h⟩ := bind_eq_ok.mp h
    obtain rfl := Except.ok.inj h
    refine .binop ?_ (by simpa using hcompound) (hasWidth_of_checkWidth hwidth) (loads_of_load hfront)
    simp only [bne_iff_ne, ne_eq, Bool.and_eq_true, not_and, not_not] at hknown
    exact Decidable.or_iff_not_imp_left.mpr hknown
  | .returned type span, stmts, h => by
    obtain ⟨-, -, h⟩ := bind_eq_ok.mp h
    obtain rfl := Except.ok.inj h
    exact .returned
  | .number _ _ _, stmts, h | .immediate _ _ _, stmts, h | .cell _ _ _ _, stmts, h
  | .string _ _ _, stmts, h | .ident _ _ _ _, stmts, h | .member _ _ _, stmts, h
  | .intrinsic _ _ _, stmts, h | .call _ _ _ _ _, stmts, h | .neg _ _ _, stmts, h
  | .deref _ _ _, stmts, h | .paren _ _, stmts, h => by
    obtain ⟨⟨⟩, hwidth, h⟩ := bind_eq_ok.mp h
    split at h
    · rename_i hoperand
      obtain rfl := Except.ok.inj h
      exact .operand hoperand (hasWidth_of_checkWidth hwidth)
    · cases h

/-- What is loaded is linked, if the expression is. -/
theorem Loads.linked {S : Symbols} {width : Nat} {e : Expr} {stmts : List Stmt}
    (h : Loads width e stmts) (hl : e.Linked S) : ∀ s ∈ stmts, s.isStraight = true ∧ s.Linked S := by
  induction h with
  | operand _ hwidth =>
    simp only [List.mem_singleton, forall_eq]
    exact ⟨rfl, hl, hwidth⟩
  | returned => simp
  | binop _ _ hwidth _ ih =>
    refine List.forall_mem_append.mpr ⟨ih hl.1, ?_⟩
    simp only [List.mem_singleton, forall_eq]
    exact ⟨rfl, hl.2, hwidth⟩

/-! ## 2. Statements that are replaced -/

/-- What a hook does that replaces the statements of one tag. -/
def replaceTagged (tag : Tag) (lower : Node → Except Error (List Node)) (n : Node) :
    Except Error Verdict :=
  match n.node? "stmt" with
  | some stmt => if stmt.tag = tag then (lower stmt).map (spliceStatements n) else .ok .keep
  | none => .ok .keep

/-- The hook of a pass on the cell of a statement puts the new statements into the list. -/
theorem mirrors_replaceTagged {tag : Tag} {lower : Node → Except Error (List Node)}
    {lower? : Stmt → Except Error (Option (List Stmt))} {s : Stmt} (rest : Stmts) (span : Span)
    (h : (s.node.tag ≠ tag ∧ lower? s = .ok none) ∨ (s.node.tag = tag ∧
      ∃ front, lower s.node = List.map Stmt.node <$> front ∧ lower? s = some <$> front)) :
    Mirrors (id : Unit → Unit)
      (settle (fun n => liftM (replaceTagged tag lower n)) (Part.cell s rest span).node)
      (Stmts.node? <$> liftM (expandCell lower? s rest span)) := by
  have hstmt : (Part.cell s rest span).node.node? "stmt" = some s.node := by cases rest <;> rfl
  have hnext : (Part.cell s rest span).node.node? "next" = rest.node? := by cases rest <;> rfl
  refine mirrors_lift rfl ?_
  simp only [replaceTagged, hstmt, expandCell]
  rcases h with ⟨htag, hnone⟩ | ⟨htag, front, hlower, hsome⟩
  · rw [if_neg htag, hnone]
    rfl
  · rw [if_pos htag, hlower, hsome]
    cases front with
    | error e => rfl
    | ok front =>
      refine congrArg Except.ok ?_
      rw [spliceStatements, hnext, Stmts.sequence_eq]
      cases (rest.prepend front).node? <;> rfl

theorem Program.Stmt.tag_expr_ne {tag : Tag} (htag : isExprTag tag = false) (e : Expr) :
    (Stmt.expr e).node.tag ≠ tag := by
  intro h
  have he := e.isExprTag_node
  rw [show e.node.tag = tag from h, htag] at he
  cases he

/-- What a pass does to a program that replaces statements and leaves functions in a way of its own. -/
def lowering (lower? : Stmt → Except Error (Option (List Stmt))) (leave : Function → Function) :
    Visitor Unit where
  cell s rest span := liftM (expandCell lower? s rest span)
  exitFunction f := pure (.function (leave f))

/-- Such a pass expands statements, each into those that are put in its place. -/
theorem expands_lowering (lower? : Stmt → Except Error (Option (List Stmt)))
    (leave : Function → Function) : Expands (lowering lower? leave) .ok lower? where
  type := rfl
  expr := rfl
  stmt _ := rfl
  call _ := rfl
  data _ := rfl
  cell _ _ _ := rfl
  enterFunction := rfl
  item := rfl
  itemCell := rfl
  enterUnit := rfl
  exitUnit := rfl

/-- Hooks that replace the statements of one tag. -/
theorem visits_lowering {hooks : Hooks Unit} {tag : Tag} {lower : Node → Except Error (List Node)}
    {lower? : Stmt → Except Error (Option (List Stmt))} {leave : Function → Function}
    (henter : ∀ n, hooks.enter n = pure .keep)
    (hstmts : ∀ n, n.tag = .stmts → hooks.exit n = liftM (replaceTagged tag lower n))
    (hfunction : ∀ f : Function, settle hooks.exit f.node = pure (some (leave f).node))
    (hkeep : ∀ n, n.tag ≠ .stmts → n.tag ≠ .function → hooks.exit n = pure .keep)
    (hlower : ∀ s : Stmt, (s.node.tag ≠ tag ∧ lower? s = .ok none) ∨ (s.node.tag = tag ∧
      ∃ front, lower s.node = List.map Stmt.node <$> front ∧ lower? s = some <$> front)) :
    Visits id hooks (lowering lower? leave) := by
  have hparts : VisitsParts id hooks (lowering lower? leave) :=
    { pass := fun part _ => henter part.node
      enterScope := fun _ _ _ _ => mirrors_keep (henter _)
      enterFunction := fun _ => mirrors_keep (henter _)
      enterUnit := fun _ => mirrors_keep (henter _)
      exit := fun part => by
        cases part with
        | type t => cases t <;> exact mirrors_keep (hkeep _ Tag.noConfusion Tag.noConfusion)
        | stmt s h =>
          cases s with
          | decl d | expr e => simp [Stmt.isPlain] at h
          | _ => exact mirrors_keep (hkeep _ Tag.noConfusion Tag.noConfusion)
        | cell s rest span =>
          have hcell := mirrors_replaceTagged rest span (hlower s)
          rw [settle] at hcell
          rw [settle, hstmts _ rfl]
          exact hcell
        | function f =>
          rw [Part.node, hfunction]
          exact .pure _
        | _ => exact mirrors_keep (hkeep _ Tag.noConfusion Tag.noConfusion) }
  have hexpr : Rewrites id hooks (pure : Expr → Walk Unit Expr) := .of_keep fun n hn =>
    ⟨henter n, hkeep n (fun h => by simp [h, isExprTag] at hn) fun h => by simp [h, isExprTag] at hn⟩
  exact .ascending hparts hexpr (funext fun e => (Expr.mapUp_pure e).symm)

/-! ## 3. Assignments -/

namespace LowerAssignment

/-- The instructions of an assignment. -/
def lower (lvalue rvalue : Expr) (type : Option Ty) (span : Span) : Except Error (List Stmt) := do
  if lvalue.node.tag ≠ .absoluteStorage then
    throw (AssemblyProblem.notAssignable.atSpan lvalue.node.span)
  let width := (← (Stmt.set lvalue rvalue type span).node.exprType).width
  let target ← lvalue.node.exprType
  if target.width ≠ width then
    throw ((InternalProblem.assignmentWidth width target).atSpan lvalue.node.span)
  let front ← rvalue.load width
  return front ++ [.store lvalue width span]

/-- The instructions in place of a statement. -/
def lower? : Stmt → Except Error (Option (List Stmt))
  | .set lvalue rvalue type span => some <$> lower lvalue rvalue type span
  | _ => .ok none

/-- What the pass does to the parts of a program. -/
def visitor : Visitor Unit := lowering lower? id

/-- The instructions of an assignment, on nodes and on statements. -/
theorem lowerSet_eq (lvalue rvalue : Expr) (type : Option Ty) (span : Span) :
    lowerSet (Stmt.set lvalue rvalue type span).node =
      List.map Stmt.node <$> lower lvalue rvalue type span := by
  have hl : (Stmt.set lvalue rvalue type span).node.child "lvalue" = .ok lvalue.node := rfl
  have hr : (Stmt.set lvalue rvalue type span).node.child "rvalue" = .ok rvalue.node := rfl
  simp only [lowerSet, lower, hl, hr, ok_bind, loadExpression_eq]
  by_cases hplace : lvalue.node.tag ≠ .absoluteStorage
  · rw [if_pos hplace, if_pos hplace]
    rfl
  rw [if_neg hplace, if_neg hplace, map_bind]
  refine bind_congr fun width => ?_
  rw [map_bind]
  refine bind_congr fun target => ?_
  by_cases hwidth : target.width ≠ width.width
  · rw [if_pos hwidth, if_pos hwidth]
    rfl
  rw [if_neg hwidth, if_neg hwidth, map_bind, bind_map_left]
  refine bind_congr fun front => ?_
  simp only [map_pure, List.map_append]
  rfl

/-- **The pass is the visitor.** -/
theorem visits : Visits id hooks visitor :=
  visits_lowering (fun _ => rfl) (fun n hn => if_pos hn) (fun _ => rfl) (fun n hn _ => if_neg hn)
    fun s => by
      cases s with
      | set lvalue rvalue type place => exact .inr ⟨rfl, _, lowerSet_eq lvalue rvalue type place, rfl⟩
      | expr e => exact .inl ⟨Stmt.tag_expr_ne rfl e, rfl⟩
      | _ => exact .inl ⟨Tag.noConfusion, rfl⟩

theorem runPass (unit : String) (p : Program) :
    Compiler.runPass unit p.node pass = Program.node <$> ((p.mapUp visitor).outcome ()).1 :=
  runPass_of_visits (fun _ => rfl) visits p (size_of_enterUnit_pure rfl p)

/-- The statements in place of one. -/
def Step : Stmt → List Stmt → Prop := Expands.Step .ok lower?

/-- What an assignment is lowered to: its value is loaded and stored in a cell of that width. -/
theorem lower_ok {lvalue rvalue : Expr} {type : Option Ty} {span : Span} {stmts : List Stmt}
    (h : lower lvalue rvalue type span = .ok stmts) : ∃ place zeroPage target at_ width front,
      lvalue = .cell place zeroPage target at_ ∧ target.width = width ∧ Loads width rvalue front ∧
      stmts = front ++ [Stmt.store lvalue width span] := by
  simp only [lower] at h
  by_cases hplace : lvalue.node.tag ≠ .absoluteStorage
  · rw [if_pos hplace] at h
    cases h
  rw [if_neg hplace] at h
  obtain ⟨width, -, h⟩ := bind_eq_ok.mp h
  obtain ⟨target, htarget, h⟩ := bind_eq_ok.mp h
  by_cases hwidth : target.width ≠ width.width
  · rw [if_pos hwidth] at h
    cases h
  rw [if_neg hwidth] at h
  obtain ⟨front, hfront, h⟩ := bind_eq_ok.mp h
  obtain rfl := Except.ok.inj h
  cases lvalue with
  | cell place zeroPage type at_ =>
    have htype : (Expr.cell place zeroPage type at_).node.exprType = .ok type := by cases place <;> rfl
    obtain rfl := Except.ok.inj (htype.symm.trans htarget)
    exact ⟨_, _, _, _, _, front, rfl, not_not.mp hwidth, loads_of_load hfront, rfl⟩
  | _ => exact absurd Tag.noConfusion hplace

/-- What stands in place of a statement: the value of an assignment is loaded and stored, all others stay. -/
inductive Lowers : Stmt → List Stmt → Prop
  | set {place : Place} {zeroPage : Bool} {target : Ty} {at_ span : Span} {rvalue : Expr} {type : Option Ty}
      {width : Nat} {front : List Stmt} : target.width = width → Loads width rvalue front →
      Lowers (.set (.cell place zeroPage target at_) rvalue type span)
        (front ++ [.store (.cell place zeroPage target at_) width span])
  | other {s : Stmt} : (∀ lvalue rvalue type span, s ≠ .set lvalue rvalue type span) → Lowers s [s]

/-- What stands in place of a statement has one of the two forms. -/
theorem lowers {s : Stmt} {front : List Stmt} (h : Step s front) : Lowers s front := by
  cases s with
  | set lvalue rvalue type span =>
    obtain ⟨lowered, hlower, rfl⟩ := map_eq_ok.mp h
    obtain ⟨stmts, hstmts, rfl⟩ := map_eq_ok.mp hlower
    obtain ⟨place, zeroPage, target, at_, width, front, rfl, hwidth, hloads, rfl⟩ := lower_ok hstmts
    exact .set hwidth hloads
  | _ => exact Except.ok.inj h ▸ .other (by simp)

/-- It is straight and linked if the statement is. -/
theorem step_linked {S : Symbols} {s : Stmt} {front : List Stmt} (h : Step s front)
    (hs : s.isStraight = true ∧ s.Linked S) : ∀ s' ∈ front, s'.isStraight = true ∧ s'.Linked S := by
  cases lowers h with
  | set hwidth hloads =>
    refine List.forall_mem_append.mpr ⟨hloads.linked hs.2.2, ?_⟩
    simp only [List.mem_singleton, forall_eq]
    exact ⟨rfl, hs.2.1, hwidth⟩
  | other _ => simpa using hs

/-- What the pass leaves of the body of a function. -/
def Assigned (body body' : Stmts) : Prop := Expanded Step body.toList body'.toList

theorem leaves : Expands.Leaves visitor .ok lower? Assigned := Expands.leaves_pure rfl

/-- The pass changes the bodies of functions. -/
theorem rebodied {p p' : Program} (hstraight : p.IsStraight)
    (hrun : ((p.mapUp visitor).outcome ()).1 = .ok p') :
    List.Forall₂ (fun entry entry' => entry.1.Rebodied Assigned entry'.1) p.items p'.items :=
  (expands_lowering lower? id).mapUp_program leaves hstraight hrun

/-- **Lowered assignments.**  A bound program stays bound. -/
theorem bound {p p' : Program} {S : Symbols} (hstraight : p.IsStraight) (h : p.Bound S)
    (hrun : ((p.mapUp visitor).outcome ()).1 = .ok p') : p'.IsStraight ∧ p'.Bound S :=
  Program.Bound.of_rebodied (Expanded.keeps step_linked) (rebodied hstraight hrun) hstraight h

end LowerAssignment

/-! ## 4. Returns -/

namespace LowerFunctions

/-- The instructions of a return. -/
def lower (value : Option Expr) (type : Option Ty) (span : Span) : Except Error (List Stmt) := do
  let front ← match value with
    | some e => do e.load (← (Stmt.ret value type span).node.exprType).width
    | none => pure []
  return front ++ [.rts span]

/-- The instructions in place of a statement. -/
def lower? : Stmt → Except Error (Option (List Stmt))
  | .ret value type span => some <$> lower value type span
  | _ => .ok none

/-- Whether a statement returns. -/
def isReturn : Stmt → Bool
  | .rts _ => true
  | _ => false

/-- Statements that end in a return. -/
def closed (span : Span) (stmts : List Stmt) : List Stmt :=
  if stmts.getLast?.any isReturn then stmts else stmts ++ [.rts span]

/-- A function that does not run off its end. -/
def leaveFunction (f : Function) : Function :=
  if f.body.toList.getLast?.any isReturn then f
  else { f with body := Stmts.nil.prepend (f.body.toList ++ [.rts f.span]) }

/-- What the pass does to the parts of a program. -/
def visitor : Visitor Unit := lowering lower? leaveFunction

/-- The instructions of a return, on nodes and on statements. -/
theorem lowerReturn_eq (value : Option Expr) (type : Option Ty) (span : Span) :
    lowerReturn (Stmt.ret value type span).node = List.map Stmt.node <$> lower value type span := by
  cases value with
  | none => cases type <;> rfl
  | some e =>
    have hvalue : (Stmt.ret (some e) type span).node.node? "value" = some e.node := by
      cases type <;> rfl
    simp only [lowerReturn, lower, hvalue, loadExpression_eq, map_bind, bind_map_left]
    refine bind_congr fun width => bind_congr fun front => ?_
    simp only [map_pure, List.map_append]
    rfl

/-- Returns are told by the tag of their node. -/
theorem tag_eq_rts (s : Stmt) : decide (s.node.tag = .rts) = isReturn s := by
  cases s with
  | expr e =>
    cases e with
    | cell place _ _ _ => cases place <;> rfl
    | _ => rfl
  | _ => rfl

/-- A function is left with a return at its end. -/
theorem exitFunction_eq (f : Function) :
    (exitFunction f.node).apply f.node = some (leaveFunction f).node := by
  have hlast : (f.node.elementsOf "body").getLast?.any (fun last => decide (last.tag = .rts)) =
      f.body.toList.getLast?.any isReturn := by
    rw [f.elementsOf_body, List.getLast?_map, Option.any_map]
    simp only [tag_eq_rts]
  simp only [exitFunction, leaveFunction, hlast]
  split
  · rfl
  · have hbody : Node.sequence .stmts (f.node.elementsOf "body" ++ [returnInstruction f.node]) none =
        (Stmts.nil.prepend (f.body.toList ++ [Stmt.rts f.span])).node? := by
      rw [f.elementsOf_body, ← Stmts.sequence_eq, List.map_append]
      rfl
    have hput := f.put_body (Stmts.nil.prepend (f.body.toList ++ [.rts f.span]))
    rw [hbody]
    -- the new body is not empty, so it is set and not left out
    cases hstmts : f.body.toList <;> rw [hstmts] at hput <;>
      exact congrArg (fun fields => some (Node.mk .function fields f.span)) hput

/-- **The pass is the visitor.** -/
theorem visits : Visits id hooks visitor :=
  visits_lowering (fun _ => rfl) (fun n hn => by simp only [hooks, hn]; rfl)
    (fun f => by
      change (·.apply f.node) <$> (pure (exitFunction f.node) : Walk Unit Verdict) = _
      rw [map_pure, exitFunction_eq])
    (fun n hn hn' => by simp only [hooks]) fun s => by
      cases s with
      | ret value type place => exact .inr ⟨rfl, _, lowerReturn_eq value type place, rfl⟩
      | expr e => exact .inl ⟨Stmt.tag_expr_ne rfl e, rfl⟩
      | _ => exact .inl ⟨Tag.noConfusion, rfl⟩

theorem runPass (unit : String) (p : Program) :
    Compiler.runPass unit p.node pass = Program.node <$> ((p.mapUp visitor).outcome ()).1 :=
  runPass_of_visits (fun _ => rfl) visits p (size_of_enterUnit_pure rfl p)

/-- The statements in place of one. -/
def Step : Stmt → List Stmt → Prop := Expands.Step .ok lower?

/-- What the pass leaves of the body of a function. -/
def Returning (body body' : Stmts) : Prop :=
  ∃ stmts span, Expanded Step body.toList stmts ∧ body'.toList = closed span stmts

/-- A body is lowered statement by statement, and closed. -/
theorem leaves : Expands.Leaves visitor .ok lower? Returning := by
  intro f body i hbody hrun
  obtain ⟨rfl, -⟩ := Walk.outcome_pure_eq_ok.mp hrun
  refine ⟨(leaveFunction { f with body := body }).body, ?_, body.toList, f.span, hbody, ?_⟩
  · simp only [leaveFunction]
    split <;> rfl
  · simp only [leaveFunction, closed]
    split <;> simp [Stmts.toList]

/-- What a return is lowered to: its value is loaded, if it has one. -/
theorem lower_ok {value : Option Expr} {type : Option Ty} {span : Span} {stmts : List Stmt}
    (h : lower value type span = .ok stmts) : ∃ front, stmts = front ++ [Stmt.rts span] ∧
      match value with
      | some e => ∃ ty, type = some ty ∧ Loads ty.width e front
      | none => front = [] := by
  cases value with
  | none =>
    obtain rfl := Except.ok.inj h
    exact ⟨[], rfl, rfl⟩
  | some e =>
    obtain ⟨ty, hty, h⟩ := bind_eq_ok.mp h
    obtain ⟨front, hload, h⟩ := bind_eq_ok.mp h
    obtain rfl := Except.ok.inj h
    refine ⟨front, rfl, ty, ?_, loads_of_load hload⟩
    cases type with
    | none => cases hty
    | some _ => exact congrArg some (Except.ok.inj hty)

/-- What stands in place of a statement: the value of a return is loaded in front of it, if it has one, and all
others stay. -/
inductive Lowers : Stmt → List Stmt → Prop
  | ret {type : Option Ty} {span : Span} : Lowers (.ret none type span) [.rts span]
  | value {e : Expr} {type : Ty} {span : Span} {front : List Stmt} : Loads type.width e front →
      Lowers (.ret (some e) (some type) span) (front ++ [.rts span])
  | other {s : Stmt} : (∀ value type span, s ≠ .ret value type span) → Lowers s [s]

/-- What stands in place of a statement has one of the three forms. -/
theorem lowers {s : Stmt} {front : List Stmt} (h : Step s front) : Lowers s front := by
  cases s with
  | ret value type span =>
    obtain ⟨lowered, hlower, rfl⟩ := map_eq_ok.mp h
    obtain ⟨stmts, hstmts, rfl⟩ := map_eq_ok.mp hlower
    obtain ⟨front, rfl, hvalue⟩ := lower_ok hstmts
    cases value with
    | none =>
      obtain rfl : front = [] := hvalue
      exact .ret
    | some e =>
      obtain ⟨_, rfl, hloads⟩ := hvalue
      exact .value hloads
  | _ => exact Except.ok.inj h ▸ .other (by simp)

/-- It is straight and linked if the statement is. -/
theorem step_linked {S : Symbols} {s : Stmt} {front : List Stmt} (h : Step s front)
    (hs : s.isStraight = true ∧ s.Linked S) : ∀ s' ∈ front, s'.isStraight = true ∧ s'.Linked S := by
  cases lowers h with
  | ret => exact List.forall_mem_singleton.mpr ⟨rfl, trivial⟩
  | value hloads =>
    exact List.forall_mem_append.mpr
      ⟨hloads.linked (hs.2 _ rfl), List.forall_mem_singleton.mpr ⟨rfl, trivial⟩⟩
  | other _ => simpa using hs

/-- **A closed body ends in a return**, and what is in front of it was there. -/
theorem closed_eq (span : Span) (stmts : List Stmt) : ∃ front place,
    closed span stmts = front ++ [Stmt.rts place] ∧ ∀ s ∈ front, s ∈ stmts := by
  rw [closed]
  split
  · rename_i hlast
    cases hend : stmts.getLast? with
    | none => simp [hend] at hlast
    | some last =>
      obtain ⟨front, rfl⟩ := List.getLast?_eq_some_iff.mp hend
      rw [hend] at hlast
      cases last with
      | rts place => exact ⟨front, place, rfl, fun s hs => List.mem_append_left _ hs⟩
      | _ => cases hlast
  · exact ⟨stmts, span, rfl, fun _ h => h⟩

/-- The body of a function ends in a return. -/
def Returns : Program.Item → Prop
  | .function f => ∃ front span, f.body.toList = front ++ [.rts span]
  | _ => True

/-- A function of which the pass made the body ends in a return. -/
theorem returns_of_rebodied {i i' : Program.Item} (h : i.Rebodied Returning i') : Returns i' := by
  cases h with
  | function hbody =>
    obtain ⟨stmts, span, -, hclosed⟩ := hbody
    obtain ⟨front, place, heq, -⟩ := closed_eq span stmts
    exact ⟨front, place, hclosed.trans heq⟩
  | other hne =>
    cases i with
    | function f => exact absurd rfl (hne f)
    | _ => trivial

/-- The new body is straight and linked if the old one is. -/
theorem Returning.keeps {S : Symbols} {body body' : Stmts} (h : Returning body body')
    (hs : body.Straight) (hl : body.Linked S) : body'.Straight ∧ body'.Linked S := by
  obtain ⟨stmts, span, hexpanded, hclosed⟩ := h
  have hstmts := hexpanded.forall_mem (P := fun s => s.isStraight = true ∧ s.Linked S) step_linked
    fun s hmem => ⟨hs s hmem, Stmts.linked_iff.mp hl s hmem⟩
  obtain ⟨front, place, heq, hfront⟩ := closed_eq span stmts
  have hafter : ∀ s ∈ body'.toList, s.isStraight = true ∧ s.Linked S := by
    rw [hclosed, heq]
    refine List.forall_mem_append.mpr ⟨fun s hmem => hstmts s (hfront s hmem), ?_⟩
    simp only [List.mem_singleton, forall_eq]
    exact ⟨rfl, trivial⟩
  exact ⟨fun s hmem => (hafter s hmem).1, Stmts.linked_iff.mpr fun s hmem => (hafter s hmem).2⟩

/-- The pass changes the bodies of functions. -/
theorem rebodied {p p' : Program} (hstraight : p.IsStraight)
    (hrun : ((p.mapUp visitor).outcome ()).1 = .ok p') :
    List.Forall₂ (fun entry entry' => entry.1.Rebodied Returning entry'.1) p.items p'.items :=
  (expands_lowering lower? leaveFunction).mapUp_program leaves hstraight hrun

/-- **Lowered returns.**  A bound program stays bound, and every function ends in a return. -/
theorem bound {p p' : Program} {S : Symbols} (hstraight : p.IsStraight) (h : p.Bound S)
    (hrun : ((p.mapUp visitor).outcome ()).1 = .ok p') :
    p'.IsStraight ∧ p'.Bound S ∧ ∀ entry ∈ p'.items, Returns entry.1 := by
  have hrebodied := rebodied hstraight hrun
  obtain ⟨hstraight', hbound⟩ := Program.Bound.of_rebodied Returning.keeps hrebodied hstraight h
  refine ⟨hstraight', hbound, fun entry hentry => ?_⟩
  obtain ⟨_, -, hitem⟩ := exists_of_mem_right hrebodied hentry
  exact returns_of_rebodied hitem

end LowerFunctions

end Lode
