/-
# Walks over programs

A visitor says what a walk does to the parts of a program: to types on the way out, to whole expressions, to
declarations, statements, cells, functions and items.  `mapUp` does it to a whole program, in the order of a
walk.

If the hooks of a walk do to the trees of programs what a visitor does to programs (`Visits`), then the walk
over the tree of a program leaves the tree of what `mapUp` makes of it (`walk_program`).  The states of the
visitor may say more than those of the walk, by way of a function from one to the other.

A walk visits the children of a node in an order of its own, puts what is left of each back under its name,
and leaves the node.  Section 2 therefore lists the children of a declaration, a scope, a function and a
unit in that order, and says what putting back does, in terms of the program.  After that the proof is one
lemma for each constructor, by the lemmas on walks over nodes with one, two or three children.

Cells are the delicate case.  A cell is left after the cells behind it, so what a pass does to a cell sees a
list that is finished; and a cell whose item was removed gives way to its successor (`walk_itemCell`).
-/
import Lode.Proofs.Program.Expr

namespace Lode.Program

open Walk (Mirrors)

variable {σ τ : Type}

/-! ## 1. Visitors -/

/-- What a walk does to the parts of a program. -/
structure Visitor (σ : Type) where
  type : TypeExpr → Walk σ TypeExpr := pure
  /-- To whole expressions. -/
  expr : Expr → Walk σ Expr := pure
  decl : Let → Walk σ Stmt := fun d => pure (.decl d)
  /-- To statements other than declarations, expressions and scopes. -/
  stmt : Stmt → Walk σ Stmt := pure
  enterScope : Stmt → Stmts → Frame → Span → Walk σ Unit := fun _ _ _ _ => pure ()
  exitScope : Stmt → Stmts → Frame → Span → Walk σ Stmt := fun d b fr s => pure (.scope d b fr s)
  cell : Stmt → Stmts → Span → Walk σ Stmts := fun s rest span => pure (.cons s rest span)
  enterFunction : Function → Walk σ Unit := fun _ => pure ()
  exitFunction : Function → Walk σ Item := fun f => pure (.function f)
  /-- To items other than variables and functions; some are removed. -/
  item : Item → Walk σ (Option Item) := fun i => pure (some i)
  itemCell : Item → Items → Span → Walk σ Items := fun i rest span => pure ((i, span) :: rest)
  enterUnit : Program → Walk σ Program := pure
  exitUnit : Program → Walk σ Program := pure

/-- Rewrites a type from the inside out. -/
def TypeExpr.mapUp (f : TypeExpr → Walk σ TypeExpr) : TypeExpr → Walk σ TypeExpr
  | .name n span => f (.name n span)
  | .ref target span => do
    let target ← target.mapUp f
    f (.ref target span)
  | .info type span => f (.info type span)

/-- Visits a declaration. -/
def Let.mapUp (v : Visitor σ) (d : Let) : Walk σ Stmt := do
  let ty ← d.ty.mapUp v.type
  let value ← v.expr d.value
  v.decl { d with ty := ty, value := value }

mutual

/-- Visits a statement. -/
def Stmt.mapUp (v : Visitor σ) : Stmt → Walk σ Stmt
  | .decl d => d.mapUp v
  | .set lvalue rvalue type span => do
    let lvalue ← v.expr lvalue
    let rvalue ← v.expr rvalue
    v.stmt (.set lvalue rvalue type span)
  | .ret none type span => v.stmt (.ret none type span)
  | .ret (some value) type span => do
    let value ← v.expr value
    v.stmt (.ret (some value) type span)
  | .expr e => .expr <$> v.expr e
  | .scope decl body frame span => do
    v.enterScope decl body frame span
    let decl ← decl.mapUp v
    let body ← body.mapUp v
    v.exitScope decl body frame span
  | .data d => v.stmt (.data d)
  | .load operand width span => do
    let operand ← v.expr operand
    v.stmt (.load operand width span)
  | .store operand width span => do
    let operand ← v.expr operand
    v.stmt (.store operand width span)
  | .arith op operand width span => do
    let operand ← v.expr operand
    v.stmt (.arith op operand width span)
  | .jump symbol span => v.stmt (.jump symbol span)
  | .rts span => v.stmt (.rts span)
  | .code code span => v.stmt (.code code span)

/-- Visits statements; a cell is left after the cells behind it. -/
def Stmts.mapUp (v : Visitor σ) : Stmts → Walk σ Stmts
  | .nil => pure .nil
  | .cons stmt rest span => do
    let stmt ← stmt.mapUp v
    let rest ← rest.mapUp v
    v.cell stmt rest span

end

/-- Visits a parameter. -/
def Param.mapUp (v : Visitor σ) (p : Param) : Walk σ Param := do
  let ty ← p.ty.mapUp v.type
  return { p with ty := ty }

/-- Visits parameters. -/
def Params.mapUp (v : Visitor σ) : Params → Walk σ Params
  | [] => pure []
  | entry :: rest => do
    let param ← entry.1.mapUp v
    let rest ← Params.mapUp v rest
    return (param, entry.2) :: rest

/-- Visits the result type of a function. -/
def visitResult (v : Visitor σ) : Option TypeExpr → Walk σ (Option TypeExpr)
  | none => pure none
  | some t => some <$> t.mapUp v.type

/-- Visits a function. -/
def Function.mapUp (v : Visitor σ) (f : Function) : Walk σ Item := do
  v.enterFunction f
  let params ← Params.mapUp v f.params
  let result ← visitResult v f.result
  let body ← f.body.mapUp v
  v.exitFunction { f with params := params, result := result, body := body }

/-- Visits an item. -/
def Item.mapUp (v : Visitor σ) : Item → Walk σ (Option Item)
  | .use name span => v.item (.use name span)
  | .constant name ty value symbol span => do
    let ty ← ty.mapUp v.type
    let value ← v.expr value
    v.item (.constant name ty value symbol span)
  | .global s => (some ∘ .global) <$> s.mapUp v
  | .function f => some <$> f.mapUp v
  | .compiled symbol code type locals span => v.item (.compiled symbol code type locals span)

/-- Leaves the cell of an item, if the item is left. -/
def leaveItemCell (v : Visitor σ) (rest : Items) (span : Span) : Option Item → Walk σ Items
  | none => pure rest
  | some i => v.itemCell i rest span

/-- Visits items; those that are removed leave no cell. -/
def Items.mapUp (v : Visitor σ) : Items → Walk σ Items
  | [] => pure []
  | entry :: rest => do
    let item ← entry.1.mapUp v
    let rest ← Items.mapUp v rest
    leaveItemCell v rest entry.2 item

end Lode.Program

namespace Lode

open Walk (Mirrors)

variable {σ τ : Type}

open Program in
/-- Visits a unit. -/
def Program.mapUp (v : Visitor σ) (p : Program) : Walk σ Program := do
  let p ← v.enterUnit p
  let items ← Items.mapUp v p.items
  v.exitUnit { p with items := items }

/-- A visitor that does nothing to units leaves their frames. -/
theorem Program.frame_of_mapUp {v : Visitor σ} (henter : v.enterUnit = pure) (hexit : v.exitUnit = pure)
    {p p' : Program} {s : σ} (hrun : ((p.mapUp v).outcome s).1 = .ok p') : p'.frame = p.frame := by
  obtain ⟨p1, s1, h1, hrest⟩ := Walk.outcome_bind_eq_ok.mp
    (Prod.ext hrun rfl : (p.mapUp v).outcome s = (.ok p', _))
  rw [henter] at h1
  obtain ⟨rfl, rfl⟩ := Walk.outcome_pure_eq_ok.mp h1
  obtain ⟨items, s2, hitems, hleft⟩ := Walk.outcome_bind_eq_ok.mp hrest
  rw [hexit] at hleft
  obtain ⟨rfl, -⟩ := Walk.outcome_pure_eq_ok.mp hleft
  rfl

namespace Program

/-! ## 2. Children of declarations, functions and units -/

namespace Let

variable (d : Let)

theorem framed_node : d.node.framed = true := by
  obtain ⟨_, storage, _, _, symbol, place, type, _⟩ := d
  cases storage <;> cases symbol <;> cases place <;> cases type <;> rfl

/-- The children of a declaration: its type and its value, in this order. -/
theorem visitOrder_node :
    visitOrder d.node.fields.nodes = [("ty", d.ty.node), ("value", d.value.node)] := by
  obtain ⟨_, storage, _, _, symbol, place, type, _⟩ := d
  cases storage <;> cases symbol <;> cases place <;> cases type <;> rfl

theorem mem_nodes : ("ty", d.ty.node) ∈ d.node.fields.nodes ∧
    ("value", d.value.node) ∈ d.node.fields.nodes := by
  constructor <;>
  · apply mem_of_mem_visitOrder
    simp [d.visitOrder_node]

theorem put_node (ty : TypeExpr) (value : Expr) :
    (d.node.fields.put "ty" (some ty.node)).put "value" (some value.node) =
      ({ d with ty := ty, value := value } : Let).node.fields := by
  obtain ⟨_, storage, _, _, symbol, place, type, _⟩ := d
  cases storage <;> cases symbol <;> cases place <;> cases type <;> rfl

end Let

/-- The attributes of a scope. -/
def scopeFields (decl : Stmt) (body : Stmts) (frame : Frame) : Fields :=
  .optional "body" (body.node?.map .node)
    (.optional "constants" (tableValue frame.raw.constants) (.cons "decl" (.node decl.node)
      (.optional "names" (tableValue frame.raw.names) .nil)))

theorem plain_tableValue (table : Fields) : ∀ v ∈ tableValue table, v.node? = none := by
  intro v hv
  cases table <;> simp [tableValue, Fields.isEmpty] at hv
  simp [← hv, Value.node?]

section Scope

variable (decl : Stmt) (body : Stmts) (frame : Frame)

theorem ordered_scopeFields : (scopeFields decl body frame).ordered = true :=
  Fields.ordered_optional (Fields.follows_optional rfl
    (Fields.follows_cons rfl (Fields.follows_optional rfl Fields.follows_nil)))

/-- The children of a scope: its body, if there is one, and its declaration. -/
theorem scope_nodes : (scopeFields decl body frame).nodes =
    (body.node?.map ("body", ·)).toList ++ [("decl", decl.node)] := by
  rw [scopeFields, Fields.nodes_optional_node,
    Fields.nodes_optional_plain (plain_tableValue _), Fields.nodes,
    Fields.nodes_optional_plain (plain_tableValue _)]
  rfl

theorem mem_scope_decl : ("decl", decl.node) ∈ (scopeFields decl body frame).nodes := by
  rw [scope_nodes]
  simp

theorem mem_scope_body {n : Node} (h : body.node? = some n) :
    ("body", n) ∈ (scopeFields decl body frame).nodes := by
  rw [scope_nodes, h]
  simp

theorem framed_scope (span : Span) : (Stmt.scope decl body frame span).node.framed = true := by
  have h := ordered_scopeFields decl body frame
  rw [scopeFields] at h
  simp [Stmt.node, Node.framed, Node.fields, Node.tag, lostElement, Tag.element?, h]

theorem put_scope_decl (decl' : Stmt) :
    (scopeFields decl body frame).put "decl" (some decl'.node) = scopeFields decl' body frame := by
  rw [scopeFields, Fields.put, Fields.assign_optional_of_gt rfl, Fields.assign_optional_of_gt rfl,
    Option.map_some, Fields.assign_cons_self, scopeFields]

theorem put_scope_body (body' : Stmts) :
    (scopeFields decl body frame).put "body" body'.node? = scopeFields decl body' frame := by
  rw [scopeFields, Fields.put, Fields.assign_optional_self (Fields.follows_optional rfl
    (Fields.follows_cons rfl (Fields.follows_optional rfl Fields.follows_nil))), scopeFields]

end Scope

namespace Function

variable (f : Function)

theorem framed_node : f.node.framed = true := by
  have h : f.node.fields.ordered = true :=
    Fields.ordered_optional (Fields.follows_optional rfl (Fields.follows_optional rfl
      (Fields.follows_cons rfl (Fields.follows_optional rfl (Fields.follows_optional rfl
        (Fields.follows_optional rfl (Fields.follows_optional rfl
          (Fields.follows_optional rfl Fields.follows_nil))))))))
  simp only [Node.framed, h, Bool.true_and]
  rfl

/-- The children of a function, as far as there are any. -/
theorem nodes_node : f.node.fields.nodes = (f.body.node?.map ("body", ·)).toList ++
    (f.params.node?.map ("params", ·)).toList ++ ((f.result.map TypeExpr.node).map ("ret", ·)).toList := by
  have hresult : (f.result.map fun t => Value.node t.node) =
      (f.result.map TypeExpr.node).map .node := by simp [Function.comp_def]
  simp only [node, Node.fields]
  rw [Fields.nodes_optional_node, Fields.nodes_optional_plain (plain_tableValue _),
    Fields.nodes_optional_plain (by simp [Value.node?]), Fields.nodes,
    Fields.nodes_optional_plain (plain_tableValue _), Fields.nodes_optional_node, hresult,
    Fields.nodes_optional_node, Fields.nodes_optional_plain (by simp [Value.node?]),
    Fields.nodes_optional_plain (by simp [Value.node?]), Fields.nodes, List.append_nil,
    List.append_assoc]
  · rintro v hv
    simp at hv

theorem visitOrder_node : visitOrder f.node.fields.nodes =
    (f.params.node?.map ("params", ·)).toList ++ ((f.result.map TypeExpr.node).map ("ret", ·)).toList ++
      (f.body.node?.map ("body", ·)).toList := by
  rw [nodes_node]
  cases f.params.node? <;> cases f.result <;> cases f.body.node? <;> rfl

theorem put_params (params : Params) :
    f.node.fields.put "params" params.node? = ({ f with params := params } : Function).node.fields := by
  simp only [node, Node.fields, Fields.put]
  rw [Fields.assign_optional_of_gt rfl, Fields.assign_optional_of_gt rfl, Fields.assign_optional_of_gt rfl,
    Fields.assign_cons_of_gt rfl, Fields.assign_optional_of_gt rfl, Fields.assign_optional_self
      (Fields.follows_optional rfl (Fields.follows_optional rfl
        (Fields.follows_optional rfl Fields.follows_nil)))]

theorem put_result (result : Option TypeExpr) :
    f.node.fields.put "ret" (result.map TypeExpr.node) =
      ({ f with result := result } : Function).node.fields := by
  simp only [node, Node.fields, Fields.put]
  rw [Fields.assign_optional_of_gt rfl, Fields.assign_optional_of_gt rfl, Fields.assign_optional_of_gt rfl,
    Fields.assign_cons_of_gt rfl, Fields.assign_optional_of_gt rfl, Fields.assign_optional_of_gt rfl,
    Fields.assign_optional_self (Fields.follows_optional rfl
      (Fields.follows_optional rfl Fields.follows_nil))]
  simp [Function.comp_def]

theorem put_body (body : Stmts) :
    f.node.fields.put "body" body.node? = ({ f with body := body } : Function).node.fields := by
  simp only [node, Node.fields, Fields.put]
  rw [Fields.assign_optional_self (Fields.follows_optional rfl (Fields.follows_optional rfl
    (Fields.follows_cons rfl (Fields.follows_optional rfl (Fields.follows_optional rfl
      (Fields.follows_optional rfl (Fields.follows_optional rfl
        (Fields.follows_optional rfl Fields.follows_nil))))))))]

end Function

section Unit

variable (p : Program)

theorem framed_node : p.node.framed = true := by
  have h : p.node.fields.ordered = true :=
    Fields.ordered_optional (Fields.follows_optional rfl
      (Fields.follows_optional rfl Fields.follows_nil))
  simp only [Node.framed, h, Bool.true_and]
  rfl

theorem visitOrder_node :
    visitOrder p.node.fields.nodes = ((Items.node? p.items).map ("body", ·)).toList := by
  simp only [node, Node.fields]
  rw [Fields.nodes_optional_node, Fields.nodes_optional_plain (plain_tableValue _),
    Fields.nodes_optional_plain (plain_tableValue _)]
  cases Items.node? p.items <;> rfl

theorem put_items (items : Items) :
    p.node.fields.put "body" (Items.node? items) = ({ p with items := items } : Program).node.fields := by
  simp only [node, Node.fields, Fields.put]
  rw [Fields.assign_optional_self (Fields.follows_optional rfl
    (Fields.follows_optional rfl Fields.follows_nil))]

end Unit

/-! ## 3. Hooks that visit -/

/-- Whether a statement is left by `Visitor.stmt`. -/
def Stmt.isPlain : Stmt → Bool
  | .decl _ | .expr _ | .scope _ _ _ _ => false
  | _ => true

/-- The parts of a program that have a node of their own, expressions apart. -/
inductive Part where
  | type (t : TypeExpr)
  | decl (d : Let)
  | stmt (s : Stmt) (plain : s.isPlain = true)
  | scope (decl : Stmt) (body : Stmts) (frame : Frame) (span : Span)
  | cell (stmt : Stmt) (rest : Stmts) (span : Span)
  | param (p : Param)
  | paramCell (p : Param) (next : Option Node) (span : Span)
  | function (f : Function)
  | use (name : String) (span : Span)
  | constant (name : String) (ty : TypeExpr) (value : Expr) (symbol : Option String) (span : Span)
  | compiled (symbol : String) (code : MachineCode) (type : Ty) (locals : Option Locals) (span : Span)
  | itemCell (i : Item) (rest : Items) (span : Span)
  | unit (p : Program)

/-- The node of a part. -/
def Part.node : Part → Node
  | type t => t.node
  | decl d => d.node
  | stmt s _ => s.node
  | scope d b frame span => (Stmt.scope d b frame span).node
  | cell s rest span =>
    .mk .stmts (.optional "next" (rest.node?.map .node) (.cons "stmt" (.node s.node) .nil)) span
  | param p => p.node
  | paramCell p next span =>
    .mk .params (.optional "next" (next.map .node) (.cons "param" (.node p.node) .nil)) span
  | function f => f.node
  | use name span => (Item.use name span).node
  | constant name ty value symbol span => (Item.constant name ty value symbol span).node
  | compiled symbol code t locals span => (Item.compiled symbol code t locals span).node
  | itemCell i rest span =>
    .mk .items (.cons "item" (.node i.node) (.optional "next" ((Items.node? rest).map .node) .nil)) span
  | unit p => p.node

/-- Whether a visitor does something on the way into a part. -/
def Part.opens : Part → Bool
  | .scope _ _ _ _ | .function _ | .unit _ => true
  | _ => false

/-- What a visitor leaves of a part on the way out. -/
def Visitor.exit (v : Visitor σ) : Part → Walk σ (Option Node)
  | .type t => (fun t' => some t'.node) <$> v.type t
  | .decl d => (fun s => some s.node) <$> v.decl d
  | .stmt s _ => (fun s' => some s'.node) <$> v.stmt s
  | .scope d b frame span => (fun s => some s.node) <$> v.exitScope d b frame span
  | .cell s rest span => Stmts.node? <$> v.cell s rest span
  | .function f => (fun i => some i.node) <$> v.exitFunction f
  | .use name span => (fun i => i.map Item.node) <$> v.item (.use name span)
  | .constant name ty value symbol span =>
    (fun i => i.map Item.node) <$> v.item (.constant name ty value symbol span)
  | .compiled symbol code type locals span =>
    (fun i => i.map Item.node) <$> v.item (.compiled symbol code type locals span)
  | .itemCell i rest span => Items.node? <$> v.itemCell i rest span
  | .unit p => (fun p' => some p'.node) <$> v.exitUnit p
  | part => pure (some part.node)

/-- The hooks of a walk do to the parts of programs, expressions apart, what a visitor does. -/
structure VisitsParts (raw : τ → σ) (hooks : Hooks σ) (v : Visitor τ) : Prop where
  pass : ∀ part : Part, part.opens = false → hooks.enter part.node = pure .keep
  enterScope : ∀ (d : Stmt) (b : Stmts) (frame : Frame) (span : Span),
    Mirrors raw (settle hooks.enter (Stmt.scope d b frame span).node)
      ((fun _ => some (Stmt.scope d b frame span).node) <$> v.enterScope d b frame span)
  enterFunction : ∀ f : Function,
    Mirrors raw (settle hooks.enter f.node) ((fun _ => some f.node) <$> v.enterFunction f)
  enterUnit : ∀ p : Program,
    Mirrors raw (settle hooks.enter p.node) ((fun p' => some p'.node) <$> v.enterUnit p)
  exit : ∀ part : Part, Mirrors raw (settle hooks.exit part.node) (v.exit part)

/-- The hooks of a walk do to the trees of programs what a visitor does to programs. -/
structure Visits (raw : τ → σ) (hooks : Hooks σ) (v : Visitor τ) : Prop
    extends VisitsParts raw hooks v where
  expr : ∀ (e : Expr) (fuel : Nat), e.node.size ≤ fuel →
    Mirrors raw (walkWithin hooks fuel e.node) ((fun e' => some e'.node) <$> v.expr e)

/-- Hooks that rewrite expressions from the inside out. -/
theorem Visits.ascending {raw : τ → σ} {hooks : Hooks σ} {v : Visitor τ} {f : Expr → Walk τ Expr}
    (hparts : VisitsParts raw hooks v) (hrewrites : Rewrites raw hooks f) (hv : v.expr = Expr.mapUp f) :
    Visits raw hooks v where
  toVisitsParts := hparts
  expr e fuel hfuel := hv ▸ hrewrites.walk_expr e fuel hfuel

namespace Visits

variable {raw : τ → σ} {hooks : Hooks σ} {v : Visitor τ}

/-- A walk over a type visits it from the inside out. -/
theorem walk_type (h : Visits raw hooks v) : ∀ (t : TypeExpr) (fuel : Nat), t.node.size ≤ fuel →
    Mirrors raw (walkWithin hooks fuel t.node) ((fun t' => some t'.node) <$> t.mapUp v.type)
  | t, 0, hfuel => absurd (Node.size_pos t.node) (by omega)
  | .name n span, fuel + 1, _ =>
    walkWithin_leaf (h.pass (.type (.name n span)) rfl) rfl rfl (h.exit (.type (.name n span)))
  | .ref target span, fuel + 1, hfuel => by
    have ih := walk_type h target fuel (Node.size_child_le hfuel List.mem_cons_self)
    rw [TypeExpr.mapUp, map_bind]
    exact walkWithin_one (h.pass (.type (.ref target span)) rfl) rfl ih rfl (fun _ => rfl)
      fun a => h.exit (.type (.ref a span))
  | .info type span, fuel + 1, _ =>
    walkWithin_leaf (h.pass (.type (.info type span)) rfl) rfl rfl (h.exit (.type (.info type span)))

/-- A walk over a declaration visits its type, its value, and then the declaration. -/
theorem walk_decl (h : Visits raw hooks v) (d : Let) : ∀ (fuel : Nat), d.node.size ≤ fuel →
    Mirrors raw (walkWithin hooks fuel d.node) ((fun s => some s.node) <$> d.mapUp v)
  | 0, hfuel => absurd (Node.size_pos d.node) (by omega)
  | fuel + 1, hfuel => by
    have hty := h.walk_type d.ty fuel (Node.size_child_le hfuel d.mem_nodes.1)
    have hvalue := h.expr d.value fuel (Node.size_child_le hfuel d.mem_nodes.2)
    rw [Let.mapUp, map_bind]
    simp only [map_bind]
    refine walkWithin_two (h.pass (.decl d) rfl) d.framed_node hty hvalue d.visitOrder_node
      (fun _ _ => rfl) fun ty value => ?_
    have hexit := h.exit (.decl { d with ty := ty, value := value })
    have hnode : Node.mk .letDecl ((d.node.fields.put "ty" (some ty.node)).put "value"
        (some value.node)) d.span = ({ d with ty := ty, value := value } : Let).node :=
      congrArg (fun fields => Node.mk .letDecl fields d.span) (d.put_node ty value)
    exact (congrArg (fun n => Mirrors raw (settle hooks.exit n) _) hnode).mpr hexit

mutual

/-- **A walk over a statement.** The induction is on the statement, and takes the statements in it along. -/
theorem walk_stmt (h : Visits raw hooks v) : ∀ (s : Stmt) (fuel : Nat), s.node.size ≤ fuel →
    Mirrors raw (walkWithin hooks fuel s.node) ((fun s' => some s'.node) <$> s.mapUp v)
  | s, 0, hfuel => absurd (Node.size_pos s.node) (by omega)
  | .decl d, fuel + 1, hfuel => h.walk_decl d (fuel + 1) hfuel
  | .set lvalue rvalue type span, fuel + 1, hfuel => by
    have hl := h.expr lvalue fuel (Node.size_child_le hfuel List.mem_cons_self)
    have hr := h.expr rvalue fuel
      (Node.size_child_le hfuel (List.mem_cons_of_mem _ List.mem_cons_self))
    have hexit := fun a b => h.exit (.stmt (.set a b type span) rfl)
    rw [Stmt.mapUp, map_bind]
    simp only [map_bind]
    cases type <;>
      exact walkWithin_two (h.pass (.stmt (.set lvalue rvalue _ span) rfl) rfl) rfl hl hr rfl
        (fun _ _ => rfl) hexit
  | .ret none type span, fuel + 1, _ => by
    have hexit := h.exit (.stmt (.ret none type span) rfl)
    cases type <;>
      exact walkWithin_leaf (h.pass (.stmt (.ret none _ span) rfl) rfl) rfl rfl hexit
  | .ret (some value) type span, fuel + 1, hfuel => by
    have ih := h.expr value fuel (Node.size_child_le hfuel (by
      cases type <;> exact List.mem_cons_self))
    have hexit := fun a => h.exit (.stmt (.ret (some a) type span) rfl)
    rw [Stmt.mapUp, map_bind]
    cases type with
    | none =>
      exact walkWithin_one (h.pass (.stmt (.ret (some value) none span) rfl) rfl) rfl ih rfl
        (fun _ => rfl) hexit
    | some t =>
      exact walkWithin_one (h.pass (.stmt (.ret (some value) (some t) span) rfl) rfl) rfl ih rfl
        (fun _ => rfl) hexit
  | .expr e, fuel + 1, hfuel => by
    rw [Stmt.mapUp, Functor.map_map]
    exact h.expr e (fuel + 1) hfuel
  | .scope decl .nil frame span, fuel + 1, hfuel => by
    have ih := walk_stmt h decl fuel (Node.size_child_le hfuel (mem_scope_decl decl .nil frame))
    rw [Stmt.mapUp, map_bind]
    refine walkWithin_keep (h.enterScope decl .nil frame span) (framed_scope decl .nil frame span) ?_
    rw [map_bind]
    refine walkInside_one ih ((congrArg visitOrder (scope_nodes decl .nil frame)).trans rfl)
      (fun _ => rfl) fun a => ?_
    rw [Stmts.mapUp, pure_bind]
    have hput := put_scope_decl decl .nil frame a
    rw [scopeFields] at hput
    rw [hput]
    exact h.exit (.scope a .nil frame span)
  | .scope decl (.cons stmt rest cell) frame span, fuel + 1, hfuel => by
    have ih := walk_stmt h decl fuel
      (Node.size_child_le hfuel (mem_scope_decl decl (.cons stmt rest cell) frame))
    have ihb := walk_stmts h (.cons stmt rest cell) _ fuel rfl
      (Node.size_child_le hfuel (mem_scope_body decl (.cons stmt rest cell) frame rfl))
    rw [Stmt.mapUp, map_bind]
    refine walkWithin_keep (h.enterScope decl (.cons stmt rest cell) frame span)
      (framed_scope decl (.cons stmt rest cell) frame span) ?_
    simp only [map_bind]
    refine walkInside_two ih ihb
      ((congrArg visitOrder (scope_nodes decl (.cons stmt rest cell) frame)).trans rfl)
      (fun _ _ => rfl) fun a b => ?_
    have hput := (congrArg (fun fields => fields.put "body" b.node?)
      (put_scope_decl decl (.cons stmt rest cell) frame a)).trans
      (put_scope_body a (.cons stmt rest cell) frame b)
    rw [scopeFields] at hput
    rw [hput]
    exact h.exit (.scope a b frame span)
  | .data d, fuel + 1, _ =>
    walkWithin_leaf (h.pass (.stmt (.data d) rfl) rfl) rfl rfl (h.exit (.stmt (.data d) rfl))
  | .load operand width span, fuel + 1, hfuel => by
    have ih := h.expr operand fuel (Node.size_child_le hfuel List.mem_cons_self)
    rw [Stmt.mapUp, map_bind]
    exact walkWithin_one (h.pass (.stmt (.load operand width span) rfl) rfl) rfl ih rfl
      (fun _ => rfl) fun a => h.exit (.stmt (.load a width span) rfl)
  | .store operand width span, fuel + 1, hfuel => by
    have ih := h.expr operand fuel (Node.size_child_le hfuel List.mem_cons_self)
    rw [Stmt.mapUp, map_bind]
    exact walkWithin_one (h.pass (.stmt (.store operand width span) rfl) rfl) rfl ih rfl
      (fun _ => rfl) fun a => h.exit (.stmt (.store a width span) rfl)
  | .arith op operand width span, fuel + 1, hfuel => by
    have ih := h.expr operand fuel (Node.size_child_le hfuel List.mem_cons_self)
    rw [Stmt.mapUp, map_bind]
    exact walkWithin_one (h.pass (.stmt (.arith op operand width span) rfl) rfl) rfl ih rfl
      (fun _ => rfl) fun a => h.exit (.stmt (.arith op a width span) rfl)
  | .jump symbol span, fuel + 1, _ =>
    walkWithin_leaf (h.pass (.stmt (.jump symbol span) rfl) rfl) rfl rfl
      (h.exit (.stmt (.jump symbol span) rfl))
  | .rts span, fuel + 1, _ =>
    walkWithin_leaf (h.pass (.stmt (.rts span) rfl) rfl) rfl rfl (h.exit (.stmt (.rts span) rfl))
  | .code code span, fuel + 1, _ =>
    walkWithin_leaf (h.pass (.stmt (.code code span) rfl) rfl) rfl rfl
      (h.exit (.stmt (.code code span) rfl))

/-- A walk over a chain of statements leaves each cell behind the cells that follow it. -/
theorem walk_stmts (h : Visits raw hooks v) : ∀ (stmts : Stmts) (n : Node) (fuel : Nat),
    stmts.node? = some n → n.size ≤ fuel →
    Mirrors raw (walkWithin hooks fuel n) (Stmts.node? <$> stmts.mapUp v)
  | .nil, _, _, hn, _ => by simp [Stmts.node?] at hn
  | _, n, 0, _, hfuel => absurd (Node.size_pos n) (by omega)
  | .cons stmt .nil span, n, fuel + 1, hn, hfuel => by
    obtain rfl := Option.some.inj hn
    have ih := walk_stmt h stmt fuel (Node.size_child_le hfuel List.mem_cons_self)
    rw [Stmts.mapUp, map_bind]
    refine walkWithin_one (h.pass (.cell stmt .nil span) rfl) rfl ih rfl (fun _ => rfl) fun a => ?_
    rw [Stmts.mapUp, pure_bind]
    exact h.exit (.cell a .nil span)
  | .cons stmt (.cons stmt' rest cell) span, n, fuel + 1, hn, hfuel => by
    obtain rfl := Option.some.inj hn
    have ihr := walk_stmts h (.cons stmt' rest cell) _ fuel rfl
      (Node.size_child_le hfuel List.mem_cons_self)
    have ih := walk_stmt h stmt fuel
      (Node.size_child_le hfuel (List.mem_cons_of_mem _ List.mem_cons_self))
    conv => rhs; rw [Stmts.mapUp]
    simp only [map_bind]
    refine walkWithin_two (h.pass (.cell stmt (.cons stmt' rest cell) span) rfl) rfl ih ihr rfl
      (fun _ b => by cases b <;> rfl) fun a b => ?_
    have hexit := h.exit (.cell a b span)
    cases b <;> exact hexit

end

/-! ## 4. Functions and items -/

theorem walk_param (h : Visits raw hooks v) (p : Param) : ∀ fuel : Nat, p.node.size ≤ fuel →
    Mirrors raw (walkWithin hooks fuel p.node) ((fun p' => some p'.node) <$> p.mapUp v)
  | 0, hfuel => absurd (Node.size_pos p.node) (by omega)
  | fuel + 1, hfuel => by
    obtain ⟨name, ty, symbol, span⟩ := p
    have ih := h.walk_type ty fuel (Node.size_child_le hfuel (by
      cases symbol <;> exact List.mem_cons_self))
    have hexit := fun a => h.exit (.param ⟨name, a, symbol, span⟩)
    rw [Param.mapUp, map_bind]
    cases symbol with
    | none =>
      exact walkWithin_one (h.pass (.param ⟨name, ty, none, span⟩) rfl) rfl ih rfl (fun _ => rfl) hexit
    | some symbol =>
      exact walkWithin_one (h.pass (.param ⟨name, ty, some symbol, span⟩) rfl) rfl ih rfl
        (fun _ => rfl) hexit

/-- A walk over a chain of parameters visits them one after the other. -/
theorem walk_params (h : Visits raw hooks v) : ∀ (params : Params) (n : Node) (fuel : Nat),
    params.node? = some n → n.size ≤ fuel →
    Mirrors raw (walkWithin hooks fuel n) (Params.node? <$> Params.mapUp v params)
  | [], _, _, hn, _ => by simp [Params.node?] at hn
  | _, n, 0, _, hfuel => absurd (Node.size_pos n) (by omega)
  | [entry], n, fuel + 1, hn, hfuel => by
    obtain rfl := Option.some.inj hn
    have ih := h.walk_param entry.1 fuel (Node.size_child_le hfuel List.mem_cons_self)
    rw [Params.mapUp, map_bind]
    refine walkWithin_one (h.pass (.paramCell entry.1 none entry.2) rfl) rfl ih rfl (fun _ => rfl)
      fun a => ?_
    rw [Params.mapUp, pure_bind, map_pure]
    exact h.exit (.paramCell a none entry.2)
  | entry :: entry' :: rest, n, fuel + 1, hn, hfuel => by
    obtain rfl := Option.some.inj hn
    have ihr := walk_params h (entry' :: rest) _ fuel rfl
      (Node.size_child_le hfuel List.mem_cons_self)
    have ih := h.walk_param entry.1 fuel
      (Node.size_child_le hfuel (List.mem_cons_of_mem _ List.mem_cons_self))
    conv => rhs; rw [Params.mapUp]
    simp only [map_bind, map_pure]
    refine walkWithin_two (h.pass (.paramCell entry.1 (some _) entry.2) rfl) rfl ih ihr rfl
      (fun _ b => by cases b <;> rfl) fun a b => ?_
    have hexit := h.exit (.paramCell a (Params.node? b) entry.2)
    cases b <;> exact hexit

/-- Inside a function, whatever the way into it did. -/
theorem walk_insideFunction (h : Visits raw hooks v) (f : Function) {fuel : Nat}
    (hfuel : f.node.size ≤ fuel + 1) :
    Mirrors raw (walkInside hooks fuel f.node) ((fun i => some i.node) <$> (do
      let params ← Params.mapUp v f.params
      let result ← visitResult v f.result
      let body ← f.body.mapUp v
      v.exitFunction { f with params := params, result := result, body := body })) := by
  have hmem : ∀ name n, (name, n) ∈ visitOrder f.node.fields.nodes → n.size ≤ fuel := fun _ _ h =>
    Node.size_child_le hfuel (mem_of_mem_visitOrder h)
  rw [f.visitOrder_node] at hmem
  have hparams : Mirrors raw (visitEach (walkWithin hooks fuel) (f.params.node?.map ("params", ·)).toList
      f.node.fields) ((fun params => ({ f with params := params } : Function).node.fields) <$>
        Params.mapUp v f.params) := by
    rw [← funext f.put_params]
    refine visitEach_option (fun n hn => h.walk_params f.params n fuel hn
      (hmem "params" n (by simp [hn]))) fun hn => ?_
    cases hparams : f.params with
    | nil => exact ⟨[], rfl, by rw [f.put_params, ← hparams]⟩
    | cons _ _ => simp [hparams, Params.node?] at hn
  have hresult : ∀ g : Function, g.result = f.result →
      Mirrors raw (visitEach (walkWithin hooks fuel)
        ((f.result.map TypeExpr.node).map ("ret", ·)).toList g.node.fields)
        ((fun result => ({ g with result := result } : Function).node.fields) <$>
          visitResult v f.result) := fun g hg => by
    rw [← funext g.put_result]
    refine visitEach_option (fun n hn => ?_) fun hn => ?_
    · obtain ⟨t, ht, rfl⟩ := Option.map_eq_some_iff.mp hn
      rw [ht, visitResult, Functor.map_map]
      exact h.walk_type t fuel (hmem "ret" t.node (by simp [ht]))
    · have hnone : f.result = none := by simpa using hn
      exact ⟨none, by rw [hnone, visitResult], by rw [g.put_result, ← hnone, ← hg]⟩
  have hbody : ∀ g : Function, g.body = f.body →
      Mirrors raw (visitEach (walkWithin hooks fuel) (f.body.node?.map ("body", ·)).toList g.node.fields)
        ((fun body => ({ g with body := body } : Function).node.fields) <$> f.body.mapUp v) :=
      fun g hg => by
    rw [← funext g.put_body]
    refine visitEach_option (fun n hn => h.walk_stmts f.body n fuel hn
      (hmem "body" n (by simp [hn]))) fun hn => ?_
    cases hbody : f.body with
    | nil => exact ⟨.nil, by rw [Stmts.mapUp], by rw [g.put_body, ← hbody, ← hg]⟩
    | cons _ _ _ => simp [hbody, Stmts.node?] at hn
  rw [walkInside, f.visitOrder_node, visitEach_append, visitEach_append]
  simp only [map_bind, bind_assoc]
  refine hparams.bind_map fun params => ?_
  refine (hresult { f with params := params } rfl).bind_map fun result => ?_
  refine (hbody { f with params := params, result := result } rfl).bind_map fun body => ?_
  exact h.exit (.function { f with params := params, result := result, body := body })

/-- **A walk over a function**, from the way into it to the way out. -/
theorem walk_function (h : Visits raw hooks v) (f : Function) : ∀ fuel : Nat, f.node.size ≤ fuel →
    Mirrors raw (walkWithin hooks fuel f.node) ((fun i => some i.node) <$> f.mapUp v)
  | 0, hfuel => absurd (Node.size_pos f.node) (by omega)
  | fuel + 1, hfuel => by
    rw [Function.mapUp, map_bind]
    exact walkWithin_keep (h.enterFunction f) f.framed_node (h.walk_insideFunction f hfuel)

/-- A walk over an item goes by what the item is. -/
theorem walk_item (h : Visits raw hooks v) : ∀ (i : Item) (fuel : Nat), i.node.size ≤ fuel →
    Mirrors raw (walkWithin hooks fuel i.node) ((fun i' => i'.map Item.node) <$> i.mapUp v)
  | i, 0, hfuel => absurd (Node.size_pos i.node) (by omega)
  | .use name span, fuel + 1, _ =>
    walkWithin_leaf (h.pass (.use name span) rfl) rfl rfl (h.exit (.use name span))
  | .constant name ty value symbol span, fuel + 1, hfuel => by
    have hty := h.walk_type ty fuel (Node.size_child_le hfuel (by
      cases symbol <;> exact List.mem_cons_self))
    have hvalue := h.expr value fuel (Node.size_child_le hfuel (by
      cases symbol <;> exact List.mem_cons_of_mem _ List.mem_cons_self))
    have hexit := fun a b => h.exit (.constant name a b symbol span)
    rw [Item.mapUp, map_bind]
    simp only [map_bind]
    cases symbol with
    | none =>
      exact walkWithin_two (h.pass (.constant name ty value none span) rfl) rfl hty hvalue rfl
        (fun _ _ => rfl) hexit
    | some symbol =>
      exact walkWithin_two (h.pass (.constant name ty value (some symbol) span) rfl) rfl hty hvalue rfl
        (fun _ _ => rfl) hexit
  | .global s, fuel + 1, hfuel => by
    rw [Item.mapUp, Functor.map_map]
    exact h.walk_stmt s (fuel + 1) hfuel
  | .function f, fuel + 1, hfuel => by
    rw [Item.mapUp, Functor.map_map]
    exact h.walk_function f (fuel + 1) hfuel
  | .compiled symbol code type locals span, fuel + 1, _ => by
    have hexit := h.exit (.compiled symbol code type locals span)
    cases locals <;> exact walkWithin_leaf (h.pass (.compiled symbol code type _ span) rfl) rfl rfl hexit

/-- A cell of items: without its item it gives way to the cells behind it. -/
theorem walk_itemCell (h : Visits raw hooks v) (item : Item) (rest : Items) (span : Span)
    {fuel : Nat} {w : Walk τ Items}
    (hitem : Mirrors raw (walkWithin hooks fuel item.node) ((fun i => i.map Item.node) <$> item.mapUp v))
    (hnext : ∀ n, Items.node? rest = some n → Mirrors raw (walkWithin hooks fuel n) (Items.node? <$> w))
    (hnone : Items.node? rest = none → w = pure []) :
    Mirrors raw (walkWithin hooks (fuel + 1) (Part.itemCell item rest span).node)
      (Items.node? <$> (do
        let item ← item.mapUp v
        let rest ← w
        leaveItemCell v rest span item)) := by
  have henter := h.pass (.itemCell item rest span) rfl
  simp only [Part.node] at henter ⊢
  generalize Items.node? rest = next at hnext hnone henter ⊢
  have hnodes : visitOrder (Fields.cons "item" (.node item.node)
      (.optional "next" (next.map .node) .nil)).nodes =
      ("item", item.node) :: (next.map ("next", ·)).toList := by cases next <;> rfl
  have hrest : ∀ left, Mirrors raw (visitEach (walkWithin hooks fuel) (next.map ("next", ·)).toList
      (.put (.cons "item" (.node item.node) (.optional "next" (next.map .node) .nil)) "item" left))
      ((fun items => .put (.put (.cons "item" (.node item.node)
        (.optional "next" (next.map .node) .nil)) "item" left) "next" (Items.node? items)) <$> w) := by
    refine fun left => visitEach_option hnext fun hn => ⟨[], hnone hn, ?_⟩
    subst hn
    cases left <;> rfl
  refine walkWithin_pass henter (by cases next <;> rfl) ?_
  simp only [walkInside, Node.fields, Node.tag, Node.span]
  rw [hnodes]
  simp only [visitEach, bind_assoc, map_bind]
  refine hitem.bind_map fun i => (hrest _).bind_map fun items => ?_
  cases i with
  | none => cases next <;> cases items <;> exact .pure _
  | some i =>
    cases items with
    | nil => cases next <;> exact h.exit (.itemCell i [] span)
    | cons e es => cases next <;> exact h.exit (.itemCell i (e :: es) span)

/-- **A walk over a chain of items**, some of which may be removed. -/
theorem walk_items (h : Visits raw hooks v) : ∀ (items : Items) (n : Node) (fuel : Nat),
    Items.node? items = some n → n.size ≤ fuel →
    Mirrors raw (walkWithin hooks fuel n) (Items.node? <$> Items.mapUp v items)
  | [], _, _, hn, _ => by simp [Items.node?] at hn
  | _, n, 0, _, hfuel => absurd (Node.size_pos n) (by omega)
  | entry :: rest, n, fuel + 1, hn, hfuel => by
    obtain rfl := Option.some.inj hn
    have ih := h.walk_item entry.1 fuel (Node.size_child_le hfuel List.mem_cons_self)
    refine h.walk_itemCell entry.1 rest entry.2 ih (fun n hn => ?_) fun hn => ?_
    · have hmem : ("next", n) ∈ (Fields.optional "next" ((Items.node? rest).map .node) .nil).nodes := by
        rw [hn]
        exact List.mem_cons_self
      exact walk_items h rest n fuel hn (Node.size_child_le hfuel (List.mem_cons_of_mem _ hmem))
    · cases rest with
      | nil => rw [Items.mapUp]
      | cons _ _ => simp [Items.node?] at hn

/-- Inside a unit, whatever the way into it did. -/
theorem walk_insideUnit (h : Visits raw hooks v) (p : Program) {fuel : Nat}
    (hfuel : p.node.size ≤ fuel + 1) : Mirrors raw (walkInside hooks fuel p.node)
      ((fun p' => some p'.node) <$> (do
        let items ← Items.mapUp v p.items
        v.exitUnit { p with items := items })) := by
  have hbody : Mirrors raw (visitEach (walkWithin hooks fuel)
      ((Items.node? p.items).map ("body", ·)).toList p.node.fields)
      ((fun items => ({ p with items := items } : Program).node.fields) <$> Items.mapUp v p.items) := by
    rw [← funext p.put_items]
    refine visitEach_option (fun n hn => h.walk_items p.items n fuel hn ?_) fun hn => ?_
    · have hmem : ("body", n) ∈ visitOrder p.node.fields.nodes := by
        rw [p.visitOrder_node, hn]
        exact List.mem_cons_self
      exact Node.size_child_le hfuel (mem_of_mem_visitOrder hmem)
    · cases hitems : p.items with
      | nil => exact ⟨[], by rw [Items.mapUp], by rw [p.put_items, ← hitems]⟩
      | cons _ _ => simp [hitems, Items.node?] at hn
  rw [walkInside, p.visitOrder_node, map_bind]
  exact hbody.bind_map fun items => h.exit (.unit { p with items := items })

/-- **Walks over programs.**  A walk whose hooks do what a visitor does leaves the tree of the visited
program, if the budget is enough for the program that is entered. -/
theorem walk_program (h : Visits raw hooks v) (p : Program) {fuel : Nat}
    (hfuel : ∀ t p' t', (v.enterUnit p).outcome t = (.ok p', t') → p'.node.size ≤ fuel + 1) :
    Mirrors raw (walkWithin hooks (fuel + 1) p.node) ((fun p' => some p'.node) <$> p.mapUp v) := by
  rw [Program.mapUp, map_bind]
  exact walkWithin_enter (h.enterUnit p) (fun p => p.framed_node)
    fun p' t t' hrun => h.walk_insideUnit p' (hfuel t p' t' hrun)

end Visits

end Program

end Lode
