/-
# Sequences of programs

The chains of items, parameters, statements and arguments hold their elements in order, and building a chain
from elements gives a chain of a program again.

There are four kinds of chains, and the passes use them in both directions.  A pass that goes over the
elements of a node finds the nodes of the items, parameters, statements or arguments, one for each
(`Items.elements` and its kin); a pass that makes a sequence of nodes makes the tree of the chain that has
these (`Items.sequence_eq` and its kin).  A chain without elements has no node at all, so an empty list is a
missing attribute, and these lemmas are about optional nodes.

Every cell has a place of its own, which covers its element and what is behind it.  New cells get the joined
place, and the lemmas that go back and forth between lists and chains therefore say nothing of places.
-/
import Lode.Proofs.Program.Basic

namespace Lode.Program

/-- The place of a cell in front of a chain. -/
def joinSpan (span : Span) : Option Node → Span
  | some rest => span.join rest.span
  | none => span

/-! ## 1. Items -/

/-- Items in a chain of new cells. -/
def Items.ofList : List Item → Items
  | [] => []
  | i :: rest => (i, joinSpan i.node.span (Items.node? (ofList rest))) :: ofList rest

@[simp] theorem Items.map_fst_ofList : ∀ l : List Item, (Items.ofList l).map (·.1) = l
  | [] => rfl
  | _ :: rest => by rw [Items.ofList, List.map_cons, map_fst_ofList rest]

/-- A sequence of the nodes of items is a chain of the items. -/
theorem Items.sequence_eq : ∀ l : List Item,
    Node.sequence .items (l.map Item.node) none = Items.node? (Items.ofList l)
  | [] => rfl
  | i :: rest => by
    have ih := sequence_eq rest
    simp only [Node.sequence, Tag.element?, List.map_cons, List.foldr_cons] at ih ⊢
    rw [ih, Items.ofList, Items.node?]
    cases Items.node? (ofList rest) <;> rfl

/-- The cells of a chain hold its items, one each. -/
theorem Items.cells : ∀ {items : Items} {n : Node}, Items.node? items = some n →
    n.tag = .items ∧ n.cells.filterMap (·.node? "item") = items.map (·.1.node)
  | [], n, h => by cases h
  | entry :: rest, n, h => by
    obtain rfl := Option.some.inj h
    refine ⟨rfl, ?_⟩
    cases hrest : Items.node? rest with
    | none =>
      cases rest with
      | nil => rfl
      | cons _ _ => simp [Items.node?] at hrest
    | some m =>
      obtain ⟨htag, hcells⟩ := cells hrest
      simp only [Node.cells, Fields.nextCells, Fields.optional, Option.map_some, htag]
      simpa [Node.node?, Node.get?, Node.fields, Fields.get?, Value.node?] using hcells

theorem Items.elements {items : Items} {n : Node} (h : Items.node? items = some n) :
    n.elements = items.map (·.1.node) := by
  obtain ⟨htag, hcells⟩ := Items.cells h
  rw [Node.elements, htag]
  exact hcells

theorem Items.eq_nil_of_node? {items : Items} (h : Items.node? items = none) : items = [] := by
  cases items with
  | nil => rfl
  | cons _ _ => simp [Items.node?] at h

/-! ## 2. Parameters -/

/-- Parameters in a chain of new cells. -/
def Params.ofList : List Param → Params
  | [] => []
  | p :: rest => (p, joinSpan p.node.span (Params.node? (ofList rest))) :: ofList rest

@[simp] theorem Params.map_fst_ofList : ∀ l : List Param, (Params.ofList l).map Prod.fst = l
  | [] => rfl
  | _ :: rest => by rw [Params.ofList, List.map_cons, map_fst_ofList rest]

/-- A sequence of the nodes of parameters is a chain of the parameters. -/
theorem Params.sequence_eq : ∀ l : List Param,
    Node.sequence .params (l.map Param.node) none = Params.node? (Params.ofList l)
  | [] => rfl
  | p :: rest => by
    have ih := sequence_eq rest
    simp only [Node.sequence, Tag.element?, List.map_cons, List.foldr_cons] at ih ⊢
    rw [ih, Params.ofList, Params.node?]
    cases Params.node? (ofList rest) <;> rfl

theorem Params.cells : ∀ {params : Params} {n : Node}, Params.node? params = some n →
    n.tag = .params ∧ n.cells.filterMap (·.node? "param") = params.map (·.1.node)
  | [], n, h => by cases h
  | entry :: rest, n, h => by
    obtain rfl := Option.some.inj h
    refine ⟨rfl, ?_⟩
    cases hrest : Params.node? rest with
    | none =>
      cases rest with
      | nil => rfl
      | cons _ _ => simp [Params.node?] at hrest
    | some m =>
      obtain ⟨htag, hcells⟩ := cells hrest
      simp only [Node.cells, Fields.nextCells, Fields.optional, Option.map_some, htag]
      simpa [Node.node?, Node.get?, Node.fields, Fields.get?, Value.node?] using hcells

theorem Params.elements {params : Params} {n : Node} (h : Params.node? params = some n) :
    n.elements = params.map (·.1.node) := by
  obtain ⟨htag, hcells⟩ := Params.cells h
  rw [Node.elements, htag]
  exact hcells

/-! ## 3. Statements -/

/-- The statements of a chain. -/
def Stmts.toList : Stmts → List Stmt
  | .nil => []
  | .cons stmt rest _ => stmt :: rest.toList

/-- Statements in new cells in front of a chain. -/
def Stmts.prepend (rest : Stmts) : List Stmt → Stmts
  | [] => rest
  | s :: front => .cons s (rest.prepend front) (joinSpan s.node.span (rest.prepend front).node?)

@[simp] theorem Stmts.toList_prepend (rest : Stmts) : ∀ front : List Stmt,
    (rest.prepend front).toList = front ++ rest.toList
  | [] => rfl
  | s :: front => by rw [Stmts.prepend, Stmts.toList, toList_prepend rest front]; rfl

/-- A sequence of the nodes of statements in front of a chain is a chain of all of them. -/
theorem Stmts.sequence_eq (rest : Stmts) : ∀ front : List Stmt,
    Node.sequence .stmts (front.map Stmt.node) rest.node? = (rest.prepend front).node?
  | [] => rfl
  | s :: front => by
    have ih := sequence_eq rest front
    simp only [Node.sequence, Tag.element?, List.map_cons, List.foldr_cons] at ih ⊢
    rw [ih, Stmts.prepend, Stmts.node?]
    cases (rest.prepend front).node? <;> rfl

theorem Stmts.cells : ∀ {stmts : Stmts} {n : Node}, stmts.node? = some n →
    n.tag = .stmts ∧ n.cells.filterMap (·.node? "stmt") = stmts.toList.map Stmt.node
  | .nil, n, h => by cases h
  | .cons stmt rest span, n, h => by
    obtain rfl := Option.some.inj h
    refine ⟨rfl, ?_⟩
    cases hrest : rest.node? with
    | none =>
      cases rest with
      | nil => rfl
      | cons _ _ _ => simp [Stmts.node?] at hrest
    | some m =>
      obtain ⟨htag, hcells⟩ := cells hrest
      simp only [Node.cells, Fields.nextCells, Fields.optional, Option.map_some, htag, Stmts.toList]
      simpa [Node.node?, Node.get?, Node.fields, Fields.get?, Value.node?] using hcells

theorem Stmts.elements {stmts : Stmts} {n : Node} (h : stmts.node? = some n) :
    n.elements = stmts.toList.map Stmt.node := by
  obtain ⟨htag, hcells⟩ := Stmts.cells h
  rw [Node.elements, htag]
  exact hcells

theorem Stmts.eq_nil_of_node? {stmts : Stmts} (h : stmts.node? = none) : stmts = .nil := by
  cases stmts with
  | nil => rfl
  | cons _ _ _ => simp [Stmts.node?] at h

/-! ## 4. Arguments -/

/-- The arguments of a chain. -/
def Args.toList : Args → List Expr
  | .nil => []
  | .cons arg rest _ => arg :: rest.toList

theorem Args.cells : ∀ {args : Args} {n : Node}, args.node? = some n →
    n.tag = .args ∧ n.cells.filterMap (·.node? "arg") = args.toList.map Expr.node
  | .nil, n, h => by cases h
  | .cons arg rest span, n, h => by
    obtain rfl := Option.some.inj h
    refine ⟨rfl, ?_⟩
    cases hrest : rest.node? with
    | none =>
      cases rest with
      | nil => rfl
      | cons _ _ _ => simp [Args.node?] at hrest
    | some m =>
      obtain ⟨htag, hcells⟩ := cells hrest
      simp only [Node.cells, Fields.nextCells, Fields.optional, Option.map_some, htag, Args.toList]
      simpa [Node.node?, Node.get?, Node.fields, Fields.get?, Value.node?] using hcells

theorem Args.elements {args : Args} {n : Node} (h : args.node? = some n) :
    n.elements = args.toList.map Expr.node := by
  obtain ⟨htag, hcells⟩ := Args.cells h
  rw [Node.elements, htag]
  exact hcells

/-- Arguments take fewer nodes than their chain. -/
theorem Args.size_lt {arg : Expr} : ∀ {args : Args} {n : Node}, args.node? = some n → arg ∈ args.toList →
    arg.node.size < n.size
  | .cons first .nil span, n, hn, harg => by
    obtain rfl := Option.some.inj hn
    obtain rfl := List.mem_singleton.mp harg
    exact Node.size_child_lt List.mem_cons_self
  | .cons first (.cons second rest span') span, n, hn, harg => by
    obtain rfl := Option.some.inj hn
    rcases List.mem_cons.mp harg with rfl | harg
    · exact Node.size_child_lt List.mem_cons_self
    · refine Nat.lt_trans (Args.size_lt rfl harg) ?_
      exact Node.size_child_lt (List.mem_cons_of_mem _ List.mem_cons_self)

/-! ## 5. Sequences under a name -/

theorem Function.node?_params (f : Function) : f.node.node? "params" = Params.node? f.params := by
  simp only [Node.node?, Node.get?, Function.node, Node.fields, Fields.get?_optional, Fields.get?]
  cases Params.node? f.params <;> simp [Value.node?]

theorem Function.node?_body (f : Function) : f.node.node? "body" = f.body.node? := by
  simp only [Node.node?, Node.get?, Function.node, Node.fields, Fields.get?_optional, Fields.get?]
  cases f.body.node? <;> simp [Value.node?]

theorem Function.elementsOf_params (f : Function) :
    f.node.elementsOf "params" = f.params.map (·.1.node) := by
  rw [Node.elementsOf, f.node?_params]
  cases h : Params.node? f.params with
  | none =>
    cases hparams : f.params with
    | nil => rfl
    | cons _ _ => simp [hparams, Params.node?] at h
  | some n => exact Params.elements h

/-- The statements that are found under the body of a function. -/
theorem Function.elementsOf_body (f : Function) :
    f.node.elementsOf "body" = f.body.toList.map Stmt.node := by
  rw [Node.elementsOf, f.node?_body]
  cases h : f.body.node? with
  | none =>
    cases hbody : f.body with
    | nil => rfl
    | cons _ _ _ => simp [hbody, Stmts.node?] at h
  | some n => exact Stmts.elements h

theorem node?_items (p : Program) : p.node.node? "body" = Items.node? p.items := by
  simp only [Node.node?, Node.get?, Program.node, Node.fields, Fields.get?_optional, Fields.get?]
  cases Items.node? p.items <;> simp [Value.node?]

/-- The arguments that are found under those of a call. -/
theorem Expr.elementsOf_args (target : Expr) (args : Args) (callee : Option Binding)
    (type : Option Ty) (span : Span) :
    (Expr.call target args callee type span).node.elementsOf "args" = args.toList.map Expr.node := by
  have hnode : (Expr.call target args callee type span).node.node? "args" = args.node? := by
    simp only [Node.node?, Node.get?, Expr.node, Node.fields, Fields.get?_optional, Fields.get?]
    cases args.node? <;> simp [Value.node?]
  rw [Node.elementsOf, hnode]
  cases h : args.node? with
  | none =>
    cases args with
    | nil => rfl
    | cons _ _ _ => simp [Args.node?] at h
  | some n => exact Args.elements h

end Lode.Program
