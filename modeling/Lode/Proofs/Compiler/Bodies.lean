/-
# Bodies of functions

The body of a function is written as a list of statements.  Explicit scopes nest it as deeply as it declares
variables, other passes rewrite it in there, and the allocation of variables takes the scopes away again.
All the while its statements are the leaves of the body, in their order: none is lost, and none changes its
place (`bodies_in_order`).

The first passes may run in any order, so what they do to a statement is a number of steps of three kinds
(`Stmt.FrontStep`).  The passes after them rewrite its expressions.  A declaration stays a declaration of
the same variable all the way (`Stmt.Rewritten.declares?`), and its symbol is that of a variable of the
unit, which no other declaration has (`Preparation.lets_symbols_nodup`).

That scopes and declarations are gone is a statement about trees, and not only about the statements of
bodies: no node of the whole tree is one of the two, at any depth (`Program.IsStraight.unscoped`).  It goes
by the constructors of programs, since the trees of expressions, types and tables have no statements in
them.
-/
import Lode.Proofs.Compiler.Variables
import Lode.Proofs.Program.Everywhere

namespace Lode

open Program

/-! ## 1. Leaves -/

/-- The leaves of a flat list are its statements. -/
theorem Program.Stmts.Flat.leaves_eq : ∀ {stmts : Stmts}, stmts.Flat → stmts.leaves = stmts.toList
  | .nil, _ => rfl
  | .cons s rest _, h => by
    obtain ⟨hs, hr⟩ := List.forall_mem_cons.mp h
    rw [Stmts.leaves, Stmts.toList, Stmts.Flat.leaves_eq hr]
    cases s with
    | scope _ _ _ _ => rcases hs with hs | hs <;> cases hs
    | _ => rfl

namespace ExplicitScopes

/-- An explicit scope has the leaves of its declaration and of what follows it. -/
theorem leaves_explicit (s : Stmt) (rest : Stmts) (span : Span) :
    (explicit s rest span).leaves = s.leaves ++ rest.leaves := by
  cases s with
  | decl d => exact List.append_nil _
  | _ => rfl

mutual

theorem leaves_nestStmt : ∀ s : Stmt, (nestStmt s).leaves = s.leaves
  | .scope decl body _ _ => by
    rw [nestStmt, Stmt.leaves, Stmt.leaves, leaves_nestStmt decl, leaves_nest body]
  | .decl _ | .set _ _ _ _ | .ret _ _ _ | .expr _ | .data _ | .load _ _ _ | .store _ _ _
  | .arith _ _ _ _ | .jump _ _ | .rts _ | .code _ _ => rfl

/-- **Explicit scopes** leave the statements in their order. -/
theorem leaves_nest : ∀ stmts : Stmts, (nest stmts).leaves = stmts.leaves
  | .nil => rfl
  | .cons stmt rest span => by
    rw [nest, leaves_explicit, Stmts.leaves, leaves_nestStmt stmt, leaves_nest rest]

end

end ExplicitScopes

/-! ## 2. Statements up to the allocation of variables -/

namespace Program

/-- The name of the variable that a statement declares. -/
def Stmt.declares? : Stmt → Option String
  | .decl d => some d.name
  | _ => none

/-- What one of the first passes makes of a statement: it resolves names of units, it reads types, or it binds
names, which changes bindings, symbols and sections only. -/
inductive Stmt.FrontStep : Stmt → Stmt → Prop
  | units {s s' : Stmt} : s.Alike (Steady.Rewritten ResolveUnits.resolve) s' → Stmt.FrontStep s s'
  | types {s s' : Stmt} : s.Alike Eq s' → Stmt.FrontStep s s'
  | names {s s' : Stmt} : s'.erase = s.erase → Stmt.FrontStep s s'

/-- What the passes up to the allocation of variables make of a written statement. -/
inductive Stmt.Rewritten : Stmt → Stmt → Prop
  | intro {s front s' : Stmt} : Relation.ReflTransGen Stmt.FrontStep (Simplify.simpleStmt s) front →
      front.Alike Prepared s' → Stmt.Rewritten s s'

theorem Stmt.Alike.declares? {Rel : Expr → Expr → Prop} {s s' : Stmt} (h : s.Alike Rel s') :
    s'.declares? = s.declares? := by
  cases h with
  | decl _ hsame => exact congrArg some hsame.name
  | _ => rfl

theorem Stmt.declares?_erase (s : Stmt) : s.erase.declares? = s.declares? := by
  cases s <;> rfl

theorem Stmt.FrontStep.declares? {s s' : Stmt} (h : s.FrontStep s') : s'.declares? = s.declares? := by
  cases h with
  | units h | types h => exact h.declares?
  | names h => rw [← Stmt.declares?_erase s', h, Stmt.declares?_erase]

/-- A declaration stays one of the same variable, and nothing else becomes one. -/
theorem Stmt.Rewritten.declares? {s s' : Stmt} (h : s.Rewritten s') : s'.declares? = s.declares? := by
  obtain ⟨hfront, halike⟩ := h
  have hsimple : (Simplify.simpleStmt s).declares? = s.declares? := by cases s <;> rfl
  rw [halike.declares?, ← hsimple]
  clear halike hsimple
  induction hfront with
  | refl => rfl
  | tail _ hstep ih => exact hstep.declares?.trans ih

/-- A function while the first passes run, next to what it was before. -/
structure Function.Follows (f g : Function) : Prop where
  name : g.name = f.name
  leaves : List.Forall₂ (Relation.ReflTransGen Stmt.FrontStep) f.body.leaves g.body.leaves

theorem Function.Follows.refl (f : Function) : f.Follows f := ⟨rfl, List.forall₂_same.mpr fun _ _ => .refl⟩

theorem Function.Follows.trans {f g h : Function} (hfg : f.Follows g) (hgh : g.Follows h) :
    f.Follows h :=
  ⟨hgh.name.trans hfg.name, forall₂_trans (fun h h' => h.trans h') hfg.leaves hgh.leaves⟩

theorem Function.Alike.follows {Rel : Expr → Expr → Prop}
    (hstep : ∀ {s s' : Stmt}, s.Alike Rel s' → s.FrontStep s') {f g : Function} (h : f.Alike Rel g) :
    f.Follows g :=
  ⟨h.name, h.body.leaves.imp fun _ _ hs => .single (hstep hs)⟩

/-- Names that are bound leave statements as they are, without bindings. -/
theorem Function.follows_of_erase {f g : Function} (h : g.erase = f.erase) : f.Follows g := by
  have hname : g.erase.name = f.erase.name := congrArg Function.name h
  refine ⟨hname, ?_⟩
  have hbody : g.body.erase = f.body.erase := congrArg Function.body h
  have hleaves : g.body.leaves.map Stmt.erase = f.body.leaves.map Stmt.erase := by
    rw [← Stmts.leaves_erase, hbody, Stmts.leaves_erase]
  exact (forall₂_of_map_eq hleaves).imp fun _ _ herase => .single (.names herase)

end Program

/-! ## 3. Functions up to the allocation of variables -/

variable {unit : String} {p q : Program} {S : Symbols}

/-- Functions with explicit scopes. -/
theorem ExplicitScopes.functions_nested {R : Function → Function → Prop}
    (hR : ∀ f : Function, R f { f with body := nest f.body }) (q : Program) :
    List.Forall₂ R q.functions (nested q).functions := by
  refine Items.functions_forall₂ (R := fun i i' => i' = nestItem i) (fun {f i'} hi => ⟨_, hi, hR f⟩)
    (fun {i i'} hi hnone => ?_) ?_
  · subst hi
    cases i with
    | function f => cases hnone
    | _ => rfl
  · exact List.forall₂_map_right_iff.mpr (List.forall₂_same.mpr fun _ _ => rfl)

/-- Functions that differ in their bindings. -/
theorem functions_of_erase {R : Function → Function → Prop} (hR : ∀ {f g : Function}, g.erase = f.erase → R f g)
    {q q' : Program} (h : (q'.items.map (·.1)).map Item.erase = (q.items.map (·.1)).map Item.erase) :
    List.Forall₂ R q.functions q'.functions := by
  refine Items.functions_forall₂ (R := fun i i' => i'.erase = i.erase) (fun {f i'} hi => ?_)
    (fun {i i'} hi hnone => ?_) ?_
  · cases i' with
    | function g => exact ⟨g, rfl, hR (Item.function.inj hi)⟩
    | _ => cases hi
  · cases i' with
    | function g =>
      cases i with
      | function f => cases hnone
      | _ => cases hi
    | _ => rfl
  · rw [List.map_map, List.map_map] at h
    exact forall₂_of_map_eq h

/-- Explicit scopes leave the statements of a function. -/
theorem Program.Function.follows_nest (f : Function) : f.Follows { f with body := ExplicitScopes.nest f.body } := by
  refine ⟨rfl, ?_⟩
  rw [ExplicitScopes.leaves_nest]
  exact List.forall₂_same.mpr fun _ _ => .refl

/-- **The first passes** leave the functions, each with its statements in their order. -/
theorem frontKeeps_follows (fs : List Function) :
    FrontKeeps fun q => List.Forall₂ Function.Follows fs q.functions where
  scopes hfollows := forall₂_trans @Function.Follows.trans hfollows
    (ExplicitScopes.functions_nested Function.follows_nest _)
  units hfollows hrelated := forall₂_trans @Function.Follows.trans hfollows
    ((hrelated.alike ResolveUnits.isWhole_of_isUse).functions.imp
      fun _ _ hf => hf.follows fun hs => .units (hs.imp fun he => he.rewritten))
  types hfollows hrelated := forall₂_trans @Function.Follows.trans hfollows
    ((hrelated.alike False.elim).functions.imp fun _ _ hf => hf.follows .types)
  names hfollows herase := forall₂_trans @Function.Follows.trans hfollows
    (functions_of_erase Function.follows_of_erase herase)

/-- A written function and its simplified form. -/
theorem Simplify.functions_forall₂ (hp : p.Written) :
    List.Forall₂ (fun f g => f.body.Flat ∧ g.name = f.name ∧
      g.body.leaves = f.body.toList.map Simplify.simpleStmt) p.functions (Simplify.program p).functions := by
  refine Items.functions_forall₂ (R := fun i i' => i.Written ∧ i' = Simplify.simpleItem i)
    (fun {f i'} hi => ?_) (fun {i i'} hi hnone => ?_) ?_
  · obtain ⟨hf, rfl⟩ := hi
    have hsimple : (simpleStmts f.body).Written := (written_simpleItem hf).body
    exact ⟨_, rfl, hf.body.flat, rfl, by rw [hsimple.flat.leaves_eq, toList_simpleStmts]⟩
  · obtain ⟨-, rfl⟩ := hi
    cases i with
    | function f => cases hnone
    | _ => rfl
  · exact List.forall₂_map_right_iff.mpr
      (List.forall₂_same.mpr fun entry hentry => ⟨hp.items _ (List.mem_map_of_mem hentry), rfl⟩)

/-- **Functions up to the allocation of variables.**  The leaves of a body are the statements that were
written. -/
theorem Preparation.rewritten (hp : p.Written) (r : Preparation unit S q)
    (hfollows : List.Forall₂ Function.Follows (Simplify.program p).functions q.functions) :
    List.Forall₂ (fun f g => f.body.Flat ∧ g.name = f.name ∧
      List.Forall₂ (fun s s' => s'.declares? = s.declares? ∧ s.Rewritten s') f.body.toList g.body.leaves)
      p.functions r.placed.functions := by
  have hfront : List.Forall₂ (fun f g => f.body.Flat ∧ g.name = f.name ∧ List.Forall₂
      (fun s front => Relation.ReflTransGen Stmt.FrontStep (Simplify.simpleStmt s) front)
      f.body.toList g.body.leaves) p.functions q.functions :=
    forall₂_trans (fun ⟨hflat, hname, hleaves⟩ hfollows =>
      ⟨hflat, hfollows.name.trans hname, List.forall₂_map_left_iff.mp (hleaves ▸ hfollows.leaves)⟩)
      (Simplify.functions_forall₂ hp) hfollows
  refine forall₂_trans (fun ⟨hflat, hname, hleaves⟩ halike => ⟨hflat, halike.name.trans hname, ?_⟩)
    hfront r.items.functions
  refine forall₂_trans (fun hfront halike => ?_) hleaves halike.body.leaves
  have hrewritten := Stmt.Rewritten.intro hfront halike
  exact ⟨hrewritten.declares?, hrewritten⟩

/-! ## 4. Trees without scopes -/

/-- Whether a node neither opens a scope nor declares a variable. -/
def Node.Unscoped (n : Node) : Prop := n.tag ≠ .scope ∧ n.tag ≠ .letDecl

theorem Node.Everywhere.mk_unscoped {tag : Tag} {fields : Fields} {span : Span}
    (htag : tag ≠ .scope ∧ tag ≠ .letDecl) (hfields : fields.AllNodes (Node.Everywhere Unscoped)) :
    (Node.mk tag fields span).Everywhere Unscoped :=
  .mk htag hfields

namespace Program

/-- The trees of expressions are without scopes. -/
theorem ofExprs_unscoped : OfExprs Node.Unscoped where
  expr e := by
    have htag := e.isExprTag_node
    constructor <;> intro h <;> rw [h] at htag <;> cases htag
  binding b := by simp [Node.Unscoped, Binding.node, Node.tag]
  args args n hn := by
    cases args with
    | nil => cases hn
    | cons arg rest span =>
      obtain rfl := Option.some.inj hn
      simp [Node.Unscoped, Node.tag]

theorem TypeExpr.unscoped (t : TypeExpr) : t.node.Everywhere Node.Unscoped :=
  TypeExpr.everywhere (fun t => by cases t <;> simp [Node.Unscoped, TypeExpr.node, Node.tag]) t

/-- The tree of a straight statement is without scopes. -/
theorem Stmt.unscoped {s : Stmt} (h : s.isStraight = true) : s.node.Everywhere Node.Unscoped := by
  have hexpr := ofExprs_unscoped.everywhere_expr
  cases s with
  | decl _ | scope _ _ _ _ | data _ => cases h
  | expr e => exact hexpr e
  | ret value type span => exact .mk_unscoped (by decide) (by simp [hexpr])
  | set _ _ _ _ | load _ _ _ | store _ _ _ | arith _ _ _ _ | jump _ _ | rts _ | code _ _ =>
    exact .mk_unscoped (by decide) (by simp [hexpr])

/-- The trees of straight statements are without scopes. -/
theorem Stmts.unscoped : ∀ {stmts : Stmts}, stmts.Straight →
    ∀ n ∈ stmts.node?, n.Everywhere Node.Unscoped
  | .nil, _, n, hn => by cases hn
  | .cons stmt rest span, h, n, hn => by
    obtain ⟨hs, hr⟩ := List.forall_mem_cons.mp h
    have hrest := Stmts.unscoped hr
    obtain rfl := Option.some.inj hn
    exact .mk_unscoped (by decide) (by simpa [Stmt.unscoped hs] using hrest)

/-- The tree of a straight item is without scopes. -/
theorem Item.unscoped {i : Item} (h : i.Straight) : i.node.Everywhere Node.Unscoped := by
  cases i with
  | use name span => exact .mk_unscoped (by decide) (by simp)
  | constant name ty value symbol span =>
    exact .mk_unscoped (by decide) (by simp [TypeExpr.unscoped, ofExprs_unscoped.everywhere_expr])
  | global s =>
    cases s with
    | data d => exact .mk_unscoped (by decide) (by simp)
    | _ => cases h
  | function f =>
    obtain ⟨hbody, hparams⟩ := h
    have hbody := Stmts.unscoped hbody
    refine .mk_unscoped (by decide) ?_
    simpa [hparams, Params.node?, TypeExpr.unscoped, tableValue] using hbody
  | compiled _ _ _ _ _ => cases h

/-- The trees of straight items are without scopes. -/
theorem Items.unscoped : ∀ {items : Items}, (∀ entry ∈ items, entry.1.Straight) →
    ∀ n ∈ Items.node? items, n.Everywhere Node.Unscoped
  | [], _, n, hn => by cases hn
  | entry :: rest, h, n, hn => by
    obtain ⟨hi, hr⟩ := List.forall_mem_cons.mp h
    have hrest := Items.unscoped hr
    obtain rfl := Option.some.inj hn
    exact .mk_unscoped (by decide) (by simpa [Item.unscoped hi] using hrest)

end Program

/-- **Straight programs** have neither scopes nor declarations of variables in their trees. -/
theorem Program.IsStraight.unscoped {u : Program} (h : u.IsStraight) : u.node.Everywhere Node.Unscoped := by
  have hitems := Items.unscoped h
  exact .mk_unscoped (by decide) (by simpa [tableValue] using hitems)

/-! ## 5. Symbols of variables -/

/-- The symbols of the variables that are declared in functions are symbols of variables of the unit. -/
theorem AllocateLocals.symbols_sublist {items items' : Items}
    (h : List.Forall₂ (fun entry entry' => AllocatedItem entry.1 entry'.1) items items') :
    ((Items.functions items).flatMap fun f => f.body.lets.filterMap Let.symbol).Sublist
      ((Items.symbols items).vars.map Variable.symbol) := by
  induction h with
  | nil => exact .slnil
  | @cons entry entry' rest rest' hitem _ ih =>
    simp only [Items.symbols, Items.functions, List.flatMap_cons, List.map_append, List.map_cons,
      List.filterMap_cons] at ih ⊢
    generalize entry.1 = i at hitem
    generalize entry'.1 = i' at hitem
    cases hitem with
    | @function f body table _ _ hsymbols =>
      refine List.Sublist.append ?_ ih
      rw [Item.vars, Function.vars, List.map_append, hsymbols, Function.locallyDeclared]
      exact (List.sublist_append_right _ _).trans (List.sublist_append_left _ _)
    | _ => exact ih.trans (List.sublist_append_right _ _)

/-- **No two variables of functions have one symbol.** -/
theorem Preparation.lets_symbols_nodup (r : Preparation unit S q) (hS : (S.entries.map (·.1)).Nodup) :
    (r.placed.functions.flatMap fun f => f.body.lets.filterMap Let.symbol).Nodup := by
  have hvars := (r.placed_bound.2.symbols_perm (hS.of_map _)).2
  have hallocated := AllocateLocals.allocated r.placed_bound.1 r.allocate
  exact ((hvars.map _).nodup_iff.mpr (Symbols.vars_nodup hS)).sublist
    (AllocateLocals.symbols_sublist hallocated)

/-! ## 6. Bodies of source texts -/

/-- The passes in front of the one that allocates variables. -/
theorem Schedule.passesBefore_locals {front : List Nat} (hfront : front ∈ frontIndices) :
    passesBefore AllocateLocals.pass.info.name (frontPasses front ++ backPasses) =
      frontPasses front ++ preparingPasses.dropLast := by
  have hnames : ∀ front ∈ frontIndices, ∀ other ∈ frontPasses front ++ preparingPasses.dropLast,
      (other.info.name != AllocateLocals.pass.info.name) = true := by
    decide
  have hback : backPasses = preparingPasses.dropLast ++ AllocateLocals.pass :: emittingPasses := rfl
  rw [hback, ← List.append_assoc, passesBefore_append (hnames front hfront)]

/-- The passes in front of the allocation of variables lead to the program that is kept of them. -/
theorem Preparation.run_placed (r : Preparation unit S q) :
    Schedule.preparingPasses.dropLast.foldlM (Compiler.runPass unit) q.node = .ok r.placed.node := by
  have hpasses : Schedule.preparingPasses.dropLast = [EvaluateConstants.pass, ResolveConstants.pass,
    FoldArithmetic.pass, PropagateTypes.pass, ResolveStorage.pass] := rfl
  rw [hpasses, List.foldlM_cons, EvaluateConstants.runPass, r.evaluate, map_ok, ok_bind, List.foldlM_cons,
    ResolveConstants.runPass, r.resolve, map_ok, ok_bind, List.foldlM_cons, FoldArithmetic.runPass, r.fold,
    map_ok, ok_bind, List.foldlM_cons, PropagateTypes.runPass, r.type, map_ok, ok_bind, List.foldlM_cons,
    ResolveStorage.runPass, r.place, map_ok, ok_bind]
  rfl

namespace Compiler

variable {text : String} {options : ScheduleOptions} {tree : Node}

/-- **Texts whose variables are allocated.** -/
theorem treeAfter_locals_eq_ok (h : treeAfter AllocateLocals.pass text unit options = .ok tree) :
    ∃ (p q : Program) (S : Symbols) (r : Preparation unit S q), p.Written ∧
      Language.read text = .ok p.node ∧
      treeBefore AllocateLocals.pass text unit options = .ok r.placed.node ∧ tree = r.allocated.node ∧
      (S.entries.map (·.1)).Nodup ∧
      List.Forall₂ Function.Follows (Simplify.program p).functions q.functions := by
  obtain ⟨before, hbefore, hallocate⟩ := bind_eq_ok.mp h
  have hrun := hbefore
  obtain ⟨raw, hread, hrun⟩ := bind_eq_ok.mp hrun
  obtain ⟨p, hwritten, rfl⟩ := Language.read_written hread
  rw [Simplify.simplified_node, ok_bind] at hrun
  obtain ⟨passes, hschedule, hrun⟩ := bind_eq_ok.mp hrun
  obtain ⟨front, hfront, rfl⟩ := Schedule.schedule_eq hschedule
  rw [Schedule.passesBefore_locals hfront, List.foldlM_append] at hrun
  obtain ⟨n, hn, hprepare⟩ := bind_eq_ok.mp hrun
  obtain ⟨q, rfl, hunderway, hfollows⟩ := (Underway.advances (frontKeeps_follows _) unit hwritten).run
    (Stage.run_frontIndices front hfront)
    ⟨_, rfl, .of_written hwritten, List.forall₂_same.mpr fun f _ => .refl f⟩ hn
  obtain ⟨hsource, S, hS, htabled⟩ := hunderway.named rfl
  have hall : Schedule.preparingPasses.foldlM (runPass unit) q.node = .ok tree := by
    rw [show Schedule.preparingPasses = Schedule.preparingPasses.dropLast ++ [AllocateLocals.pass] from rfl,
      List.foldlM_append, hprepare, ok_bind, List.foldlM_cons, hallocate]
    rfl
  obtain ⟨r, rfl⟩ := exists_preparation hsource hS hall
  obtain rfl := Except.ok.inj (hprepare.symm.trans r.run_placed)
  exact ⟨p, q, S, r, hwritten, hread, hbefore, rfl, htabled.nodup, hfollows⟩

/-- **Bodies in their order.**  The body of a function is written as a list of declarations, assignments,
returns and calls.  In front of the allocation of variables these are the leaves of its scopes, one by one, as
the passes rewrote them.  Behind it they stand in one list again, where each declaration is the assignment of
its value to its symbol, which no other declaration has; and nothing in the tree is a scope or declares a
variable. -/
theorem bodies_in_order (text unit : String) (options : ScheduleOptions) :
    match treeAfter AllocateLocals.pass text unit options with
    | .error _ => True
    | .ok tree => ∃ p q u : Program, Language.read text = .ok p.node ∧
        treeBefore AllocateLocals.pass text unit options = .ok q.node ∧ tree = u.node ∧
        List.Forall₂ (fun f g => f.body.Flat ∧ g.name = f.name ∧
          List.Forall₂ (fun s s' => s'.declares? = s.declares? ∧ s.Rewritten s') f.body.toList g.body.leaves)
          p.functions q.functions ∧
        List.Forall₂ (fun g h => h.name = g.name ∧
          List.Forall₂ AllocateLocals.Assigned g.body.leaves h.body.toList) q.functions u.functions ∧
        (q.functions.flatMap fun g => g.body.lets.filterMap Let.symbol).Nodup ∧
        tree.Everywhere Node.Unscoped := by
  cases htree : treeAfter AllocateLocals.pass text unit options with
  | error e => trivial
  | ok tree =>
    obtain ⟨p, q, S, r, hwritten, hread, hbefore, rfl, hnodup, hfollows⟩ := treeAfter_locals_eq_ok htree
    refine ⟨p, r.placed, r.allocated, hread, hbefore, rfl, r.rewritten hwritten hfollows,
      r.allocated_functions.imp fun g h hg => ⟨?_, hg.1⟩, r.lets_symbols_nodup hnodup,
      r.allocated_bound.1.unscoped⟩
    rw [hg.2]

end Compiler

end Lode
