/-
# Runs of the passes

The programs between the passes that run once names are bound.  The first of these passes rewrite
expressions and leave functions alike, up to the allocation of variables (`Preparation`); the others replace
the bodies of functions, up to their code (`Emission`).  Every program in between is bound to the same
symbols, and what became of one function can be followed through all of them.

Both are records with a field for each program and one for each pass between two of them, so that whoever
needs one pass takes it out by name and leaves the others alone.  A run of the passes on the tree of a
program gives such a record (`exists_preparation`, `exists_emission`): each pass is a visitor, and the tree
that it leaves is that of the next program.

Two chains of relations are put together along the records.  One is about expressions, from their binding to
the allocation of variables (`Prepared`), and says item by item what became of them (`items`).  The other is
about bodies, from the allocation of variables to the code (`Emitted`, `bodies`).
-/
import Lode.Proofs.Pass.Allocation
import Lode.Proofs.Pass.Expressions
import Lode.Proofs.Pass.Flattening
import Lode.Proofs.Pass.Order

namespace Lode

open Program

variable {unit : String} {S : Symbols} {q u : Program}

/-- A pass that is a visitor. -/
theorem of_runPass {pass : Pass} {q : Program} {x : Except Error Program} {n : Node}
    (hpass : Compiler.runPass unit q.node pass = Program.node <$> x)
    (h : Compiler.runPass unit q.node pass = .ok n) : ∃ q', x = .ok q' ∧ n = q'.node := by
  obtain ⟨q', hq', rfl⟩ := map_eq_ok.mp (hpass.symm.trans h)
  exact ⟨q', hq', rfl⟩

/-- The first of some passes, and the others. -/
theorem foldlM_runPass_cons {pass : Pass} {passes : List Pass} {n n' : Node}
    (h : (pass :: passes).foldlM (Compiler.runPass unit) n = .ok n') :
    ∃ m, Compiler.runPass unit n pass = .ok m ∧ passes.foldlM (Compiler.runPass unit) m = .ok n' := by
  rw [List.foldlM_cons] at h
  exact bind_eq_ok.mp h

/-! ## 1. Up to the allocation of variables -/

/-- What the passes up to the allocation of variables make of a bound program, one after the other. -/
structure Preparation (unit : String) (S : Symbols) (q : Program) where
  source : q.IsSource
  bound : q.Bound S
  evaluated : Program
  resolved : Program
  folded : Program
  typed : Program
  placed : Program
  allocated : Program
  evaluate : ((q.mapUp EvaluateConstants.visitor).outcome ⟨[], ()⟩).1 = .ok evaluated
  resolve : ((evaluated.mapUp ResolveConstants.visitor).outcome ⟨[], ()⟩).1 = .ok resolved
  fold : ((resolved.mapUp FoldArithmetic.visitor).outcome ()).1 = .ok folded
  type : ((folded.mapUp PropagateTypes.visitor).outcome ⟨[], []⟩).1 = .ok typed
  place : ((typed.mapUp ResolveStorage.visitor).outcome ⟨[], 0⟩).1 = .ok placed
  allocate : ((placed.mapUp AllocateLocals.visitor).outcome []).1 = .ok allocated

/-- **The passes up to the allocation of variables**, one by one. -/
theorem exists_preparation (hsource : q.IsSource) (hS : q.Bound S) {n : Node}
    (h : Schedule.preparingPasses.foldlM (Compiler.runPass unit) q.node = .ok n) :
    ∃ r : Preparation unit S q, n = r.allocated.node := by
  obtain ⟨n1, h1, h⟩ := foldlM_runPass_cons h
  obtain ⟨q1, hq1, rfl⟩ := of_runPass (EvaluateConstants.runPass unit q) h1
  obtain ⟨n2, h2, h⟩ := foldlM_runPass_cons h
  obtain ⟨q2, hq2, rfl⟩ := of_runPass (ResolveConstants.runPass unit q1) h2
  obtain ⟨n3, h3, h⟩ := foldlM_runPass_cons h
  obtain ⟨q3, hq3, rfl⟩ := of_runPass (FoldArithmetic.runPass unit q2) h3
  obtain ⟨n4, h4, h⟩ := foldlM_runPass_cons h
  obtain ⟨q4, hq4, rfl⟩ := of_runPass (PropagateTypes.runPass unit q3) h4
  obtain ⟨n5, h5, h⟩ := foldlM_runPass_cons h
  obtain ⟨q5, hq5, rfl⟩ := of_runPass (ResolveStorage.runPass unit q4) h5
  obtain ⟨n6, h6, h⟩ := foldlM_runPass_cons h
  obtain ⟨q6, hq6, rfl⟩ := of_runPass (AllocateLocals.runPass unit q5) h6
  exact ⟨⟨hsource, hS, q1, q2, q3, q4, q5, q6, hq1, hq2, hq3, hq4, hq5, hq6⟩, (Except.ok.inj h).symm⟩

/-- What the passes up to the computation of types make of an expression. -/
inductive Typed : Expr → Expr → Prop
  | intro {e e1 e2 e3 e4 : Expr} : Steady.Rewritten EvaluateConstants.evaluateCall e e1 →
      Steady.Rewritten ResolveConstants.resolve e1 e2 →
      Steady.Rewritten (fun _ : Unit => FoldArithmetic.fold) e2 e3 →
      Steady.Rewritten (fun _ : Nested (List Ty) => PropagateTypes.typeExpr) e3 e4 → Typed e e4

/-- What the passes up to the allocation of variables make of an expression. -/
inductive Prepared : Expr → Expr → Prop
  | intro {e e4 e5 : Expr} : Typed e e4 → Steady.Rewritten ResolveStorage.place e4 e5 → Prepared e e5

section Expressions

variable {e e' : Expr}

/-- The computation of types keeps the bindings of an expression. -/
theorem Typed.keepsBindings (h : Typed e e') : e.KeepsBindings e' := by
  cases h with
  | intro h1 h2 h3 h4 =>
    exact (h1.keepsBindings EvaluateConstants.evaluateCall_keepsBindings).trans
      ((h2.keepsBindings ResolveConstants.resolve_keepsBindings).trans
        ((h3.keepsBindings FoldArithmetic.fold_keepsBindings).trans
          (h4.keepsBindings PropagateTypes.typeExpr_keepsBindings)))

theorem Typed.callsChecked (h : Typed e e') : e'.CallsChecked := by
  cases h with
  | intro _ _ _ h4 => exact PropagateTypes.callsChecked h4

theorem Prepared.keepsBindings (h : Prepared e e') : e.KeepsBindings e' := by
  cases h with
  | intro h h5 => exact h.keepsBindings.trans (h5.keepsBindings ResolveStorage.place_keepsBindings)

theorem Prepared.callsChecked (h : Prepared e e') : e'.CallsChecked := by
  cases h with
  | intro h h5 => exact (ResolveStorage.keepsCalls h5).checked h.callsChecked

end Expressions

/-- What resolving units leaves of an expression, once names are bound. -/
def UnitsResolved : Expr → Expr → Prop := Relation.ReflTransGen ResolveUnits.Resolves

theorem UnitsResolved.keepsBindings {e e' : Expr} (h : UnitsResolved e e') : e.KeepsBindings e' := by
  induction h with
  | refl => exact List.Subset.refl _
  | tail _ h ih => exact ih.trans (h.rewritten.keepsBindings ResolveUnits.resolve_keepsBindings)

/-- What an allocated variable leaves of a statement has the parts of that, or memory cells. -/
theorem AllocateLocals.Assigned.forall_parts {P : Expr → Prop} {s s' : Stmt} (h : Assigned s s')
    (hcell : ∀ place zeroPage type span, P (.cell place zeroPage type span)) (hs : ∀ e ∈ s.parts, P e) :
    ∀ e ∈ s'.parts, P e := by
  cases h with
  | decl _ _ => simpa [Stmt.parts, Stmt.exprs] using ⟨hcell _ _ _ _, hs _ (List.mem_singleton_self _)⟩
  | other _ => exact hs

namespace Preparation

variable (r : Preparation unit S q)

theorem evaluated_bound : r.evaluated.IsSource ∧ r.evaluated.Bound S :=
  EvaluateConstants.bound r.source r.bound r.evaluate

theorem resolved_bound : r.resolved.IsSource ∧ r.resolved.Bound S :=
  (ResolveConstants.bound r.evaluated_bound.1 r.evaluated_bound.2 r.resolve).1

theorem folded_bound : r.folded.IsSource ∧ r.folded.Bound S :=
  (FoldArithmetic.bound r.resolved_bound.1 r.resolved_bound.2 r.fold).1

theorem typed_bound : r.typed.IsSource ∧ r.typed.Bound S :=
  (PropagateTypes.bound r.folded_bound.1 r.folded_bound.2 r.type).1

theorem placed_bound : r.placed.IsSource ∧ r.placed.Bound S :=
  (ResolveStorage.bound r.typed_bound.1 r.typed_bound.2 r.place).1

theorem allocated_bound : r.allocated.IsStraight ∧ r.allocated.Bound S :=
  AllocateLocals.bound r.placed_bound.1 r.placed_bound.2 r.allocate

/-- The constants of the unit are those that were computed. -/
theorem frame_eq : r.allocated.frame = r.evaluated.frame := by
  have hallocated : r.allocated.frame = r.placed.frame := Program.frame_of_mapUp rfl rfl r.allocate
  rw [hallocated, (ResolveStorage.related r.typed_bound.1 r.place).2,
    (PropagateTypes.related r.folded_bound.1 r.type).2,
    (FoldArithmetic.related r.resolved_bound.1 r.fold).2,
    (ResolveConstants.related r.evaluated_bound.1 r.resolve).2]

/-- Items up to the computation of types. -/
theorem typed_items : Items.Alike Typed q.items r.typed.items := by
  have hevaluate := (EvaluateConstants.related r.source r.evaluate).alike EvaluateConstants.isWhole_of_isConstant
  have hresolve := (ResolveConstants.related r.evaluated_bound.1 r.resolve).1.alike False.elim
  have hfold := (FoldArithmetic.related r.resolved_bound.1 r.fold).1.alike False.elim
  have htype := (PropagateTypes.related r.folded_bound.1 r.type).1.alike False.elim
  exact (hevaluate.comp (hresolve.comp (hfold.comp htype))).imp
    fun ⟨_, h1, _, h2, _, h3, h4⟩ => .intro h1 h2 h3 h4

/-- **Items up to the allocation of variables.** -/
theorem items : Items.Alike Prepared q.items r.placed.items :=
  (r.typed_items.comp ((ResolveStorage.related r.typed_bound.1 r.place).1.alike False.elim)).imp
    fun ⟨_, h, h'⟩ => .intro h h'

/-- The functions whose variables are allocated. -/
theorem allocated_functions : List.Forall₂ (fun f f' => List.Forall₂ AllocateLocals.Assigned f.body.leaves f'.body.toList ∧
    f' = { f with params := [], body := f'.body, locals := f'.locals })
    r.placed.functions r.allocated.functions := by
  refine Items.functions_forall₂ (R := AllocateLocals.AllocatedItem) (fun hitem => ?_)
    (fun hitem hnone => ?_) (AllocateLocals.allocated r.placed_bound.1 r.allocate)
  · cases hitem with
    | function hleaves _ _ => exact ⟨_, rfl, hleaves, rfl⟩
  · cases hitem with
    | function _ _ _ => cases hnone
    | _ => rfl

/-- The data of the variables of the unit: their initial values are literals. -/
theorem exists_data {d : Let} (hd : d ∈ r.placed.lets) : ∃ (data : Data) (value : Int) (type : Option Ty) (span : Span),
    .global (.data data) ∈ r.allocated.items.map (·.1) ∧ d.toVariable? = some data.toVariable ∧
      d.value = .number value type span ∧ data.bytes = initialBytes value data.type := by
  obtain ⟨entry, hentry, hitem⟩ := List.mem_map.mp (Items.mem_lets.mp hd)
  obtain ⟨entry', hentry', hallocated⟩ :=
    exists_of_mem_right (AllocateLocals.allocated r.placed_bound.1 r.allocate).flip hentry
  have hmem := List.mem_map_of_mem (f := (·.1)) hentry'
  change AllocateLocals.AllocatedItem entry.1 entry'.1 at hallocated
  rw [hitem] at hallocated
  generalize entry'.1 = i at hallocated hmem
  cases hallocated with
  | global hvar hvalue hbytes => exact ⟨_, _, _, _, hmem, hvar, hvalue, hbytes⟩

end Preparation

/-! ## 2. Up to the code -/

/-- What the other passes make of a program whose variables are allocated, one after the other. -/
structure Emission (unit : String) (S : Symbols) (u : Program) where
  straight : u.IsStraight
  bound : u.Bound S
  called : Program
  assigned : Program
  returning : Program
  assembled : Program
  flat : Program
  call : List.Forall₂ (fun entry entry' => entry.1.Rebodied LowerCalls.Called entry'.1)
    u.items called.items ∧ called.frame = u.frame
  assign : ((called.mapUp LowerAssignment.visitor).outcome ()).1 = .ok assigned
  close : ((assigned.mapUp LowerFunctions.visitor).outcome ()).1 = .ok returning
  assemble : ((returning.mapUp Assemble.visitor).outcome ()).1 = .ok assembled
  flatten : ((assembled.mapUp FlattenSymbol.visitor).outcome ()).1 = .ok flat

/-- **The passes up to the code**, one by one. -/
theorem exists_emission (hstraight : u.IsStraight) (hS : u.Bound S) {n : Node}
    (h : Schedule.emittingPasses.foldlM (Compiler.runPass unit) u.node = .ok n) :
    ∃ r : Emission unit S u, n = r.flat.node := by
  obtain ⟨n1, h1, h⟩ := foldlM_runPass_cons h
  obtain ⟨u1, rfl, hframe, hcalled⟩ := LowerCalls.rebodied hstraight h1
  obtain ⟨n2, h2, h⟩ := foldlM_runPass_cons h
  obtain ⟨u2, hu2, rfl⟩ := of_runPass (LowerAssignment.runPass unit u1) h2
  obtain ⟨n3, h3, h⟩ := foldlM_runPass_cons h
  obtain ⟨u3, hu3, rfl⟩ := of_runPass (LowerFunctions.runPass unit u2) h3
  obtain ⟨n4, h4, h⟩ := foldlM_runPass_cons h
  obtain ⟨u4, hu4, rfl⟩ := of_runPass (Assemble.runPass unit u3) h4
  obtain ⟨n5, h5, h⟩ := foldlM_runPass_cons h
  obtain ⟨u5, hu5, rfl⟩ := of_runPass (FlattenSymbol.runPass unit u4) h5
  exact ⟨⟨hstraight, hS, u1, u2, u3, u4, u5, ⟨hcalled, hframe⟩, hu2, hu3, hu4, hu5⟩,
    (Except.ok.inj h).symm⟩

/-- What these passes make of the body of a function, up to its code. -/
inductive Emitted (body : Stmts) : Stmts → Prop
  | intro {called assigned returning assembled : Stmts} : LowerCalls.Called body called →
      LowerAssignment.Assigned called assigned →
      LowerFunctions.Returning assigned returning → Assemble.Assembled returning assembled →
      Emitted body assembled

/-- The code of an item, with its symbol. -/
def Program.Item.code? : Program.Item → Option (String × MachineCode)
  | .compiled symbol code _ _ _ => some (symbol, code)
  | _ => none

/-- The code of a program. -/
def Program.codes (t : Program) : List (String × MachineCode) := (t.items.map (·.1)).filterMap Item.code?

namespace Emission

variable (r : Emission unit S u)

theorem called_bound : r.called.IsStraight ∧ r.called.Bound S :=
  Program.Bound.of_rebodied (Expanded.keeps LowerCalls.Lowered.linked) r.call.1 r.straight r.bound

theorem assigned_bound : r.assigned.IsStraight ∧ r.assigned.Bound S :=
  LowerAssignment.bound r.called_bound.1 r.called_bound.2 r.assign

theorem returning_bound : r.returning.IsStraight ∧ r.returning.Bound S ∧
    ∀ entry ∈ r.returning.items, LowerFunctions.Returns entry.1 :=
  LowerFunctions.bound r.assigned_bound.1 r.assigned_bound.2 r.close

theorem assembled_bound : r.assembled.IsStraight ∧ r.assembled.Bound S ∧
    ∀ entry ∈ r.assembled.items, Assemble.Returns entry.1 :=
  Assemble.bound r.returning_bound.1 r.returning_bound.2.1 r.returning_bound.2.2 r.assemble

theorem flat_bound : r.flat.Bound S ∧ (∀ entry ∈ r.flat.items, FlattenSymbol.Finished entry.1) ∧
    r.flat.frame = r.assembled.frame :=
  FlattenSymbol.bound r.assembled_bound.1 r.assembled_bound.2.1 r.assembled_bound.2.2 r.flatten

theorem frame_eq : r.flat.frame = u.frame := by
  have hassembled : r.assembled.frame = r.returning.frame := Program.frame_of_mapUp rfl rfl r.assemble
  have hreturning : r.returning.frame = r.assigned.frame := Program.frame_of_mapUp rfl rfl r.close
  have hassigned : r.assigned.frame = r.called.frame := Program.frame_of_mapUp rfl rfl r.assign
  rw [r.flat_bound.2.2, hassembled, hreturning, hassigned, r.call.2]

/-- **Bodies up to their code.** -/
theorem bodies : List.Forall₂ (fun entry entry' => entry.1.Rebodied Emitted entry'.1)
    u.items r.assembled.items := by
  have hassign := LowerAssignment.rebodied r.called_bound.1 r.assign
  have hclose := LowerFunctions.rebodied r.assigned_bound.1 r.close
  have hassemble := Assemble.rebodied r.returning_bound.1 r.assemble
  have hall := Items.rebodied_trans r.call.1
    (Items.rebodied_trans hassign (Items.rebodied_trans hclose hassemble))
  refine hall.imp fun entry entry' hitem => ?_
  generalize entry.1 = i at hitem
  generalize entry'.1 = i' at hitem
  cases hitem with
  | function hbody =>
    obtain ⟨called, hcalled, assigned, hassigned, returning, hreturning, hassembled⟩ := hbody
    exact .function (.intro hcalled hassigned hreturning hassembled)
  | other hne => exact .other hne

/-- The data of a unit stay. -/
theorem data_mem {data : Data} (h : .global (.data data) ∈ u.items.map (·.1)) :
    ∃ entry ∈ r.flat.items, entry.1 = .global (.data data) := by
  obtain ⟨entry, hentry, hitem⟩ := List.mem_map.mp h
  obtain ⟨entry', hentry', hbody⟩ := exists_of_mem_right r.bodies.flip hentry
  obtain ⟨entry'', hentry'', hflat⟩ :=
    exists_of_mem_right (FlattenSymbol.flattened r.assembled_bound.1 r.flatten).flip hentry'
  refine ⟨entry'', hentry'', ?_⟩
  change entry.1.Rebodied Emitted entry'.1 at hbody
  change FlattenSymbol.Flattened entry'.1 entry''.1 at hflat
  rw [hitem] at hbody
  generalize entry'.1 = i' at hbody hflat
  generalize entry''.1 = i'' at hflat
  cases hbody
  cases hflat
  rfl

end Emission

end Lode
