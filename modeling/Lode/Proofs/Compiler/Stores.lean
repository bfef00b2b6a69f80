/-
# Stores of source texts

Which symbols the code of a text stores to.  The code of a function stores what its statements do, in their
order, when names are bound: each declaration and assignment to its variable, behind the parameters of the
calls in it (`Run.codes_stores`).  What is assigned is mutable, as the computation of types checks, and no
two variables have one symbol.  So a variable that is not mutable is stored to by its declaration only, and
one of the unit not at all (`immutable_variables_kept`).

Stores are followed as lists and not as sets, since it is the number of stores to a symbol that is wanted.
Up to the allocation of variables each pass keeps the list of a statement (`Run.allocated_stores`), and up
to the code the lists of the statements are joined (`Emitted.stores`, `Emission.codes_stores`).

There are three sources of a store: a parameter of a call, a declaration, and an assignment (section 4).  A
parameter is mutable, what is assigned is mutable, and a declaration stores to its own symbol once.  The
symbol tells the variable, so the stores to a variable that is not mutable are counted by its declarations
alone (`stores_count`).
-/
import Lode.Proofs.Compiler.Variables
import Lode.Proofs.Pass.Stores

namespace Lode

open Program

variable {unit : String} {p q u : Program} {S : Symbols}

/-! ## 1. Up to the allocation of variables -/

section Expressions

variable {e e' : Expr}

theorem UnitsResolved.keepsStores (h : UnitsResolved e e') : e.KeepsStores e' := by
  induction h with
  | refl => exact .refl _
  | tail _ h ih => exact ih.trans (h.rewritten.keepsStores ResolveUnits.resolve_keepsStores)

theorem UnitsResolved.keepsTarget (h : UnitsResolved e e') : e.KeepsTarget e' := by
  induction h with
  | refl => rfl
  | tail _ h ih => exact (h.rewritten.keepsTarget ResolveUnits.resolve_keepsTarget).trans ih

/-- The computation of types keeps what is assigned to. -/
theorem Typed.keepsTarget (h : Typed e e') : e.KeepsTarget e' := by
  cases h with
  | intro h1 h2 h3 h4 =>
    exact (h4.keepsTarget PropagateTypes.typeExpr_keepsTarget).trans
      ((h3.keepsTarget FoldArithmetic.fold_keepsTarget).trans
        ((h2.keepsTarget ResolveConstants.resolve_keepsTarget).trans
          (h1.keepsTarget EvaluateConstants.evaluateCall_keepsTarget)))

/-- What is stored is kept up to the allocation of variables. -/
theorem Prepared.keepsStores (h : Prepared e e') : e.KeepsStores e' := by
  cases h with
  | intro h h5 =>
    cases h with
    | intro h1 h2 h3 h4 =>
      exact (h1.keepsStores EvaluateConstants.evaluateCall_keepsStores).trans
        ((h2.keepsStores ResolveConstants.resolve_keepsStores).trans
          ((h3.keepsStores FoldArithmetic.fold_keepsStores).trans
            ((h4.keepsStores PropagateTypes.typeExpr_keepsStores).trans
              (h5.keepsStores ResolveStorage.place_keepsStores))))

end Expressions

/-- Functions whose variables are allocated store what they did when names were bound. -/
theorem Run.allocated_stores (r : Run unit p S) : List.Forall₂ (fun f f' : Function =>
    f'.symbol = f.symbol ∧ f'.body.toList.flatMap Stmt.stores = f.body.leaves.flatMap Stmt.stores)
    r.named.functions r.allocated.functions := by
  have hplaced := r.functions.imp fun f f' halike => And.intro halike.symbol (flatMap_eq_of_forall₂
    (fun hs => (hs.imp fun ⟨_, hunits, hprepared⟩ =>
      hunits.keepsStores.trans hprepared.keepsStores).stores) halike.body.leaves)
  have hallocated := r.preparation.allocated_functions.imp fun f f' hassigned =>
    show f'.symbol = f.symbol ∧ f'.body.toList.flatMap Stmt.stores = f.body.leaves.flatMap Stmt.stores from
      ⟨by rw [hassigned.2], flatMap_eq_of_forall₂ (fun hs => hs.stores) hassigned.1⟩
  exact forall₂_trans (fun h h' => ⟨h'.1.trans h.1, h'.2.trans h.2⟩) hplaced hallocated

/-! ## 2. Up to the code -/

/-- Lowering and assembling a body keeps its stores. -/
theorem Emitted.stores {body body' : Stmts} (h : Emitted body body')
    (hchecked : ∀ s ∈ body.toList, ∀ e ∈ s.parts, e.CallsChecked) :
    body'.toList.flatMap Stmt.stores = body.toList.flatMap Stmt.stores := by
  cases h with
  | intro hcalled hassigned hreturning hassembled =>
    obtain ⟨stmts, span, hexpanded, hclosed⟩ := hreturning
    have hassembled := Expanded.flatMap_eq (P := fun _ => True) (fun hstep _ => Assemble.step_stores hstep)
      hassembled fun _ _ => trivial
    have hexpanded := Expanded.flatMap_eq (P := fun _ => True) (fun hstep _ => LowerFunctions.step_stores hstep)
      hexpanded fun _ _ => trivial
    have hassigned := Expanded.flatMap_eq (P := fun _ => True) (fun hstep _ => LowerAssignment.step_stores hstep)
      hassigned fun _ _ => trivial
    rw [hassembled, hclosed, LowerFunctions.closed_stores, hexpanded, hassigned, hcalled.stores hchecked]

theorem Emission.assembled_function (r : Emission unit S u) {f : Function} (hf : f ∈ r.assembled.functions) :
    f.body.Linked S := by
  obtain ⟨entry, hentry, hitem⟩ := List.mem_map.mp (Items.mem_functions.mp hf)
  have hlinked := r.assembled_bound.2.1.linked entry hentry
  rw [hitem] at hlinked
  exact hlinked.1

/-- If all items of a flattened program are lowered, one piece of code is left of every function. -/
theorem FlattenSymbol.codes {items items' : Items} (hstraight : ∀ entry ∈ items, entry.1.Straight)
    (h : List.Forall₂ (fun entry entry' => Flattened entry.1 entry'.1) items items')
    (hall : ∀ entry ∈ items', Compiler.isLowered entry.1 = true) :
    List.Forall₂ (fun f code => f.symbol = some code.1 ∧
      ∃ span, single? (merged f.body) = some (code.2, span))
      (Items.functions items) ((items'.map (·.1)).filterMap Item.code?) := by
  induction h with
  | nil => exact .nil
  | @cons entry entry' rest rest' hitem _ ih =>
    obtain ⟨hstraight, hrest⟩ := List.forall_mem_cons.mp hstraight
    obtain ⟨hlowered, hall⟩ := List.forall_mem_cons.mp hall
    have ih := ih hrest hall
    simp only [Items.functions, List.map_cons, List.filterMap_cons]
    generalize entry.1 = i at *
    generalize entry'.1 = i' at *
    cases hitem with
    | symbol hsingle hsymbol => exact .cons ⟨hsymbol, _, hsingle⟩ ih
    | function => cases hlowered
    | other hne =>
      cases i with
      | function f => exact absurd rfl (hne f)
      | compiled _ _ _ _ _ => cases hstraight
      | _ => exact ih

/-- **The code of a lowered program** is that of the assembled bodies of its functions. -/
theorem Emission.codes_emitted (r : Emission unit S u)
    (hall : ∀ entry ∈ r.flat.items, Compiler.isLowered entry.1 = true) :
    List.Forall₂ (fun f code => f.symbol = some code.1 ∧ ∃ body, Emitted f.body body ∧ body.Linked S ∧
      FlattenSymbol.codeIn body = code.2 ∧ ∀ s ∈ body.toList, ∃ c place, s = .code c place)
      u.functions r.flat.codes := by
  have hcodes := (List.forall₂_and_left _ _).mpr ⟨fun f hf => r.assembled_function hf,
    FlattenSymbol.codes r.assembled_bound.1 (FlattenSymbol.flattened r.assembled_bound.1 r.flatten) hall⟩
  refine forall₂_trans (fun {f f' code} hf hcode => ?_) (Items.functions_rebodied r.bodies) hcodes
  obtain ⟨hemitted, hsame⟩ := hf
  obtain ⟨hlinked, hsymbol, span, hsingle⟩ := hcode
  have hcode : FlattenSymbol.codeIn f'.body = code.2 :=
    (FlattenSymbol.codeIn_merged f'.body).symm.trans (FlattenSymbol.codeIn_of_single? hsingle)
  exact ⟨by rw [← hsymbol, hsame], f'.body, hemitted, hlinked, hcode, FlattenSymbol.all_code hsingle⟩

/-- **The code of a lowered program** stores what its functions do. -/
theorem Emission.codes_stores (r : Emission unit S u)
    (hchecked : ∀ f ∈ u.functions, ∀ s ∈ f.body.toList, ∀ e ∈ s.parts, e.CallsChecked)
    (hall : ∀ entry ∈ r.flat.items, Compiler.isLowered entry.1 = true) :
    List.Forall₂ (fun f code => f.symbol = some code.1 ∧
      code.2.stores = f.body.toList.flatMap Stmt.stores) u.functions r.flat.codes := by
  refine ((List.forall₂_and_left _ _).mpr ⟨hchecked, r.codes_emitted hall⟩).imp fun f code hf => ?_
  obtain ⟨hchecked, hsymbol, body, hemitted, hlinked, hcode, hall⟩ := hf
  refine ⟨hsymbol, ?_⟩
  rw [← hcode, FlattenSymbol.codeIn_stores hlinked hall, hemitted.stores hchecked]

/-- **The code of a text** stores what its functions do when names are bound. -/
theorem Run.codes_stores (r : Run unit p S) (emission : Emission unit S r.allocated)
    (hall : ∀ entry ∈ emission.flat.items, Compiler.isLowered entry.1 = true) :
    List.Forall₂ (fun f code => f.symbol = some code.1 ∧
      code.2.stores = f.body.leaves.flatMap Stmt.stores) r.named.functions emission.flat.codes :=
  forall₂_trans (fun h h' => ⟨h.1.symm.trans h'.1, h'.2.trans h.2⟩) r.allocated_stores
    (emission.codes_stores (fun _ hf s hs e he => (r.allocated_parts hf s hs e he).1) hall)

/-! ## 3. Objects -/

/-- The symbols that an object stores to, in the order of its code. -/
def ObjectSymbol.stores (symbol : ObjectSymbol) : List String :=
  (MachineCode.mk symbol.data symbol.relocations).stores

/-- What the objects of items store is what the code among them does. -/
theorem Compiler.objects_stores : ∀ items : List Program.Item,
    (items.flatMap objects).flatMap (·.2.stores) = (items.filterMap Item.code?).flatMap (·.2.stores)
  | [] => rfl
  | i :: rest => by
    have ih := objects_stores rest
    rw [List.flatMap_cons, List.flatMap_append, ih]
    cases i with
    | global s => cases s <;> rfl
    | compiled symbol code type locals span =>
      have hlocals : ((locals.getD []).map fun entry => dataObject entry.2).flatMap (·.2.stores) = [] :=
        List.flatMap_eq_nil_iff.mpr fun object hobject => by
          obtain ⟨entry, -, rfl⟩ := List.mem_map.mp hobject
          rfl
      rw [objects, List.flatMap_cons, hlocals, List.append_nil]
      rfl
    | _ => rfl

/-- Code is that of an object. -/
theorem Objects.exists_object {t : Program} {symbols : List (String × ObjectSymbol)} (h : Objects unit p S t symbols)
    {code : String × MachineCode} (hcode : code ∈ t.codes) :
    ∃ object, (code.1, object) ∈ symbols ∧ object.place = .text ∧
      MachineCode.mk object.data object.relocations = code.2 := by
  obtain ⟨i, hi, hcode⟩ := List.mem_filterMap.mp hcode
  obtain ⟨entry, hentry, rfl⟩ := List.mem_map.mp hi
  have hmem : ∀ object ∈ Compiler.objects entry.1, object ∈ symbols := fun object hobject =>
    h.mem_iff.mpr ⟨entry, hentry, hobject⟩
  generalize entry.1 = i at hcode hmem
  cases i with
  | compiled symbol c type locals span =>
    obtain rfl := Option.some.inj hcode
    exact ⟨_, hmem _ List.mem_cons_self, rfl, rfl⟩
  | _ => cases hcode

/-- Every piece of code is in an object of its name, which stores the same. -/
theorem Objects.exists_code {t : Program} {symbols : List (String × ObjectSymbol)} (h : Objects unit p S t symbols)
    {code : String × MachineCode} (hcode : code ∈ t.codes) :
    ∃ object, (code.1, object) ∈ symbols ∧ object.stores = code.2.stores := by
  obtain ⟨object, hobject, -, hsame⟩ := h.exists_object hcode
  exact ⟨object, hobject, congrArg MachineCode.stores hsame⟩

/-! ## 4. What a variable is stored by -/

namespace Run

variable (r : Run unit p S)

/-- Calls store to parameters. -/
theorem param_of_stored {f : Function} (hf : f ∈ r.named.functions) {s : Stmt} (hs : s ∈ f.body.leaves)
    {e : Expr} (he : e ∈ s.parts) {symbol : String} (h : symbol ∈ e.stored) :
    ∃ x ∈ r.named.variableBindings, x.declaration.symbol = symbol ∧ x.declaration.mutable = true := by
  obtain ⟨b, hb, hkind, hparam⟩ := Expr.exists_of_stored h
  have hdeclares := r.names.lexical.declares hf s hs e he b hb
  cases hdeclares with
  | @function g hg =>
    obtain ⟨entry, hentry, rfl⟩ := List.mem_map.mp hparam
    have hsymbol := BindNames.paramSymbols_subset (b := g.binding) rfl (List.of_mem_zip hentry).1
    obtain ⟨x, hx, hsymbol⟩ := List.mem_map.mp hsymbol
    exact ⟨x.binding, r.named.mem_variableBindings hg (List.mem_append_left _ (List.mem_map_of_mem hx)),
      hsymbol, rfl⟩
  | constant hconstant => cases hconstant.symm.trans hkind
  | _ => cases hkind

/-- What is assigned when names are bound is mutable once types are computed. -/
theorem mutable_of_target {f : Function} (hf : f ∈ r.named.functions) {lvalue rvalue : Expr}
    {type : Option Ty} {span : Span} (hs : .set lvalue rvalue type span ∈ f.body.leaves) {b : Binding}
    (hb : lvalue.target? = some b) : b.declaration.mutable = true := by
  obtain ⟨ready, hready, hunits⟩ := exists_of_mem_right r.units.functions.flip hf
  obtain ⟨typed, htyped, htypes⟩ := exists_of_mem_right r.preparation.typed_items.functions.flip hready
  obtain ⟨s1, hs1, hunits⟩ := exists_of_mem_right hunits.body.leaves.flip hs
  obtain ⟨s2, hs2, htypes⟩ := exists_of_mem_right htypes.body.leaves.flip hs1
  have hset := PropagateTypes.setsMutable r.preparation.folded_bound.1 r.preparation.type typed htyped s2 hs2
  cases hunits with
  | set hl _ =>
    cases htypes with
    | set hl' _ => exact hset b ((hl'.keepsTarget.trans hl.keepsTarget).trans hb)

/-- **Assignments** store to mutable variables. -/
theorem variable_of_assigned {f : Function} (hf : f ∈ r.named.functions) {lvalue rvalue : Expr}
    {type : Option Ty} {span : Span} (hs : .set lvalue rvalue type span ∈ f.body.leaves) {symbol : String}
    (h : lvalue.variableSymbol? = some symbol) :
    ∃ x ∈ r.named.variableBindings, x.declaration.symbol = symbol ∧ x.declaration.mutable = true := by
  rcases Expr.variableSymbol?_eq h with ⟨b, hb, rfl⟩ | ⟨zeroPage, type', span', rfl⟩
  · obtain ⟨hmem, hvariable⟩ := Expr.mem_of_target? hb
    have hdeclares := r.names.lexical.declares hf _ hs lvalue (by simp [Stmt.parts, Stmt.exprs]) b hmem
    exact ⟨b, hdeclares.mem_variableBindings hvariable, rfl, r.mutable_of_target hf hs hb⟩
  · obtain ⟨s', hlinked, herase⟩ := r.names.exists_unnamed hf hs
    cases s' with
    | set lvalue' _ _ _ =>
      obtain ⟨hcell, -⟩ := Stmt.set.inj herase
      cases lvalue' with
      | cell place _ _ _ =>
        cases hcell
        obtain ⟨_, _, hvar, -⟩ := hlinked.1
        cases hvar
      | _ => cases hcell
    | _ => cases herase

/-- **A variable that is not mutable** is stored to by what declares it only. -/
theorem stores_count {x : Binding} (hx : x ∈ r.named.variableBindings) (hfixed : x.declaration.mutable = false)
    {f : Function} (hf : f ∈ r.named.functions) {s : Stmt} (hs : s ∈ f.body.leaves) :
    s.stores.count x.declaration.symbol = (s.let?.bind Let.symbol).toList.count x.declaration.symbol := by
  have hother : ∀ {symbol : String}, (∃ y ∈ r.named.variableBindings, y.declaration.symbol = symbol ∧
      y.declaration.mutable = true) → symbol ≠ x.declaration.symbol := by
    rintro _ ⟨y, hy, rfl, hmutable⟩ hsame
    obtain rfl := r.names.variable_eq hy hx hsame
    cases hmutable.symm.trans hfixed
  have hstored : ∀ e ∈ s.parts, e.stored.count x.declaration.symbol = 0 := fun e he =>
    List.count_eq_zero.mpr fun h => hother (r.param_of_stored hf hs he h) rfl
  obtain ⟨placed, -, halike⟩ := exists_of_mem_right r.functions.flip hf
  obtain ⟨s', -, halike⟩ := exists_of_mem_right halike.body.leaves.flip hs
  cases halike with
  | @decl d _ _ _ =>
    rw [Stmt.stores, List.count_append, hstored d.value (List.mem_singleton_self _), Nat.zero_add]
    rfl
  | @set lvalue _ rvalue _ type _ span _ _ =>
    have hassigned : lvalue.variableSymbol?.toList.count x.declaration.symbol = 0 :=
      List.count_eq_zero.mpr fun h => hother (r.variable_of_assigned hf hs (Option.mem_toList.mp h)) rfl
    rw [Stmt.stores, List.count_append, hassigned, hstored rvalue (by simp [Stmt.parts, Stmt.exprs])]
    rfl
  | @ret value _ _ _ _ _ =>
    cases value with
    | none => rfl
    | some value => exact hstored value (by simp [Stmt.parts, Stmt.exprs])
  | expr _ => exact hstored _ (List.mem_singleton_self _)
  | scope _ _ => rfl

/-- The symbol of a variable that is not mutable is stored to as often as functions declare it. -/
theorem archive_stores_count {x : Binding} (hx : x ∈ r.named.variableBindings)
    (hfixed : x.declaration.mutable = false) (emission : Emission unit S r.allocated)
    {symbols : List (String × ObjectSymbol)} (h : Objects unit p S emission.flat symbols) :
    (symbols.flatMap (·.2.stores)).count x.declaration.symbol =
      (r.named.localBindings.map (·.declaration.symbol)).count x.declaration.symbol := by
  have hcodes : (emission.flat.codes.flatMap (·.2.stores)).count x.declaration.symbol =
      (r.named.functions.flatMap fun f => f.body.leaves.flatMap Stmt.stores).count x.declaration.symbol := by
    rw [flatMap_eq_of_forall₂ (fun hcode => hcode.2) (r.codes_stores emission h.all)]
  rw [(h.perm.flatMap_right _).count_eq, Compiler.objects_stores, ← Program.codes, hcodes,
    Program.localBindings, List.map_flatMap, List.count_flatMap, List.count_flatMap]
  congr 1
  refine List.map_congr_left fun f hf => ?_
  rw [Function.comp_apply, Function.comp_apply, ← r.names.lets_symbols hf, Stmts.lets_eq, List.filterMap_filterMap,
    List.filterMap_eq_flatMap_toList, List.count_flatMap, List.count_flatMap]
  congr 1
  exact List.map_congr_left fun s hs => r.stores_count hx hfixed hf hs

end Run

/-! ## 5. Archives -/

/-- **Immutable variables are never overwritten.**  The code of a text is made of instructions, and an
object stores what these do.  A variable of the unit that is declared without storage for it, and so
not mutable, is stored to by none of them.  One that a function declares so is stored to by exactly one
instruction of the whole archive: in the code of that function, behind what the statements before the
declaration store, and the calls in its value. -/
theorem Compiler.immutable_variables_kept (text unit : String) (options : ScheduleOptions) :
    match compile text unit options with
    | .error _ => True
    | .ok archive => ∃ p q : Program, Language.read text = .ok p.node ∧
        treeAfter BindNames.pass text unit options = .ok q.node ∧ q.outline = p.outline ∧
        (∀ object ∈ archive.symbols, object.2.place = .text → ∃ instructions,
          ObjectCode object.2 instructions ∧
          object.2.stores = instructions.filterMap Machine.Instruction.stored?) ∧
        (∀ d, .global (.decl d) ∈ q.items.map (·.1) → d.storage = none →
          d.symbol = some (unit ++ "." ++ d.name) ∧
          ∀ object ∈ archive.symbols, unit ++ "." ++ d.name ∉ object.2.stores) ∧
        ∀ f ∈ q.functions, ∀ before d after, f.body.leaves = before ++ .decl d :: after →
          d.storage = none → ∃ symbol object, d.symbol = some symbol ∧
            (archive.symbols.flatMap (·.2.stores)).count symbol = 1 ∧
            (unit ++ "." ++ f.name, object) ∈ archive.symbols ∧
            object.stores = before.flatMap Stmt.stores ++ d.value.stored ++
              symbol :: after.flatMap Stmt.stores := by
  cases harchive : compile text unit options with
  | error e => trivial
  | ok archive =>
    obtain ⟨p, S, r, emission, hr, hobjects, -⟩ := compile_eq_ok harchive
    refine ⟨p, r.named, hr.read, hr.named, r.names.outline, fun object hobject hplace => ?_,
      fun d hd hstorage => ?_, fun f hf before d after hleaves hstorage => ?_⟩
    · rcases hobjects.cases hobject with ⟨-, ⟨instructions, hcode⟩, -⟩ | ⟨hother, -⟩
      · refine ⟨_, hcode, ?_⟩
        rw [ObjectSymbol.stores, hcode.data, hcode.relocations]
        exact Machine.Instruction.stores_codeOf _
      · exact absurd hplace hother
    -- no function declares a variable of the unit, so nothing stores to it
    · have hx : d.binding .global ∈ r.named.variableBindings :=
        List.mem_flatMap.mpr ⟨_, hd, List.mem_singleton_self _⟩
      have hsymbol : d.symbol = some (unit ++ "." ++ d.name) := (r.names.labelled _ hd).1
      have hcount := r.archive_stores_count hx (by rw [Let.binding, hstorage]; rfl) emission hobjects
      rw [(r.names.count_symbol hx).2 ?_, Let.binding, hsymbol, Option.getD_some, List.count_eq_zero] at hcount
      · exact ⟨hsymbol, fun object hobject hstored => hcount (List.mem_flatMap.mpr ⟨object, hobject, hstored⟩)⟩
      · intro hlocal
        obtain ⟨f, -, hf⟩ := List.mem_flatMap.mp hlocal
        obtain ⟨d', -, hd'⟩ := List.mem_map.mp hf
        cases congrArg (fun b : Binding => b.declaration.kind) hd'
    -- a variable of a function is declared once, and its symbol tells the only store
    · have hd : d ∈ f.body.lets := by
        rw [Stmts.lets_eq, hleaves, List.filterMap_append, List.filterMap_cons]
        exact List.mem_append_right _ List.mem_cons_self
      have hlocal : d.binding .localVar ∈ r.named.localBindings :=
        List.mem_flatMap.mpr ⟨f, hf, List.mem_map_of_mem hd⟩
      have hx := r.named.localBindings_sublist.subset hlocal
      obtain ⟨hfunction, -, hlets⟩ := r.names.labelled _ (Items.mem_functions.mp hf)
      obtain ⟨v, hv⟩ := Option.isSome_iff_exists.mp (hlets d hd)
      have hsymbol := Let.symbol_of_toVariable? hv
      have hcount := r.archive_stores_count hx (by rw [Let.binding, hstorage]; rfl) emission hobjects
      rw [(r.names.count_symbol hx).1 hlocal, Let.binding, hsymbol, Option.getD_some] at hcount
      obtain ⟨code, hcode, hsame, hstores⟩ :=
        exists_of_mem_right (r.codes_stores emission hobjects.all).flip hf
      obtain ⟨object, hobject, hobjectStores⟩ := hobjects.exists_code hcode
      rw [← Option.some.inj (hfunction.symm.trans hsame)] at hobject
      refine ⟨v.symbol, object, hsymbol, hcount, hobject, ?_⟩
      rw [hobjectStores, hstores, hleaves, List.flatMap_append, List.flatMap_cons, Stmt.stores, hsymbol]
      simp

end Lode
