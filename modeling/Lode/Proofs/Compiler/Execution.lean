/-
# Execution of compiled functions

The code of a function that calls no other ones does what is written, on a processor that runs it byte by
byte.

Up to the allocation of variables, the statements that are written are followed one by one, whatever is said
of their expressions (`Followed`): what stands in their places assigns to the cells that they name, and its
expressions have the bytes that are written (`Realized`).  The context grows on the way, as every
declaration makes a name known to the statements behind it, and with the context the list of symbols: a
variable that is declared has the next one.

Running the instructions of these statements is a simulation: from every memory, it comes to the outcome of
the written ones (`Followed.simulates`).  The induction is on the statements.  A return ends it whatever
follows, and a store changes one cell, which is the cell of no other variable in the context because all
symbols differ (`Named.cells_nodup`).  The code in an archive consists of these instructions, up to a return
at its end (`functions_run_as_written`).

With calls or without, the instructions of a function access the addresses that are dereferenced in it, one
after the other (`dereferences_access`).  For this, `Followed` is used with another relation between
expressions, about what they dereference instead of their bytes.
-/
import Lode.Proofs.Compiler.Calls
import Lode.Proofs.Compiler.Emission
import Lode.Proofs.Compiler.Refinement
import Lode.Proofs.Compiler.Stores

namespace Lode

open Program

variable {unit : String} {p q : Program} {S : Symbols} {c : Context}

/-! ## 1. Statements up to the allocation of variables -/

namespace Simplify

theorem kind_simpleStmt (s : Stmt) : (simpleStmt s).kind = s.kind := by cases s <;> rfl

end Simplify

namespace Program

/-- The expressions of a written statement are written. -/
theorem Stmt.Written.parts {s : Stmt} (h : s.Written) : ∀ e ∈ s.parts, e.Written := by
  cases s with
  | decl d => exact List.forall_mem_singleton.mpr h.value
  | set _ _ _ _ => exact List.forall_mem_cons.mpr ⟨h.1, List.forall_mem_singleton.mpr h.2.1⟩
  | ret value _ _ => exact fun e he => h.1 e (Option.mem_toList.mp he)
  | expr _ => exact List.forall_mem_singleton.mpr h
  | _ => cases h

theorem Stmt.Written.isAction_or {s : Stmt} (h : s.Written) : s.isAction = true ∨ ∃ d, s = .decl d := by
  cases s with
  | decl d => exact .inr ⟨d, rfl⟩
  | set _ _ _ _ | ret _ _ _ | expr _ => exact .inl rfl
  | _ => cases h

theorem Stmt.isAction_eq (s : Stmt) : s.isAction = decide (s.kind = .set ∨ s.kind = .ret ∨ s.kind = .expr) := by
  cases s <;> rfl

section Action

variable {s : Stmt} {rest : List Stmt} (hs : s.isAction = true)
include hs

/-- An action is bound in the environment around it, and leaves that as it is. -/
theorem LexicalIn.of_isAction {env : Env} (h : LexicalIn env (s :: rest)) :
    (∀ e ∈ s.parts, e.BoundBy env) ∧ LexicalIn env rest := by
  cases s with
  | set _ _ _ _ | ret _ _ _ | expr _ => exact h
  | _ => cases hs

theorem AddressesFit.of_isAction {values : String → Option Int} (h : AddressesFit values (s :: rest)) :
    (∀ e ∈ s.parts, e.AddressesFit values) ∧ AddressesFit values rest := by
  cases s with
  | set _ _ _ _ | ret _ _ _ | expr _ => exact h
  | _ => cases hs

theorem Stmt.let?_of_isAction : s.let? = none := by
  cases s with
  | decl _ => cases hs
  | _ => rfl

/-- The allocation of variables leaves all other statements. -/
theorem Stmt.eq_of_assigned {s' : Stmt} (h : AllocateLocals.Assigned s s') : s' = s := by
  cases h with
  | decl _ _ => cases hs
  | other _ => rfl

end Action

/-- What the passes between the binding of names and the storage of variables make of an expression, where
constants are known. -/
def Expr.Placed (values : String → Option Int) : Expr → Expr → Prop :=
  Relation.Comp (Substituted values) (Steady.Rewritten ResolveStorage.place)

/-- A relation between written expressions and what is left of them once their storage is known. -/
def Follows (Rel : Context → Expr → Expr → Prop) : Prop :=
  ∀ {c : Context} {env : Env} {e bound placed : Expr}, e.Written → c.Fits env →
    (Simplify.simple .fresh e).Refines c bound → bound.BoundBy env →
    Expr.Placed (c.constants.lookup ·) bound placed → Rel c e placed

variable {Rel : Context → Expr → Expr → Prop}

/-- The expressions of a written statement are followed until their storage is known. -/
theorem Stmt.Written.follows (hRel : Follows Rel) {s bound placed : Stmt} {env : Env} (hwritten : s.Written)
    (hfits : c.Fits env) (hlike : (Simplify.simpleStmt s).Like (fun e e' => ∀ c, e.Refines c e') bound)
    (hbound : ∀ e ∈ bound.parts, e.BoundBy env)
    (hplaced : bound.Alike (Expr.Placed (c.constants.lookup ·)) placed) : s.Like (Rel c) placed := by
  refine ⟨hplaced.like.kind.trans (hlike.kind.trans (Simplify.kind_simpleStmt s)), ?_⟩
  have hrefines := List.forall₂_map_left_iff.mp (Simplify.parts_simpleStmt hwritten ▸ hlike.parts)
  exact forall₂_trans
    (fun ⟨hwritten, hrefines⟩ ⟨hbound, hplaced⟩ => hRel hwritten hfits (hrefines c) hbound hplaced)
    ((List.forall₂_and_left _ _).mpr ⟨hwritten.parts, hrefines⟩)
    ((List.forall₂_and_left _ _).mpr ⟨hbound, hplaced.parts⟩)

/-- Statements whose variables are allocated, in place of written ones.  A variable that is declared has the next
of some symbols. -/
inductive Followed (Rel : Context → Expr → Expr → Prop) : Context → List String → List Stmt → List Stmt → Prop
  | nil {c : Context} : Followed Rel c [] [] []
  | decl {c : Context} {d : Let} {symbol : String} {symbols : List String} {value : Expr} {zeroPage : Bool}
      {cell : Ty} {type : Option Ty} {at_ span : Span} {rest rest' : List Stmt} : Rel c d.value value →
      Followed Rel (c.declare d.name symbol) symbols rest rest' →
      Followed Rel c (symbol :: symbols) (.decl d :: rest)
        (.set (.cell (.symbol symbol) zeroPage cell at_) value type span :: rest')
  | action {c : Context} {symbols : List String} {s s' : Stmt} {rest rest' : List Stmt} : s.isAction = true →
      s.Assigns → s.Like (Rel c) s' → Followed Rel c symbols rest rest' →
      Followed Rel c symbols (s :: rest) (s' :: rest')

/-- **Statements up to the allocation of variables.**  A declaration makes its name known to the statements
behind it, in the context as in the names that they are bound to. -/
theorem followed (hRel : Follows Rel) : ∀ {written bound allocated : List Stmt} {env : Env} {c : Context},
    (∀ s ∈ written, s.Written ∧ s.Assigns) →
    List.Forall₂ (fun s s' => (Simplify.simpleStmt s).Like (fun e e' => ∀ c, e.Refines c e') s')
      written bound →
    List.Forall₂ (Relation.Comp (Stmt.Alike (Expr.Placed (c.constants.lookup ·))) AllocateLocals.Assigned)
      bound allocated →
    LexicalIn env bound → c.Fits env →
    Followed Rel c ((bound.filterMap Stmt.let?).filterMap Let.symbol) written allocated
  | [], _, _, _, _, _, hlike, hallocated, _, _ => by
    cases hlike
    cases hallocated
    exact .nil
  | s :: rest, _, _, env, c, hwritten, hlike, hallocated, hlexical, hfits => by
    obtain ⟨⟨hs, hassigns⟩, hwritten'⟩ := List.forall_mem_cons.mp hwritten
    cases hlike with
    | @cons _ n _ bound hn hlike =>
      cases hallocated with
      | @cons _ a _ allocated ha hallocated =>
        obtain ⟨placed, halike, hassigned⟩ := ha
        rcases hs.isAction_or with haction | ⟨d, rfl⟩
        -- an action keeps its place, and leaves the context as it is
        · have hkind : n.kind = s.kind := hn.kind.trans (Simplify.kind_simpleStmt s)
          have hnaction : n.isAction = true := by rw [Stmt.isAction_eq, hkind, ← Stmt.isAction_eq, haction]
          obtain rfl := Stmt.eq_of_assigned (halike.isAction.trans hnaction) hassigned
          obtain ⟨hbound, hlexical⟩ := hlexical.of_isAction hnaction
          rw [List.filterMap_cons_none (Stmt.let?_of_isAction hnaction)]
          exact .action haction hassigns (hs.follows hRel hfits hn hbound halike)
            (followed hRel hwritten' hlike hallocated hlexical hfits)
        · cases n with
          | decl d' =>
            cases halike with
            | @decl _ d'' hvalue hsame =>
              cases hassigned with
              | other hstraight => cases hstraight
              | @decl _ v _ hv _ =>
                -- the name of a declaration stands for its symbol from here on
                have hname : d'.name = d.name := Kind.decl.inj hn.kind
                have hsymbol : d'.symbol = some v.symbol :=
                  hsame.symbol.symm.trans (Let.symbol_of_toVariable? hv)
                have hfollows := hs.follows hRel hfits hn (List.forall_mem_singleton.mpr hlexical.1)
                  (.decl hvalue hsame)
                have hfits' : (c.declare d.name v.symbol).Fits ((d'.name, d'.binding .localVar) :: env) := by
                  rw [← hname]
                  exact hfits.declare hsymbol
                rw [List.filterMap_cons_some (show (Stmt.decl d').let? = some d' from rfl),
                  List.filterMap_cons_some hsymbol]
                exact .decl (List.forall₂_cons.mp hfollows.parts).1
                  (followed hRel hwritten' hlike hallocated hlexical.2 hfits')
          | _ => cases hn.kind

/-- An expression stands for a written one, if that calls no functions and dereferences addresses. -/
def Expr.RealizesPlain (c : Context) (e e' : Expr) : Prop :=
  e.callees = [] → e.AddressesFit c.constant? → e.Realizes c e'

/-- Written expressions without calls are realized by what is left of them. -/
theorem follows_realizesPlain : Follows Expr.RealizesPlain :=
  fun hwritten hfits hrefines hbound hplaced hcallees haddresses =>
    hwritten.realizes hfits hcallees haddresses hrefines hbound hplaced

/-- Statements that stand for written ones. -/
abbrev Realized : Context → List String → List Stmt → List Stmt → Prop := Followed Expr.Realizes

/-- Statements in place of written ones stand for them, if these call no functions and dereference addresses. -/
theorem Followed.realized {symbols : List String} {written allocated : List Stmt}
    (h : Followed Expr.RealizesPlain c symbols written allocated)
    (hfree : ∀ s ∈ written, ∀ e ∈ s.parts, e.callees = []) (haddresses : AddressesFit c.constant? written) :
    Realized c symbols written allocated := by
  induction h with
  | nil => exact .nil
  | decl hvalue _ ih =>
    obtain ⟨hcallees, hfree⟩ := List.forall_mem_cons.mp hfree
    rw [Context.constant?_declare] at ih
    exact .decl (hvalue (hcallees _ (List.mem_singleton_self _)) haddresses.1) (ih hfree haddresses.2)
  | action haction hassigns hlike _ ih =>
    obtain ⟨hcallees, hfree⟩ := List.forall_mem_cons.mp hfree
    obtain ⟨hfit, haddresses⟩ := haddresses.of_isAction haction
    have hparts := (List.forall₂_and_left _ _).mpr
      ⟨fun e he => And.intro (hcallees e he) (hfit e he), hlike.parts⟩
    exact .action haction hassigns ⟨hlike.kind, hparts.imp fun _ _ h => h.2 h.1.1 h.1.2⟩ (ih hfree haddresses)

end Program

/-! ## 2. Simulation -/

open Machine.Instruction (executeAll executeAll_append)

/-- What instructions come to, up to the first return or all of them. -/
inductive Reaches : List Machine.Instruction → Machine.State → Outcome → Prop
  | intro {front back : List Machine.Instruction} {s s' : Machine.State} {result : Option UInt8} :
      executeAll front s = some s' → (∀ b ∈ result, s'.accumulator = b) →
      back = [] ∨ (∃ rest, back = Assemble.rts :: rest) → Reaches (front ++ back) s ⟨s'.memory, result⟩

namespace Reaches

variable {instructions : List Machine.Instruction} {s s' : Machine.State} {outcome : Outcome}

/-- Nothing is executed in front of a return. -/
theorem here (h : instructions = [] ∨ ∃ rest, instructions = Assemble.rts :: rest) :
    Reaches instructions s ⟨s.memory, none⟩ :=
  @intro [] instructions s s none rfl (fun _ hb => by cases hb) h

/-- Instructions that go on elsewhere come to what is reached there. -/
theorem prepend {block : List Machine.Instruction} (hblock : executeAll block s = some s')
    (h : Reaches instructions s' outcome) : Reaches (block ++ instructions) s outcome := by
  cases h with
  | intro hfront hresult hback =>
    rw [← List.append_assoc]
    refine .intro ?_ hresult hback
    rw [executeAll_append, hblock, Option.bind_some, hfront]

/-- **Closed instructions** are run up to a return. -/
theorem run {tail : List Machine.Instruction} (h : Reaches instructions s outcome)
    (hcloses : Closes instructions tail) :
    ∃ fuel s', Machine.run (Machine.Instruction.codeOf (instructions ++ tail)) fuel 0 s = some s' ∧
      s'.memory = outcome.memory ∧ ∀ b ∈ outcome.result, s'.accumulator = b := by
  cases h with
  | @intro front back _ s' result hfront hresult hback =>
    have hreturn : ∃ rest, back ++ tail = Assemble.rts :: rest := by
      rcases hback with rfl | ⟨rest, rfl⟩
      · rcases hcloses with rfl | ⟨rfl, before, hlast⟩
        · exact ⟨[], rfl⟩
        · -- the last instruction is a return, which is not executed
          rw [List.append_nil] at hlast
          rw [hlast, executeAll_append] at hfront
          obtain ⟨s1, -, hend⟩ := Option.bind_eq_some_iff.mp hfront
          cases hend
      · exact ⟨rest ++ tail, rfl⟩
    obtain ⟨rest, hrest⟩ := hreturn
    have hrun := Machine.Instruction.run_codeOf Assemble.rts rfl rest [] hfront
    rw [List.nil_append, ← hrest, ← List.append_assoc] at hrun
    exact ⟨_, s', hrun, rfl, hresult⟩

end Reaches

/-- A store to a cell. -/
theorem Assemble.Uses.execute_store {place : Place} {zeroPage : Bool} {type : Ty} {span : Span}
    {store : Machine.Instruction} (h : Assemble.Uses .sta (.cell place zeroPage type span) store)
    (hdirect : (Expr.cell place zeroPage type span).Direct) (s : Machine.State) :
    executeAll [store] s = some { s with memory := s.memory.set place s.accumulator } := by
  have hexecute := h.execute Opcodes.perform_sta s
  rw [h.source hdirect.stored, Machine.Operation.apply] at hexecute
  simp [executeAll, hexecute]

/-- **Code does what is written.** -/
theorem Program.Followed.simulates {symbols : List String} {written allocated : List Stmt}
    (h : Realized c symbols written allocated) : ∀ {instructions : List Machine.Instruction},
    Emits allocated instructions → ∀ s : Machine.State, ∃ outcome,
      execute c symbols written s.memory = some outcome ∧ Reaches instructions s outcome := by
  induction h with
  | nil =>
    intro instructions hemits s
    cases hemits
    exact ⟨_, rfl, .here (.inl rfl)⟩
  | @decl c d symbol symbols value _ _ _ _ _ rest rest' hvalue _ ih =>
    intro instructions hemits s
    cases hemits with
    | @set _ _ _ _ _ _ _ _ _ _ loads instructions store hloads hall hstore hemits =>
      -- the value is loaded and stored in the cell of the variable, and the rest goes on from there
      obtain ⟨b, carry, hb, hload⟩ := hloads.accumulates c hall hvalue.direct s
      obtain ⟨outcome, hexecute, hreaches⟩ := ih hemits ⟨b, carry, s.memory.set (.symbol symbol) b⟩
      refine ⟨outcome, ?_, .prepend hload (.prepend (hstore.execute_store trivial _) hreaches)⟩
      rw [execute, hvalue.byte hb]
      exact hexecute
  | @action c symbols s s' rest rest' haction hassigns hlike _ ih =>
    intro instructions hemits start
    obtain ⟨hkind, hparts⟩ := hlike
    cases hemits with
    | @set place _ _ _ _ _ _ _ _ _ loads instructions store hloads hall hstore hemits =>
      cases s with
      | set lvalue rvalue _ _ =>
        obtain ⟨hlvalue, hrest⟩ := List.forall₂_cons.mp hparts
        have hrvalue := (List.forall₂_cons.mp hrest).1
        obtain ⟨b, carry, hb, hload⟩ := hloads.accumulates c hall hrvalue.direct start
        obtain ⟨outcome, hexecute, hreaches⟩ := ih hemits ⟨b, carry, start.memory.set place b⟩
        refine ⟨outcome, ?_, .prepend hload (.prepend (hstore.execute_store hlvalue.direct _) hreaches)⟩
        rw [execute, hlvalue.place hassigns rfl, hrvalue.byte hb]
        exact hexecute
      | _ => cases hkind
    | @ret _ _ _ instructions _ =>
      cases s with
      | ret value _ _ =>
        cases value with
        | none => exact ⟨_, rfl, .here (.inr ⟨_, rfl⟩)⟩
        | some _ => cases hparts
      | _ => cases hkind
    | @value _ _ _ _ _ _ loads instructions hloads hall _ =>
      cases s with
      | ret value _ _ =>
        cases value with
        | none => cases hparts
        | some e =>
          -- behind a return nothing is executed
          have hvalue := (List.forall₂_cons.mp hparts).1
          obtain ⟨b, carry, hb, hload⟩ := hloads.accumulates c hall hvalue.direct start
          have hresult : ∀ b' ∈ some b, (Machine.State.mk b carry start.memory).accumulator = b' :=
            fun _ h => Option.some.inj h
          refine ⟨_, ?_, .intro hload hresult (.inr ⟨_, rfl⟩)⟩
          rw [execute, hvalue.byte hb, Option.map_some]
      | _ => cases hkind

/-- Code does what statements say: from every state it comes to a return, where the memory is that of their
outcome, and the byte that they return, if they do, is in the accumulator. -/
def Performs (code : MachineCode) (c : Context) (symbols : List String) (stmts : List Stmt) : Prop :=
  ∀ s : Machine.State, ∃ outcome, execute c symbols stmts s.memory = some outcome ∧
    ∃ fuel s', Machine.run code fuel 0 s = some s' ∧ s'.memory = outcome.memory ∧
      ∀ b ∈ outcome.result, s'.accumulator = b

/-! ## 3. Functions of texts -/

/-- An expression whose calls are checked is no call, if it calls no functions. -/
theorem Program.Expr.CallsChecked.isCall_eq {e : Expr} (h : e.CallsChecked) (hcallees : e.callees = []) :
    LowerCalls.isCall e = false := by
  cases e with
  | call target args callee type span =>
    obtain ⟨hcall, -⟩ := h
    cases hcall
    cases hcallees
  | _ => rfl

/-- A statement whose expressions are no calls stays when calls are lowered. -/
theorem Program.Stmt.calls_eq {s : Stmt} (h : ∀ e ∈ s.parts, LowerCalls.isCall e = false) : s.calls = [s] := by
  cases s with
  | set lvalue rvalue type span =>
    obtain ⟨hnone, hsame⟩ := LowerCalls.callStmts_of_not_call (h rvalue (by simp [Stmt.parts, Stmt.exprs]))
    rw [Stmt.calls, hnone, hsame]
    rfl
  | ret value type span =>
    cases value with
    | none => rfl
    | some e =>
      obtain ⟨hnone, hsame⟩ := LowerCalls.callStmts_of_not_call (h e (List.mem_singleton_self e))
      rw [Stmt.calls, hnone, hsame]
      rfl
  | expr e =>
    cases e with
    | call _ _ _ _ _ => cases h _ (List.mem_singleton_self _)
    | _ => rfl
  | _ => rfl

/-- The statements in place of written ones are no declarations. -/
theorem Program.Followed.isAction {Rel : Context → Expr → Expr → Prop} {symbols : List String}
    {written allocated : List Stmt} (h : Followed Rel c symbols written allocated) :
    ∀ s ∈ allocated, s.isAction = true := by
  induction h with
  | nil => exact List.forall_mem_nil _
  | decl _ _ ih => exact List.forall_mem_cons.mpr ⟨rfl, ih⟩
  | action haction _ hlike _ ih =>
    refine List.forall_mem_cons.mpr ⟨?_, ih⟩
    rw [Stmt.isAction_eq, hlike.kind, ← Stmt.isAction_eq, haction]

/-- The statements in place of written ones without calls have none. -/
theorem Program.Followed.callees {symbols : List String} {written allocated : List Stmt}
    (h : Realized c symbols written allocated) : ∀ s ∈ allocated, ∀ e ∈ s.parts, e.callees = [] := by
  induction h with
  | nil => exact List.forall_mem_nil _
  | decl hvalue _ ih =>
    exact List.forall_mem_cons.mpr
      ⟨List.forall_mem_cons.mpr ⟨rfl, List.forall_mem_singleton.mpr hvalue.callees⟩, ih⟩
  | action _ _ hlike _ ih =>
    refine List.forall_mem_cons.mpr ⟨fun e' he' => ?_, ih⟩
    obtain ⟨e, -, hrealizes⟩ := exists_of_mem_right hlike.parts he'
    exact hrealizes.callees

/-- The symbols of the variables that items bind their names to. -/
def Program.Items.globals (items : List Program.Item) : List String :=
  (Items.env items).filterMap fun entry => entry.2.meaning.symbol?

/-- The variables of a unit are among those that its items declare. -/
theorem Program.Items.globals_sublist (items : List Program.Item) :
    (globals items).Sublist ((items.flatMap Item.variableBindings).map (·.declaration.symbol)) := by
  induction items with
  | nil => exact .slnil
  | cons i rest ih =>
    rw [List.flatMap_cons, List.map_append]
    cases i with
    | constant _ _ _ _ _ | use _ _ | compiled _ _ _ _ _ => exact ih
    | function f => exact ih.trans (List.sublist_append_right _ _)
    | global s =>
      cases s with
      | decl d => exact ih.cons_cons _
      | _ => exact ih

/-- **Every variable that a function can name** has a cell of its own, and so have those that it declares. -/
theorem Named.cells_nodup (h : Named unit p q S) {g : Function} (hg : g ∈ q.functions)
    (hfits : c.Fits (g.paramEnv ++ Items.env (q.items.map (·.1)))) :
    (c.symbols ++ g.body.lets.filterMap Let.symbol).Nodup := by
  obtain ⟨front, back, hitems⟩ := List.append_of_mem (Items.mem_functions.mp hg)
  have hparams : g.paramEnv.filterMap (fun entry => entry.2.meaning.symbol?) =
      ((g.params.map Prod.fst).map Param.binding).map (·.declaration.symbol) := by
    rw [Function.paramEnv, List.filterMap_map, List.map_map]
    exact congrFun List.filterMap_eq_map _
  have hglobals : Items.globals (q.items.map (·.1)) = Items.globals front ++ Items.globals back := by
    rw [hitems, Items.globals, Items.env, List.filterMap_append, List.filterMap_append]
    rfl
  have hsymbols : c.symbols = ((g.params.map Prod.fst).map Param.binding).map (·.declaration.symbol) ++
      (Items.globals front ++ Items.globals back) := by
    rw [Context.symbols, show c.names = _ from hfits, List.filterMap_map, List.filterMap_append, ← hparams,
      ← hglobals]
    rfl
  have hnodup := h.variable_symbols_nodup
  rw [Program.variableBindings, hitems, List.flatMap_append, List.flatMap_cons, List.map_append, List.map_append,
    Item.variableBindings, Function.variableBindings, List.map_append, ← h.lets_symbols hg] at hnodup
  have hsub := hnodup.sublist ((Items.globals_sublist front).append
    ((List.Sublist.refl _).append (Items.globals_sublist back)))
  rw [hsymbols]
  refine (List.Perm.nodup_iff ?_).mp hsub
  rw [List.perm_iff_count]
  intro symbol
  simp only [List.count_append]
  omega

namespace Run

variable (r : Run unit p S)

/-- Functions whose names are bound, and the statements of these once variables are allocated. -/
theorem allocated_statements : List.Forall₂ (fun g h : Function => h.symbol = g.symbol ∧
    List.Forall₂ (Relation.Comp (Stmt.Alike (Expr.Placed (p.constantValues.lookup ·))) AllocateLocals.Assigned)
      g.body.leaves h.body.toList)
    r.named.functions r.allocated.functions := by
  refine forall₂_trans (fun halike hassigned => ?_) r.substituted.functions r.preparation.allocated_functions
  refine ⟨by rw [hassigned.2]; exact halike.symbol, ?_⟩
  exact forall₂_trans (fun hs hs' => ⟨_, hs, hs'⟩) halike.body.leaves hassigned.1

/-- **Functions and their code.**  The statements that are written are followed to those of which the code of a
function is made. -/
theorem function_followed {Rel : Context → Expr → Expr → Prop} (hRel : Follows Rel)
    (emission : Emission unit S r.allocated)
    (hall : ∀ entry ∈ emission.flat.items, Compiler.isLowered entry.1 = true) {f : Function}
    (hf : f ∈ p.functions) : ∃ h ∈ r.allocated.functions, ∃ code ∈ emission.flat.codes, ∃ body symbols,
      code.1 = unit ++ "." ++ f.name ∧ Emitted h.body body ∧ FlattenSymbol.codeIn body = code.2 ∧
      (∀ s ∈ body.toList, ∃ c place, s = .code c place) ∧
      ((f.context unit (p.items.map (·.1))).symbols ++ symbols).Nodup ∧
      Followed Rel (f.context unit (p.items.map (·.1))) symbols f.body.toList h.body.toList := by
  obtain ⟨g, hg, hbound⟩ := exists_of_mem_right r.bound_functions.flip hf
  obtain ⟨h, hh, hsymbol, hallocated⟩ := exists_of_mem_right r.allocated_statements.flip hg
  obtain ⟨code, hcode, hname, body, hemitted, -, hcodeIn, hcodes⟩ :=
    exists_of_mem_right (emission.codes_emitted hall).flip hh
  have hfits := r.context_fits hg hbound
  have hlexical : LexicalIn (g.paramEnv ++ Items.env (r.named.items.map (·.1))) g.body.leaves :=
    r.names.lexical _ (Items.mem_functions.mp hg)
  have hfollowed := followed hRel (fun s hs => ⟨hbound.written s hs, hbound.assigns s hs⟩) hbound.leaves hallocated
    hlexical hfits
  rw [← Stmts.lets_eq] at hfollowed
  refine ⟨h, hh, code, hcode, body, _, ?_, hemitted, hcodeIn, hcodes, r.names.cells_nodup hg hfits, hfollowed⟩
  rw [hsymbol, (r.names.functions_labelled hg).1, hbound.name] at hname
  exact (Option.some.inj hname).symm

/-- **The code of a function** without calls performs its body. -/
theorem function_code (emission : Emission unit S r.allocated)
    (hall : ∀ entry ∈ emission.flat.items, Compiler.isLowered entry.1 = true) {f : Function}
    (hf : f ∈ p.functions) :
    ∃ code ∈ emission.flat.codes, ∃ symbols, code.1 = unit ++ "." ++ f.name ∧
      ((f.context unit (p.items.map (·.1))).symbols ++ symbols).Nodup ∧
      (f.CallFree → AddressesFit (f.context unit (p.items.map (·.1))).constant? f.body.toList →
        Performs code.2 (f.context unit (p.items.map (·.1))) symbols f.body.toList) := by
  obtain ⟨h, hh, code, hcode, body, symbols, hname, hemitted, hcodeIn, hcodes, hcells, hfollowed⟩ :=
    r.function_followed follows_realizesPlain emission hall hf
  refine ⟨code, hcode, symbols, hname, hcells, fun hfree haddresses s => ?_⟩
  have hrealized := hfollowed.realized hfree haddresses
  have hcalls : ∀ s ∈ h.body.toList, s.calls = [s] := fun s hs => Stmt.calls_eq fun e he =>
    (r.allocated_parts hh s hs e he).1.isCall_eq (hrealized.callees s hs e he)
  obtain ⟨instructions, tail, hemits, hcloses, hall⟩ := hemitted.emits hfollowed.isAction hcalls hcodes
  obtain ⟨outcome, hexecute, hreaches⟩ := hrealized.simulates hemits s
  refine ⟨outcome, hexecute, ?_⟩
  rw [← hcodeIn, hall]
  exact hreaches.run hcloses

end Run

/-! ## 4. Dereferences -/

namespace Program

/-- What a statement dereferences, in the order of its instructions. -/
def Stmt.targets : Stmt → List Expr
  | .decl d => d.value.targets
  | .set lvalue rvalue _ _ => rvalue.targets ++ lvalue.targets
  | .ret (some e) _ _ | .expr e => e.targets
  | _ => []

/-- The values of what statements dereference.  The variables that they declare hide constants. -/
def dereferenced (values : String → Option Int) : List Stmt → List (Option Int)
  | [] => []
  | .decl d :: rest =>
    d.value.targets.map (·.value? values) ++ dereferenced (Function.update values d.name none) rest
  | s :: rest => s.targets.map (·.value? values) ++ dereferenced values rest

/-- Actions that are alike access what is dereferenced in them. -/
theorem Stmt.Like.traces {s s' : Stmt} (h : s.Like (Expr.Traces c) s') (haction : s.isAction = true) :
    List.Forall₂ (fun t a => ∃ n, t.value? c.constant? = some n ∧ Hits n a) s.targets s'.accesses := by
  obtain ⟨hkind, hparts⟩ := h
  cases s with
  | set lvalue rvalue _ _ =>
    cases s' with
    | set lvalue' rvalue' _ _ =>
      obtain ⟨hlvalue, hrest⟩ := List.forall₂_cons.mp hparts
      exact List.rel_append (List.forall₂_cons.mp hrest).1 hlvalue
    | _ => cases hkind
  | ret value _ _ =>
    cases s' with
    | ret value' _ _ =>
      cases value <;> cases value' <;> cases hparts
      · exact .nil
      · assumption
    | _ => cases hkind
  | expr e =>
    cases s' with
    | expr e' => exact (List.forall₂_cons.mp hparts).1
    | _ => cases hkind
  | _ => cases haction

/-- **Dereferences of statements** have values, at which the statements in their place access memory. -/
theorem Followed.accesses {symbols : List String} {written allocated : List Stmt}
    (h : Followed Expr.Traces c symbols written allocated) :
    List.Forall₂ (fun value a => ∃ n, value = some n ∧ Hits n a) (dereferenced c.constant? written)
      (allocated.flatMap Stmt.accesses) := by
  induction h with
  | nil => exact .nil
  | decl hvalue _ ih =>
    rw [Context.constant?_declare] at ih
    rw [dereferenced, List.flatMap_cons, Stmt.accesses, Expr.accesses, List.append_nil]
    refine List.rel_append ?_ ih
    exact List.forall₂_map_left_iff.mpr hvalue
  | @action c _ s s' rest rest' haction _ hlike _ ih =>
    have hcons : dereferenced c.constant? (s :: rest) =
        s.targets.map (·.value? c.constant?) ++ dereferenced c.constant? rest := by
      cases s with
      | decl d => cases haction
      | _ => rfl
    rw [hcons, List.flatMap_cons]
    refine List.rel_append ?_ ih
    exact List.forall₂_map_left_iff.mpr (hlike.traces haction)

end Program

theorem follows_traces : Follows Expr.Traces := fun hwritten hfits hrefines hbound hplaced =>
  hwritten.traces hfits hrefines hbound hplaced

/-- **Accesses of functions.** -/
theorem Run.function_accesses (r : Run unit p S) (hlength : ∀ f ∈ p.functions, f.params.length ≤ 2 ^ 64)
    (emission : Emission unit S r.allocated)
    (hall : ∀ entry ∈ emission.flat.items, Compiler.isLowered entry.1 = true) {f : Function}
    (hf : f ∈ p.functions) : ∃ code ∈ emission.flat.codes, ∃ instructions, code.1 = unit ++ "." ++ f.name ∧
      code.2 = Machine.Instruction.codeOf instructions ∧
      List.Forall₂ (fun value a => ∃ n, value = some n ∧ Hits n a)
        (dereferenced (f.context unit (p.items.map (·.1))).constant? f.body.toList)
        (instructions.filterMap (·.operand.access?)) := by
  obtain ⟨h, hh, code, hcode, body, symbols, hname, hemitted, hcodeIn, hcodes, -, hfollowed⟩ :=
    r.function_followed follows_traces emission hall hf
  have hnamed : ∀ g ∈ r.named.functions, g.params.length ≤ 2 ^ 64 := fun g hg => by
    obtain ⟨f, hf, hbound⟩ := exists_of_mem_right r.bound_functions hg
    have hcount := congrArg List.length hbound.params
    simp only [Function.paramNames, List.length_map] at hcount
    exact hcount.trans_le (hlength f hf)
  have hparts : ∀ s ∈ h.body.toList, ∀ e ∈ s.parts, e.CallsChecked ∧ ∀ b ∈ e.bindings, b.Counted :=
    fun s hs e he => (r.allocated_parts hh s hs e he).imp id fun hdeclares b hb => (hdeclares b hb).counted hnamed
  have hhits := hfollowed.accesses
  have hdirect : ∀ a ∈ h.body.toList.flatMap Stmt.accesses, IsDirect a := fun a ha => by
    obtain ⟨_, -, _, -, hhits⟩ := exists_of_mem_right hhits ha
    exact hhits.direct
  obtain ⟨instructions, hsame, haccesses⟩ := hemitted.accesses
    (fun s hs => Stmt.isCode_of_isAction (hfollowed.isAction s hs)) hparts hdirect hcodes
  exact ⟨code, hcode, instructions, hname, hcodeIn.symm.trans hsame, haccesses ▸ hhits⟩

/-! ## 5. Archives -/

/-- **Functions run as they are written.**  The code of every function of a text is in its archive, and every
variable that the function names or declares has a cell of its own.  If the body of the function calls no
functions and dereferences addresses only, running the code from any memory comes to a return.  The memory is
then that of the statements executed in their order, up to the first return, and the accumulator holds the byte
that is returned, if one is. -/
theorem Compiler.functions_run_as_written (text unit : String) (options : ScheduleOptions) :
    match compile text unit options with
    | .error _ => True
    | .ok archive => ∃ p : Program, Language.read text = .ok p.node ∧ ∀ f ∈ p.functions, ∃ object symbols,
        (unit ++ "." ++ f.name, object) ∈ archive.symbols ∧ object.place = .text ∧
        ((f.context unit (p.items.map (·.1))).symbols ++ symbols).Nodup ∧
        (f.CallFree → AddressesFit (f.context unit (p.items.map (·.1))).constant? f.body.toList →
          Performs ⟨object.data, object.relocations⟩ (f.context unit (p.items.map (·.1))) symbols
            f.body.toList) := by
  cases harchive : compile text unit options with
  | error e => trivial
  | ok archive =>
    obtain ⟨p, S, r, emission, hr, hobjects, -⟩ := compile_eq_ok harchive
    refine ⟨p, hr.read, fun f hf => ?_⟩
    obtain ⟨code, hcode, symbols, hname, hcells, hruns⟩ := r.function_code emission hobjects.all hf
    obtain ⟨object, hobject, hplace, hsame⟩ := hobjects.exists_object hcode
    exact ⟨object, symbols, hname ▸ hobject, hplace, hcells, hsame ▸ hruns⟩

/-- **Dereferences access what is written.**  What the functions of a text dereference has values, and the
instructions of a function access the memory at these, one after the other and by the form that the address has:
exactly at the value, if that is an address.  The others are the negative ones of a byte, which come to lie in the
last half of the zero page.  A text that dereferences any other number is not compiled. -/
theorem Compiler.dereferences_access (text unit : String) (options : ScheduleOptions) :
    match compile text unit options with
    | .error _ => True
    | .ok archive => ∃ p : Program, Language.read text = .ok p.node ∧
        ((∀ f ∈ p.functions, f.params.length ≤ 2 ^ 64) → ∀ f ∈ p.functions, ∃ object instructions,
          (unit ++ "." ++ f.name, object) ∈ archive.symbols ∧ ObjectCode object instructions ∧
          List.Forall₂ (fun value a => ∃ n, value = some n ∧ Hits n a)
            (dereferenced (f.context unit (p.items.map (·.1))).constant? f.body.toList)
            (instructions.filterMap (·.operand.access?))) := by
  cases harchive : compile text unit options with
  | error e => trivial
  | ok archive =>
    obtain ⟨p, S, r, emission, hr, hobjects, -⟩ := compile_eq_ok harchive
    refine ⟨p, hr.read, fun hlength f hf => ?_⟩
    obtain ⟨code, hcode, instructions, hname, hinstructions, hhits⟩ :=
      r.function_accesses hlength emission hobjects.all hf
    obtain ⟨object, hobject, -, hsame⟩ := hobjects.exists_object hcode
    refine ⟨object, instructions, hname ▸ hobject, ⟨?_, ?_⟩, hhits⟩
    · exact congrArg MachineCode.bytes (hsame.trans hinstructions)
    · exact congrArg MachineCode.relocations (hsame.trans hinstructions)

/-- The negative ones of a byte are no addresses, but they are accessed. -/
example : Hits (-1) ⟨0xff, true⟩ ∧ ¬ IsAddress (-1) := by
  refine ⟨⟨by decide, by decide, ⟨by decide, by decide⟩, by decide⟩, by simp [IsAddress]⟩

end Lode
