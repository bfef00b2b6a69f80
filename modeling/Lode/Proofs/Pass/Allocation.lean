/-
# Allocated variables

The pass that gives variables their memory.  A variable of the unit becomes data with its initial bytes.  A
variable of a function becomes an assignment of its initial value, and zeros under its symbol go to the
table of the function, as they do for every parameter.  The scopes that declarations had opened are gone
afterwards: a scope is replaced by its declaration and its body.

The pass is a visitor whose state is a stack of tables, one for the function around (`visits`).  On top of
that stand three results, each with an induction of its own.

* A table holds what was allocated in it (`Allocated`), if the symbols of the variables differ: a second
  variable with the same symbol would overwrite the first.  That they differ is known from the binding of
  names.
* The statements of a body stay in their order, with an assignment in place of every declaration (`Leaves`).
  The induction is on the statements and not on the list that is left, since the body of a scope is a list
  behind which the outer list goes on.  The relation therefore speaks of the table before and after, and
  composes along lists (`Leaves.append`).
* A bound program stays bound, and all its variables have data now (`bound`).

The number of variables is followed along (`Allocated.size`, `AllocatedItem.count`).  It does not grow, and
since all symbols are still there afterwards, no symbol can have been added either.
-/
import Lode.Proofs.Pass.Typing
import Lode.Proofs.Program.Straight

namespace Lode.AllocateLocals

open Program
open Walk (Mirrors)

/-! ## 1. The visitor -/

/-- A walk over a program that allocates variables. -/
abbrev Allocates := Walk (List Locals)

/-- The tables of the walk. -/
def rawTables (tables : List Locals) : List Fields := tables.map Locals.raw

/-- A variable of zeros. -/
def zeros (symbol : String) (place : Section) (type : Ty) (span : Span) : Data :=
  ⟨symbol, place, List.replicate type.width 0, type, span⟩

/-- The symbol of a parameter or a declaration. -/
def knownSymbol (tag : Tag) (symbol : Option String) (span : Span) : Except Error String :=
  match symbol with
  | some symbol => .ok symbol
  | none => .error ((InternalProblem.missingAttribute tag "symbol").atSpan span)

/-- The variables of parameters. -/
def paramLocals : List Param → Locals → Except Error Locals
  | [], table => .ok table
  | p :: rest, table => do
    let symbol ← knownSymbol .param p.symbol p.span
    let type ← BindNames.knownType .param p.ty p.span
    paramLocals rest (Sorted.set symbol (zeros symbol .bss type p.span) table)

/-- The section of a declaration. -/
def knownPlace (d : Let) : Except Error Section :=
  match d.place with
  | some place => .ok place
  | none => .error (InternalProblem.noSection.atSpan d.span)

/-- The declaration of a variable of the unit becomes its data, that of a local an assignment. -/
def allocate (d : Let) : Allocates Stmt := do
  let symbol ← knownSymbol .letDecl d.symbol d.span
  let place ← knownPlace d
  let type ← BindNames.knownType .letDecl d.ty d.span
  match ← get with
  | [] =>
    match literalValue? d.value.node with
    | none => throw (ConstantProblem.dynamicInitializer.atSpan d.value.node.span)
    | some initial => return .data ⟨symbol, place, initialBytes initial type, type, d.span⟩
  | table :: outer =>
    set (Sorted.set symbol (zeros symbol place type d.span) table :: outer)
    let cellType ← ResolveStorage.knownType .letDecl d.type d.span
    return .set (.cell (.symbol symbol) (place == .zp) cellType d.span) d.value (some type) d.span

/-- The statements behind a scope come after those in it. -/
def joined (body rest : Stmts) : Stmts :=
  match rest with
  | .nil => body
  | .cons _ _ _ => Stmts.nil.prepend (body.toList ++ rest.toList)

/-- The declaration and the body of a scope stand in its place. -/
def splice : Stmt → Stmts → Span → Stmts
  | .scope decl body _ _, rest, _ => (joined body rest).prepend [decl]
  | s, rest, span => .cons s rest span

/-- A function with the table of its variables. -/
def leaveFunction (f : Function) : Allocates Program.Item := do
  let tables ← get
  set tables.tail
  return .function { f with params := [], locals := some (tables.headD []) }

/-- What the pass does to the parts of a program. -/
def visitor : Visitor (List Locals) where
  decl := allocate
  cell s rest span := pure (splice s rest span)
  enterFunction f := do
    let table ← paramLocals (f.params.map Prod.fst) []
    modify (table :: ·)
  exitFunction := leaveFunction

/-! ## 2. The pass is the visitor -/

theorem zeroSymbol_eq (symbol : String) (place : Section) (type : Ty) (n : Node) :
    zeroSymbol symbol place type n = .node (zeros symbol place type n.span).node := rfl

/-- The table that is built for parameters is that of their variables. -/
theorem paramTable_eq : ∀ (params : List Param) (table : Locals),
    paramTable (params.map Param.node) table.raw = Locals.raw <$> paramLocals params table
  | [], table => rfl
  | p :: rest, table => by
    have hsymbol : p.node.textOf "symbol" = knownSymbol .param p.symbol p.span := by
      obtain ⟨name, ty, symbol, span⟩ := p
      cases symbol <;> rfl
    have hspan : p.node.span = p.span := rfl
    simp only [List.map_cons, paramTable, paramLocals, hsymbol, BindNames.Param.declaredType, map_bind,
      zeroSymbol_eq, hspan]
    refine bind_congr fun symbol => bind_congr fun type => ?_
    rw [← paramTable_eq rest]
    exact congrArg _ (row_set (fun d : Data => .node d.node) symbol _ table).symm

/-- Reading the tables mirrors reading them, if what is done with them does from every stack. -/
theorem mirrors_get_bind {α : Type} {f : List Fields → LocalWalk α} {f' : List Locals → Allocates α}
    (h : ∀ s, Mirrors rawTables (f (rawTables s)) (f' s)) :
    Mirrors rawTables (get >>= f) (get >>= f') := by
  intro s
  rw [Walk.outcome_bind_of_ok (Walk.outcome_get (s := rawTables s)),
    Walk.outcome_bind_of_ok (Walk.outcome_get (s := s))]
  exact h s s

theorem mirrors_set {s : List Fields} {s' : List Locals} (h : s = rawTables s') :
    Mirrors rawTables (set s : LocalWalk PUnit) (set s' : Allocates PUnit) := by
  intro _
  rw [Walk.outcome_set, Walk.outcome_set, h]

/-- Leaving a declaration allocates its variable, in the unit if there is no table and else in the innermost
one. -/
theorem mirrors_exitLet (d : Let) :
    Mirrors rawTables (settle hooks.exit d.node) ((fun s => some s.node) <$> allocate d) := by
  change Mirrors rawTables (settle exitLet d.node) _
  have hsymbol : d.node.textOf "symbol" = knownSymbol .letDecl d.symbol d.span := by
    obtain ⟨name, storage, ty, value, symbol, place, type, span⟩ := d
    cases storage <;> cases symbol <;> cases place <;> cases type <;> rfl
  have hplace : declaredSection d.node = knownPlace d := by
    obtain ⟨name, storage, ty, value, symbol, place, type, span⟩ := d
    cases place with
    | none => cases storage <;> cases symbol <;> cases type <;> rfl
    | some place => cases place <;> cases storage <;> cases symbol <;> cases type <;> rfl
  have hvalue : d.node.child "value" = .ok d.value.node := by
    obtain ⟨name, storage, ty, value, symbol, place, type, span⟩ := d
    cases storage <;> cases symbol <;> cases place <;> cases type <;> rfl
  have hstorage : ∀ symbol zeroPage, symbolStorage symbol zeroPage d.node =
      (fun t => (Expr.cell (.symbol symbol) zeroPage t d.span).node) <$>
        ResolveStorage.knownType .letDecl d.type d.span := by
    intro symbol zeroPage
    obtain ⟨name, storage, ty, value, symbol, place, type, span⟩ := d
    cases storage <;> cases symbol <;> cases place <;> cases type <;> rfl
  simp only [settle, exitLet, allocate, hsymbol, hplace, hvalue, BindNames.Let.declaredType, map_bind,
    Walk.lift_ok, pure_bind]
  refine (Mirrors.lift _).bind fun symbol => (Mirrors.lift _).bind fun place =>
    (Mirrors.lift _).bind fun type => mirrors_get_bind fun tables => ?_
  cases tables with
  | nil => cases literalValue? d.value.node <;> exact fun _ => rfl
  | cons table outer =>
    simp only [rawTables, List.map_cons, map_bind]
    refine (mirrors_set (by
      simp only [rawTables, List.map_cons, zeroSymbol_eq]
      exact congrArg (· :: _) (row_set (fun d : Data => .node d.node) symbol _ table).symm)).bind
        fun _ => ?_
    rw [hstorage, Walk.lift_map]
    exact Mirrors.bind_map (Mirrors.map (Mirrors.lift _) _) fun t => .pure _

/-- The statements behind a scope are appended to those in it. An empty list has no node, hence the case of
its own. -/
theorem append_eq (body : Stmts) {rest : Stmts} {n : Node} (h : rest.node? = some n) :
    some (append body.node? n) = (joined body rest).node? := by
  have hfront : (body.node?.map Node.elements).getD [] = body.toList.map Stmt.node := by
    cases hbody : body.node? with
    | none =>
      cases body with
      | nil => rfl
      | cons _ _ _ => cases hbody
    | some m => exact Stmts.elements hbody
  have hsequence := Stmts.sequence_eq .nil (body.toList ++ rest.toList)
  rw [List.map_append] at hsequence
  rw [append, hfront, Stmts.elements h, show (none : Option Node) = Stmts.nil.node? from rfl, hsequence]
  cases rest with
  | nil => cases h
  | cons stmt more cell =>
    simp only [joined, Stmts.toList]
    cases body.toList <;> rfl

/-- Leaving a cell of a list puts the parts of a scope in its place. -/
theorem mirrors_exitStatements (s : Stmt) (rest : Stmts) (span : Span) :
    Mirrors rawTables (settle hooks.exit (Part.cell s rest span).node)
      (Stmts.node? <$> visitor.cell s rest span) := by
  have hstmt : (Part.cell s rest span).node.node? "stmt" = some s.node := by cases rest <;> rfl
  have hnext : (Part.cell s rest span).node.node? "next" = rest.node? := by cases rest <;> rfl
  change Mirrors rawTables (settle (fun n => pure (exitStatements n)) _) _
  cases s with
  | scope decl body frame place =>
    have hdecl : (Stmt.scope decl body frame place).node.node? "decl" = some decl.node := by
      simp [Node.node?, Node.get?, Stmt.node, Node.fields, Fields.get?_optional, Fields.get?,
        Value.node?]
    have hbody : (Stmt.scope decl body frame place).node.node? "body" = body.node? := by
      simp only [Node.node?, Node.get?, Stmt.node, Node.fields, Fields.get?_optional, Fields.get?]
      cases body.node? <;> simp [Value.node?]
    have htag : (Stmt.scope decl body frame place).node.tag = .scope := rfl
    have hrest : rest.node?.elim body.node? (fun next => some (append body.node? next)) =
        (joined body rest).node? := by
      cases hnode : rest.node? with
      | some n => exact append_eq body hnode
      | none =>
        cases rest with
        | nil => rfl
        | cons _ _ _ => cases hnode
    have hsequence := Stmts.sequence_eq (joined body rest) [decl]
    have hexit : exitStatements (Part.cell (.scope decl body frame place) rest span).node =
        .ofOption ((joined body rest).prepend [decl]).node? := by
      simp only [exitStatements, hstmt, hnext, htag, if_true, hdecl, hbody]
      rw [← hsequence, ← hrest]
      cases rest.node? <;> rfl
    simp only [settle, hexit, map_pure]
    exact .pure _
  | expr e =>
    cases e with
    | cell place _ _ _ => cases place <;> cases rest <;> exact .pure _
    | _ => cases rest <;> exact .pure _
  | _ => cases rest <;> exact .pure _

/-- Leaving a function takes its table from the stack and drops its parameters. -/
theorem mirrors_exitFunction (f : Function) :
    Mirrors rawTables (settle hooks.exit f.node) ((fun i => some i.node) <$> leaveFunction f) := by
  change Mirrors rawTables (settle exitFunction f.node) _
  have hset : ∀ table : Locals, (f.node.erase "params").set "locals" (.table table.raw) =
      ({ f with params := [], locals := some table } : Function).node := by
    intro table
    have herase : f.node.erase "params" = ({ f with params := [] } : Function).node :=
      congrArg (fun fields => Node.mk .function fields f.span) (f.put_params [])
    rw [herase]
    change Node.mk .function (Fields.assign _ "locals" (some (.table table.raw))) f.span = _
    rw [Fields.assign_optional_of_gt rfl, Fields.assign_optional_of_gt rfl, Fields.assign_optional_self
      (Fields.follows_cons rfl (Fields.follows_optional rfl (Fields.follows_optional rfl
        (Fields.follows_optional rfl (Fields.follows_optional rfl
          (Fields.follows_optional rfl Fields.follows_nil))))))]
    rfl
  simp only [settle, exitFunction, leaveFunction, map_bind]
  refine mirrors_get_bind fun tables => ?_
  have hhead : (rawTables tables).headD .nil = (tables.headD []).raw := by cases tables <;> rfl
  rw [hhead, hset]
  refine (mirrors_set (by cases tables <;> rfl)).bind fun _ => ?_
  exact .pure _

theorem rewrites : Rewrites rawTables hooks (pure : Expr → Allocates Expr) :=
  .of_keep fun ⟨tag, _, _⟩ htag => by cases tag <;> cases htag <;> exact ⟨rfl, rfl⟩

theorem visitsParts : VisitsParts rawTables hooks visitor where
  pass part hpart := by
    cases part with
    | type t => cases t <;> rfl
    | stmt s h =>
      cases s with
      | expr e => simp [Stmt.isPlain] at h
      | _ => rfl
    | function _ => cases hpart
    | _ => rfl
  enterScope _ _ _ _ := .pure _
  enterFunction f := by
    change Mirrors rawTables (settle enterFunction f.node) _
    have htable := paramTable_eq (f.params.map Prod.fst) []
    have helements : f.node.elementsOf "params" = (f.params.map Prod.fst).map Param.node := by
      rw [f.elementsOf_params, List.map_map]
      rfl
    simp only [settle, enterFunction, visitor, helements, map_bind]
    rw [show Fields.nil = Locals.raw [] from rfl, htable, Walk.lift_map]
    exact Mirrors.bind_map (Mirrors.map (Mirrors.lift _) _) fun table _ => rfl
  enterUnit _ := .pure _
  exit part := by
    cases part with
    | type t => cases t <;> exact .pure _
    | decl d => exact mirrors_exitLet d
    | stmt s h =>
      cases s with
      | decl d | expr e => simp [Stmt.isPlain] at h
      | _ => exact .pure _
    | cell s rest span => exact mirrors_exitStatements s rest span
    | function f => exact mirrors_exitFunction f
    | _ => exact .pure _

/-- **The pass is the visitor.** -/
theorem visits : Visits rawTables hooks visitor :=
  .ascending visitsParts rewrites (funext fun e => (Expr.mapUp_pure e).symm)

/-- The pass on the tree of a program is the visitor on the program, from an empty stack. -/
theorem runPass (unit : String) (p : Program) :
    Compiler.runPass unit p.node pass = Program.node <$> ((p.mapUp visitor).outcome []).1 := by
  have hrun : ∀ tree, pass.run unit tree = Pass.walk "allocate_locals" hooks (rawTables []) tree :=
    fun _ => rfl
  exact runPass_of_visits hrun visits p (size_of_enterUnit_pure rfl p)

/-! ## 3. Tables -/

/-- What a table holds once variables are allocated in it: these, if their symbols are different, and
what it held under other symbols. -/
structure Allocated (vars : List Variable) (table table' : Locals) : Prop where
  keeps : ∀ entry ∈ table, entry.1 ∉ vars.map Variable.symbol → entry ∈ table'
  holds : (vars.map Variable.symbol).Nodup →
    ∀ v ∈ vars, ∃ d, (v.symbol, d) ∈ table' ∧ d.toVariable = v
  filled : Locals.Filled (some table) → Locals.Filled (some table')
  size : table'.length ≤ table.length + vars.length

namespace Allocated

theorem refl (table : Locals) : Allocated [] table table :=
  ⟨fun _ h _ => h, by simp, id, Nat.le_refl _⟩

/-- Variables are allocated one after the other. -/
theorem append {vars vars' : List Variable} {table table' table'' : Locals}
    (h : Allocated vars table table') (h' : Allocated vars' table' table'') :
    Allocated (vars ++ vars') table table'' where
  keeps entry hentry hnew := by
    rw [List.map_append, List.mem_append, not_or] at hnew
    exact h'.keeps entry (h.keeps entry hentry hnew.1) hnew.2
  holds hnodup := by
    rw [List.map_append] at hnodup
    obtain ⟨hn, hn', hapart⟩ := List.nodup_append.mp hnodup
    refine List.forall_mem_append.mpr ⟨fun v hv => ?_, h'.holds hn'⟩
    obtain ⟨d, hd, hvar⟩ := h.holds hn v hv
    exact ⟨d, h'.keeps _ hd fun hmem => hapart _ (List.mem_map_of_mem hv) _ hmem rfl, hvar⟩
  filled := h'.filled ∘ h.filled
  size := by
    have hsize := h.size
    have hsize' := h'.size
    rw [List.length_append]
    omega

/-- A variable is allocated when its zeros are written under its symbol. -/
theorem zeros (v : Variable) (span : Span) (table : Locals) :
    Allocated [v] table (Sorted.set v.symbol (zeros v.symbol v.place v.type span) table) where
  keeps entry hentry hnew := Sorted.mem_set_of_ne (by simpa using hnew) hentry
  holds _ := by
    simp only [List.mem_singleton, forall_eq]
    exact ⟨_, Sorted.mem_set_self, rfl⟩
  filled h entry hentry := by
    rcases Sorted.mem_set hentry with rfl | hentry
    · intro hwidth
      simpa [AllocateLocals.zeros] using Nat.pos_iff_ne_zero.mp hwidth
    · exact h entry hentry
  size := Sorted.length_set_le _ _ table

end Allocated

theorem knownSymbol_ok {tag : Tag} {symbol : Option String} {span : Span} {name : String}
    (h : knownSymbol tag symbol span = .ok name) : symbol = some name := by
  cases symbol with
  | none => cases h
  | some _ => exact congrArg some (Except.ok.inj h)

/-- A section that is found is the one of the declaration. -/
theorem knownPlace_ok {d : Let} {place : Section} (h : knownPlace d = .ok place) :
    d.place = some place := by
  unfold knownPlace at h
  split at h
  · rename_i hplace
    rw [hplace, Except.ok.inj h]
  · cases h

/-- **Parameters** are held by the table. -/
theorem paramLocals_ok : ∀ {params : List Param} {table table' : Locals},
    paramLocals params table = .ok table' →
      Allocated (params.filterMap Param.toVariable?) table table' ∧
      (params.filterMap Param.toVariable?).map Variable.symbol = params.filterMap Param.symbol
  | [], table, table', h => by
    obtain rfl := Except.ok.inj h
    exact ⟨.refl _, rfl⟩
  | p :: rest, table, table', h => by
    obtain ⟨symbol, hsymbol, h⟩ := bind_eq_ok.mp h
    obtain ⟨type, htype, h⟩ := bind_eq_ok.mp h
    obtain ⟨hrest, hsymbols⟩ := paramLocals_ok h
    have hsymbol := knownSymbol_ok hsymbol
    have hvar : p.toVariable? = some ⟨symbol, .bss, type⟩ := by
      simp [Param.toVariable?, hsymbol, BindNames.knownType_ok htype]
    rw [List.filterMap_cons_some hvar, List.filterMap_cons_some hsymbol, List.map_cons, hsymbols]
    exact ⟨(Allocated.zeros ⟨symbol, .bss, type⟩ p.span table).append hrest, rfl⟩

/-! ## 4. Statements -/

/-- An assignment in place of a declaration. -/
inductive Assigned : Stmt → Stmt → Prop
  | decl {d : Let} {v : Variable} {type : Ty} : d.toVariable? = some v → d.type = some type →
      Assigned (.decl d) (.set (.cell (.symbol v.symbol) (v.place == .zp) type d.span) d.value
        (some v.type) d.span)
  | other {s : Stmt} : s.isStraight = true → Assigned s s

/-- The statements that a statement leaves in a list. -/
def spliced : Stmt → List Stmt
  | .scope decl body _ _ => decl :: body.toList
  | s => [s]

@[simp] theorem toList_joined (body rest : Stmts) :
    (joined body rest).toList = body.toList ++ rest.toList := by
  cases rest with
  | nil => simp [joined, Stmts.toList]
  | cons _ _ _ => simp [joined, Stmts.toList]

/-- A scope is replaced by its declaration and its body, and any other statement stays. -/
@[simp] theorem toList_splice (s : Stmt) (rest : Stmts) (span : Span) :
    (splice s rest span).toList = spliced s ++ rest.toList := by
  cases s with
  | scope decl body frame place => simp [splice, spliced]
  | _ => rfl

/-- What allocation leaves of statements: the table has their variables, and an assignment stands in
place of every declaration. -/
structure Leaves (stmts : List Stmt) (lets : List Let) (table : Locals) (outer : List Locals)
    (stmts' : List Stmt) (tables : List Locals) : Prop where
  stmts : List.Forall₂ Assigned stmts stmts'
  table : ∃ table', tables = table' :: outer ∧ Allocated (lets.filterMap Let.toVariable?) table table'
  symbols : (lets.filterMap Let.toVariable?).map Variable.symbol = lets.filterMap Let.symbol

/-- **What is left composes along lists**: the table that the first statements leave is the one from which
the others go on. -/
theorem Leaves.append {stmts more stmts' more' : List Stmt} {lets lets' : List Let} {table : Locals}
    {outer tables tables' : List Locals} (h : Leaves stmts lets table outer stmts' tables)
    (h' : ∀ table', tables = table' :: outer → Leaves more lets' table' outer more' tables') :
    Leaves (stmts ++ more) (lets ++ lets') table outer (stmts' ++ more') tables' := by
  obtain ⟨table', htable, hallocated⟩ := h.table
  obtain ⟨hmore, ⟨table'', htable', hallocated'⟩, hsymbols⟩ := h' table' htable
  refine ⟨List.rel_append h.stmts hmore, ⟨table'', htable', ?_⟩, ?_⟩
  · rw [List.filterMap_append]
    exact hallocated.append hallocated'
  · rw [List.filterMap_append, List.filterMap_append, List.map_append, h.symbols, hsymbols]

theorem Leaves.other {s : Stmt} (hs : s.isStraight = true) (table : Locals) (outer : List Locals) :
    Leaves [s] [] table outer [s] (table :: outer) :=
  ⟨.cons (.other hs) .nil, ⟨table, rfl, .refl table⟩, rfl⟩

/-- A declaration leaves one assignment, and its variable in the innermost table. -/
theorem mapUp_let {d : Let} {s : Stmt} {table : Locals} {outer tables : List Locals}
    (h : ((Stmt.decl d).mapUp visitor).outcome (table :: outer) = (.ok s, tables)) :
    Leaves [.decl d] [d] table outer [s] tables := by
  rw [Stmt.mapUp, Let.mapUp_pure rfl rfl] at h
  obtain ⟨symbol, hsymbol, h⟩ := Walk.outcome_lift_bind_eq_ok.mp h
  obtain ⟨place, hplace, h⟩ := Walk.outcome_lift_bind_eq_ok.mp h
  obtain ⟨type, htype, h⟩ := Walk.outcome_lift_bind_eq_ok.mp h
  rw [Walk.outcome_bind_of_ok Walk.outcome_get] at h
  obtain ⟨⟨⟩, tables', hset, h⟩ := Walk.outcome_bind_eq_ok.mp h
  obtain ⟨-, rfl⟩ := Prod.mk.inj hset
  obtain ⟨cellType, hcell, h⟩ := Walk.outcome_lift_bind_eq_ok.mp h
  obtain ⟨rfl, rfl⟩ := Walk.outcome_pure_eq_ok.mp h
  have hsymbol := knownSymbol_ok hsymbol
  have hvar : d.toVariable? = some ⟨symbol, place, type⟩ := by
    simp [Let.toVariable?, hsymbol, knownPlace_ok hplace, BindNames.knownType_ok htype]
  have hcell : d.type = some cellType := by
    unfold ResolveStorage.knownType at hcell
    split at hcell
    · rename_i h
      rw [h, Except.ok.inj hcell]
    · cases hcell
  refine ⟨.cons (.decl hvar hcell) .nil, ⟨_, rfl, ?_⟩, by simp [hvar, hsymbol]⟩
  simpa [hvar] using Allocated.zeros ⟨symbol, place, type⟩ d.span table

mutual

/-- A statement leaves what stands for it and for all that is nested in it. The induction is on the
statement: only scopes hold others. -/
theorem mapUp_stmt : ∀ {s s' : Stmt} {table : Locals} {outer tables : List Locals},
    s.isSource = true → (s.mapUp visitor).outcome (table :: outer) = (.ok s', tables) →
      Leaves s.leaves s.lets table outer (spliced s') tables
  | .decl d, s', table, outer, tables, _, h => by
    have hleaves := mapUp_let h
    obtain ⟨hassigned, -⟩ := List.forall₂_cons.mp hleaves.stmts
    have hone : spliced s' = [s'] := by cases hassigned <;> rfl
    rw [hone]
    exact hleaves
  | .set lvalue rvalue type span, s', table, outer, tables, _, h => by
    obtain ⟨rfl, rfl⟩ := Walk.outcome_pure_eq_ok.mp h
    exact .other rfl table outer
  | .ret none type span, s', table, outer, tables, _, h => by
    obtain ⟨rfl, rfl⟩ := Walk.outcome_pure_eq_ok.mp h
    exact .other rfl table outer
  | .ret (some value) type span, s', table, outer, tables, _, h => by
    obtain ⟨rfl, rfl⟩ := Walk.outcome_pure_eq_ok.mp h
    exact .other rfl table outer
  | .expr e, s', table, outer, tables, _, h => by
    obtain ⟨rfl, rfl⟩ := Walk.outcome_pure_eq_ok.mp h
    exact .other rfl table outer
  | .scope decl body frame span, s', table, outer, tables, hsource, h => by
    obtain ⟨hdecl, hbody⟩ := Bool.and_eq_true_iff.mp hsource
    obtain ⟨⟨⟩, tables1, henter, h⟩ := Walk.outcome_bind_eq_ok.mp h
    obtain ⟨-, rfl⟩ := Walk.outcome_pure_eq_ok.mp henter
    obtain ⟨decl', tables2, hd, h⟩ := Walk.outcome_bind_eq_ok.mp h
    obtain ⟨body', tables3, hb, h⟩ := Walk.outcome_bind_eq_ok.mp h
    obtain ⟨rfl, rfl⟩ := Walk.outcome_pure_eq_ok.mp h
    cases decl with
    | decl d =>
      refine (mapUp_let hd).append fun table' htables => ?_
      subst htables
      exact mapUp_stmts hbody hb
    | _ => cases hdecl
  | .data _, _, _, _, _, hsource, _ | .load _ _ _, _, _, _, _, hsource, _
  | .store _ _ _, _, _, _, _, hsource, _ | .arith _ _ _ _, _, _, _, _, hsource, _
  | .jump _ _, _, _, _, _, hsource, _ | .rts _, _, _, _, _, hsource, _
  | .code _ _, _, _, _, _, hsource, _ => by simp [Stmt.isSource] at hsource

/-- A list leaves what stands for its statements, cell by cell. -/
theorem mapUp_stmts : ∀ {stmts stmts' : Stmts} {table : Locals} {outer tables : List Locals},
    stmts.isSource = true → (stmts.mapUp visitor).outcome (table :: outer) = (.ok stmts', tables) →
      Leaves stmts.leaves stmts.lets table outer stmts'.toList tables
  | .nil, stmts', table, outer, tables, _, h => by
    obtain ⟨rfl, rfl⟩ := Walk.outcome_pure_eq_ok.mp h
    exact ⟨.nil, ⟨table, rfl, .refl table⟩, rfl⟩
  | .cons stmt rest span, stmts', table, outer, tables, hsource, h => by
    obtain ⟨hs, hr⟩ := Bool.and_eq_true_iff.mp hsource
    obtain ⟨stmt', tables1, hstmt, h⟩ := Walk.outcome_bind_eq_ok.mp h
    obtain ⟨rest', tables2, hrest, h⟩ := Walk.outcome_bind_eq_ok.mp h
    obtain ⟨rfl, rfl⟩ := Walk.outcome_pure_eq_ok.mp h
    rw [toList_splice]
    refine (mapUp_stmt hs hstmt).append fun table' htables => ?_
    subst htables
    exact mapUp_stmts hr hrest

end

/-- What stands in place of a statement is linked if the statement is and its variable is a known one. -/
theorem Assigned.keeps {S : Symbols} {s s' : Stmt} (h : Assigned s s') (hs : s.Linked S)
    (hdeclared : ∀ d, s = .decl d → ∃ v ∈ S.vars, d.toVariable? = some v) :
    s'.isStraight = true ∧ s'.Linked S := by
  cases h with
  | other hstraight => exact ⟨hstraight, hs⟩
  | @decl d v type hvar htype =>
    obtain ⟨v', hmem, hvar'⟩ := hdeclared d rfl
    obtain rfl := Option.some.inj (hvar.symm.trans hvar')
    have hty : v.type = type := by
      have hwritten := hs.2 htype
      simp only [Let.toVariable?, hwritten] at hvar
      obtain ⟨_, _, hvar⟩ := Option.bind_eq_some_iff.mp hvar
      obtain ⟨_, _, hvar⟩ := Option.bind_eq_some_iff.mp hvar
      exact (Option.some.inj hvar) ▸ rfl
    refine ⟨rfl, ⟨v.place, v.type, hmem, ?_, fun _ => hty⟩, hs.1⟩
    cases v.place <;> decide

/-! ## 5. Items -/

/-- What allocation leaves of an item. -/
inductive AllocatedItem : Program.Item → Program.Item → Prop
  | global {d : Let} {data : Data} {value : Int} {type : Option Ty} {span : Span} :
      d.toVariable? = some data.toVariable → d.value = .number value type span →
      data.bytes = initialBytes value data.type → AllocatedItem (.global (.decl d)) (.global (.data data))
  | function {f : Function} {body : Stmts} {table : Locals} :
      List.Forall₂ Assigned f.body.leaves body.toList →
      Allocated ((f.params.map Prod.fst).filterMap Param.toVariable? ++ f.body.lets.filterMap Let.toVariable?)
        [] table →
      ((f.params.map Prod.fst).filterMap Param.toVariable? ++
        f.body.lets.filterMap Let.toVariable?).map Variable.symbol = f.locallyDeclared →
      AllocatedItem (.function f)
        (.function { f with params := [], body := body, locals := some table })
  | use {name : String} {span : Span} : AllocatedItem (.use name span) (.use name span)
  | constant {name : String} {ty : TypeExpr} {value : Expr} {symbol : Option String} {span : Span} :
      AllocatedItem (.constant name ty value symbol span) (.constant name ty value symbol span)

/-- **A function** is left with a table of its parameters and variables, and with assignments in place of
declarations. -/
theorem mapUp_function {f : Function} {i : Program.Item} {tables : List Locals}
    (hsource : f.body.isSource = true) (h : (f.mapUp visitor).outcome [] = (.ok i, tables)) :
    tables = [] ∧ AllocatedItem (.function f) i := by
  obtain ⟨⟨⟩, tables1, henter, h⟩ := Walk.outcome_bind_eq_ok.mp h
  obtain ⟨table, htable, hmodify⟩ := Walk.outcome_lift_bind_eq_ok.mp henter
  obtain ⟨-, rfl⟩ := Prod.mk.inj hmodify
  rw [Params.mapUp_pure rfl, pure_bind, visitResult_pure rfl, pure_bind] at h
  obtain ⟨body, tables2, hbody, h⟩ := Walk.outcome_bind_eq_ok.mp h
  obtain ⟨hparams, hsymbols⟩ := paramLocals_ok htable
  obtain ⟨hstmts, ⟨table', rfl, hallocated⟩, hsymbols'⟩ := mapUp_stmts hsource hbody
  obtain ⟨hi, rfl⟩ := Prod.mk.inj h
  obtain rfl := Except.ok.inj hi
  refine ⟨rfl, .function hstmts (hparams.append hallocated) ?_⟩
  rw [List.map_append, hsymbols, hsymbols', Function.locallyDeclared]

theorem initialBytes_ne_nil {value : Int} {type : Ty} (h : 0 < type.width) :
    initialBytes value type ≠ [] := by
  obtain ⟨count, hcount⟩ := Nat.exists_eq_succ_of_ne_zero (show min type.width 8 ≠ 0 by omega)
  rw [initialBytes, hcount]
  exact List.cons_ne_nil _ _

/-- An initial value that is known is that of a number. -/
theorem literalValue?_eq_some {e : Expr} {value : Int} (h : literalValue? e.node = some value) :
    ∃ type span, e = .number value type span := by
  cases e with
  | number v type span =>
    have hliteral : literalValue? (Expr.number v type span).node = some v := Expr.int?_number v type span
    obtain rfl := Option.some.inj (hliteral.symm.trans h)
    exact ⟨type, span, rfl⟩
  | cell place _ _ _ => cases place <;> cases h
  | _ => cases h

/-- **A variable of the unit** is left as data with the bytes of its number. -/
theorem mapUp_global {d : Let} {s : Stmt} {tables : List Locals}
    (h : ((Stmt.decl d).mapUp visitor).outcome [] = (.ok s, tables)) :
    tables = [] ∧ AllocatedItem (.global (.decl d)) (.global s) := by
  rw [Stmt.mapUp, Let.mapUp_pure rfl rfl] at h
  obtain ⟨symbol, hsymbol, h⟩ := Walk.outcome_lift_bind_eq_ok.mp h
  obtain ⟨place, hplace, h⟩ := Walk.outcome_lift_bind_eq_ok.mp h
  obtain ⟨type, htype, h⟩ := Walk.outcome_lift_bind_eq_ok.mp h
  rw [Walk.outcome_bind_of_ok Walk.outcome_get] at h
  simp only at h
  split at h
  · cases (Prod.mk.inj h).1
  · rename_i hliteral
    obtain ⟨rfl, rfl⟩ := Walk.outcome_pure_eq_ok.mp h
    obtain ⟨_, _, hvalue⟩ := literalValue?_eq_some hliteral
    refine ⟨rfl, .global ?_ hvalue rfl⟩
    simp [Let.toVariable?, Data.toVariable, knownSymbol_ok hsymbol, knownPlace_ok hplace,
      BindNames.knownType_ok htype]

/-- An item is left as one item, and no table stays behind. -/
theorem mapUp_item {i : Program.Item} {left : Option Program.Item} {tables : List Locals}
    (hsource : i.isSource = true) (h : (i.mapUp visitor).outcome [] = (.ok left, tables)) :
    tables = [] ∧ ∃ i', left = some i' ∧ AllocatedItem i i' := by
  cases i with
  | use name span =>
    obtain ⟨rfl, rfl⟩ := Walk.outcome_pure_eq_ok.mp h
    exact ⟨rfl, _, rfl, .use⟩
  | constant name ty value symbol span =>
    rw [Item.mapUp, show visitor.type = pure from rfl, TypeExpr.mapUp_pure, pure_bind] at h
    obtain ⟨rfl, rfl⟩ := Walk.outcome_pure_eq_ok.mp h
    exact ⟨rfl, _, rfl, .constant⟩
  | global s =>
    cases s with
    | decl d =>
      rw [Item.mapUp, Walk.outcome_map, Prod.mk.injEq] at h
      obtain ⟨s', hs', rfl⟩ := map_eq_ok.mp h.1
      obtain ⟨htables, hitem⟩ := mapUp_global (Prod.ext hs' h.2)
      exact ⟨htables, _, rfl, hitem⟩
    | _ => simp [Item.isSource] at hsource
  | function f =>
    rw [Item.mapUp, Walk.outcome_map, Prod.mk.injEq] at h
    obtain ⟨i', hi', rfl⟩ := map_eq_ok.mp h.1
    obtain ⟨htables, hitem⟩ := mapUp_function (Bool.and_eq_true_iff.mp hsource).1 (Prod.ext hi' h.2)
    exact ⟨htables, _, rfl, hitem⟩
  | compiled _ _ _ _ _ => simp [Item.isSource] at hsource

/-- The items of a unit, one by one. -/
theorem mapUp_items : ∀ {items items' : Items} {tables : List Locals},
    (∀ entry ∈ items, entry.1.isSource = true) →
    (Items.mapUp visitor items).outcome [] = (.ok items', tables) → tables = [] ∧
      List.Forall₂ (fun entry entry' => AllocatedItem entry.1 entry'.1) items items'
  | [], items', tables, _, h => by
    obtain ⟨rfl, rfl⟩ := Walk.outcome_pure_eq_ok.mp h
    exact ⟨rfl, .nil⟩
  | entry :: rest, items', tables, hsource, h => by
    obtain ⟨hs, hsrest⟩ := List.forall_mem_cons.mp hsource
    obtain ⟨left, tables1, hitem, h⟩ := Walk.outcome_bind_eq_ok.mp h
    obtain ⟨rfl, i', rfl, hallocated⟩ := mapUp_item hs hitem
    obtain ⟨rest', tables2, hrest, h⟩ := Walk.outcome_bind_eq_ok.mp h
    obtain ⟨rfl, hmore⟩ := mapUp_items hsrest hrest
    obtain ⟨rfl, rfl⟩ := Walk.outcome_pure_eq_ok.mp h
    exact ⟨rfl, .cons hallocated hmore⟩

/-- An allocated item is straight and linked if the item was linked and declared. -/
theorem AllocatedItem.keeps {S : Symbols} {i i' : Program.Item} (h : AllocatedItem i i')
    (hl : i.Linked S) (hd : i.Declared S) : i'.Straight ∧ i'.Linked S := by
  cases h with
  | global _ _ hbytes => exact ⟨trivial, fun hwidth => hbytes ▸ initialBytes_ne_nil hwidth⟩
  | @function f body table hstmts htable _ =>
    have hbody : ∀ s ∈ body.toList, s.isStraight = true ∧ s.Linked S := by
      intro s' hs'
      obtain ⟨s, hs, hassigned⟩ := exists_of_mem_right hstmts hs'
      refine hassigned.keeps (Stmts.linked_leaves hl.1 s hs) fun d hdecl => ?_
      subst hdecl
      exact hd.2 d (Stmts.mem_lets_of_leaf hs)
    refine ⟨⟨fun s hs => (hbody s hs).1, rfl⟩, Stmts.linked_iff.mpr fun s hs => (hbody s hs).2, ?_⟩
    exact htable.filled (by simp [Locals.Filled])
  | use => exact ⟨trivial, trivial⟩
  | constant => exact ⟨trivial, hl⟩

theorem AllocatedItem.functions {i i' : Program.Item} (h : AllocatedItem i i') :
    i'.functions = i.functions := by
  cases h <;> rfl

/-- All variables that an item declares are held by what is left of it. -/
theorem AllocatedItem.vars {S : Symbols} {i i' : Program.Item} (h : AllocatedItem i i')
    (hsource : i.isSource = true) (hd : i.Declared S) : i.vars ⊆ i'.vars := by
  cases h with
  | global hvar _ _ => simp [Item.vars, hvar]
  | @function f body table _ htable hsymbols =>
    intro v hv
    have hnone : f.locals = none := by simpa using (Bool.and_eq_true_iff.mp hsource).2
    rw [Item.vars, Function.vars, hnone, Locals.vars, Option.getD_none, List.map_nil,
      List.append_nil] at hv
    obtain ⟨data, hdata, hvar⟩ := htable.holds (hsymbols ▸ hd.1) v hv
    exact List.mem_append_right _ (List.mem_map.mpr ⟨_, hdata, hvar⟩)
  | use => exact List.Subset.refl _
  | constant => exact List.Subset.refl _

theorem Assigned.isStraight {s s' : Stmt} (h : Assigned s s') : s'.isStraight = true := by
  cases h with
  | decl _ _ => rfl
  | other hs => exact hs

/-- An item does not declare more than before. -/
theorem AllocatedItem.count {i i' : Program.Item} (h : AllocatedItem i i') : i'.count ≤ i.count := by
  cases h with
  | @function f body table hstmts htable _ =>
    have hstraight : body.Straight := fun s' hs' => by
      obtain ⟨s, -, hassigned⟩ := exists_of_mem_right hstmts hs'
      exact hassigned.isStraight
    have hsize := htable.size
    have hparams := List.length_filterMap_le Param.toVariable? (f.params.map Prod.fst)
    have hlets := List.length_filterMap_le Let.toVariable? f.body.lets
    rw [List.length_append, List.length_nil] at hsize
    rw [List.length_map] at hparams
    simp only [Item.count, Stmts.lets_of_straight hstraight, List.length_nil, Option.getD_some]
    omega
  | _ => exact Nat.le_refl _

/-- The items of a unit are allocated one by one. -/
theorem allocated {p p' : Program} (hsource : p.IsSource)
    (hrun : ((p.mapUp visitor).outcome []).1 = .ok p') :
    List.Forall₂ (fun entry entry' => AllocatedItem entry.1 entry'.1) p.items p'.items := by
  have hrun : (p.mapUp visitor).outcome [] = (.ok p', _) := Prod.ext hrun rfl
  rw [Program.mapUp, show visitor.enterUnit = pure from rfl, pure_bind] at hrun
  obtain ⟨items, tables, hitems, hexit⟩ := Walk.outcome_bind_eq_ok.mp hrun
  obtain ⟨rfl, -⟩ := Walk.outcome_pure_eq_ok.mp hexit
  exact (mapUp_items hsource hitems).2

/-- **Allocated programs.**  A bound program stays bound, and all its variables have data. -/
theorem bound {p p' : Program} {S : Symbols} (hsource : p.IsSource) (h : p.Bound S)
    (hrun : ((p.mapUp visitor).outcome []).1 = .ok p') : p'.IsStraight ∧ p'.Bound S := by
  have hallocated := allocated hsource hrun
  have hafter : ∀ entry ∈ p'.items, entry.1.Straight ∧ entry.1.Linked S := fun entry' hentry' => by
    obtain ⟨entry, hentry, hitem⟩ := exists_of_mem_right hallocated hentry'
    exact hitem.keeps (h.linked entry hentry) (h.declared entry hentry)
  obtain ⟨hfunctions, hvars⟩ := Items.symbols_subset (((List.forall₂_and_left _ _).mpr
    ⟨fun entry hentry => And.intro (hsource entry hentry) (h.declared entry hentry), hallocated⟩).imp
      fun _ _ hitem => And.intro (hitem.2.functions ▸ List.Subset.refl _) (hitem.2.vars hitem.1.1 hitem.1.2))
  exact ⟨fun entry hentry => (hafter entry hentry).1,
    { linked := fun entry hentry => (hafter entry hentry).2
      functions := List.Subset.trans h.functions hfunctions
      vars := List.Subset.trans h.vars hvars
      declared := fun entry hentry => (hafter entry hentry).1.declared
      count := Nat.le_trans (Items.count_le (hallocated.imp fun _ _ hitem => hitem.count)) h.count }⟩

end Lode.AllocateLocals
