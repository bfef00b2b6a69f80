/-
# Binding names

The pass that binds names, as a visitor of programs.  The pass itself works on trees of nodes: it looks up
attributes by name, builds a table for every binding and keeps a stack of tables.  The visitor of this
module (`visitor`) does the same to a program, whose parts have types, and with frames that hold bindings
instead of tables.

The result is that one is the other (`visits`): run over the tree of a program, the hooks of the pass leave
the tree of what the visitor leaves of the program, the frames that they leave are the tables of its frames,
and where one fails the other fails with the same error.  No result on names looks at a tree after this.

The proof follows the code.  Every helper of the pass has a counterpart here, and a lemma that the helper
mirrors it (`Mirrors`): both are run from a state and from its tables, and are compared in their answers and
their errors.  The lemmas are put together as the code is, from taking a symbol and declaring a name, over
the binding of a function, a variable and a constant, to the hooks that enter a unit and a function and
leave a declaration.  Two things want an argument of their own.  A binding with parameters is built in two
steps in the code and in one here (`declaration_node_set`), and the symbols of all parameters are made
before the function itself is declared (`nameParams_eq`), so that a duplicate name is met in the same order.

What the visitor gives to programs is the subject of `Binding` and of `Naming`.
-/
import Lode.Proofs.Program.Scoped
import Lode.Proofs.Program.Sequence
import Lode.Proofs.Program.Symbols

namespace Lode.BindNames

open Program
open Walk (Mirrors)

/-! ## 1. The visitor -/

/-- A walk over a program that binds names. -/
abbrev Binds := Walk (Nested Binder)

/-- Marks a symbol as used. -/
def markUsed (symbol : String) : Binds Unit :=
  modify fun s => { s with own := { s.own with symbols := symbol :: s.own.symbols } }

/-- Takes a symbol that is not in use. -/
def takeFresh (base : String) : Binds String := do
  let symbol := freshSymbol (← get).own.symbols base
  markUsed symbol
  return symbol

/-- The symbol of a declaration of the unit. -/
def takeUnitFresh (name : String) : Binds String := do
  takeFresh ((← get).own.unit ++ "." ++ name)

/-- Binds a name in the innermost frame. -/
def bindName (name : String) (b : Binding) (span : Span) : Binds Unit := do
  let state ← get
  match state.frames.bind? name (.binding b) with
  | some frames => set { state with frames := frames }
  | none => throw ⟨.duplicateDefinition name, some span⟩

/-- The type that was read in a declaration. -/
def knownType (tag : Tag) (ty : TypeExpr) (span : Span) : Except Error Ty :=
  match ty.type? with
  | some type => .ok type
  | none => .error ((InternalProblem.noDeclaredType tag).atSpan span)

/-- Parameters with their symbols, and their types. -/
def nameAll (symbol : String) : List Param → Except Error (List (Param × Ty))
  | [] => .ok []
  | p :: params => do
    let type ← knownType .param p.ty p.span
    let rest ← nameAll symbol params
    return ({ p with symbol := some (symbol ++ "." ++ p.name) }, type) :: rest

/-- The symbols of named parameters. -/
def symbolsOf (params : List (Param × Ty)) : List String :=
  params.map fun entry => entry.1.symbol.getD ""

/-- The binding of a function with named parameters. -/
def functionBinding (f : Function) (symbol : String) (params : List (Param × Ty)) : Binding :=
  ⟨⟨f.name, symbol, .function,
      .function ((f.result.bind TypeExpr.type?).getD .void) (params.map (·.2)), false, some .text⟩,
    some (symbolsOf params), f.span⟩

/-- Binds a function. -/
def bindFunctionName (f : Function) : Binds Function := do
  let symbol ← takeUnitFresh f.name
  let params ← nameAll symbol (f.params.map Prod.fst)
  bindName f.name (functionBinding f symbol params) f.span
  return { f with symbol := some symbol, params := Params.ofList (params.map (·.1)) }

/-- The section of a declaration: `stash` asks for the zero page. -/
def placeOf (storage : Option String) (default : Section) : Section :=
  if storage == some "stash" then .zp else default

/-- Binds a variable under a symbol. -/
def bindLet (d : Let) (symbol : String) (kind : BindingKind) (place : Section) : Binds Let := do
  let type ← knownType .letDecl d.ty d.span
  bindName d.name ⟨⟨d.name, symbol, kind, type, d.storage.isSome, some place⟩, none, d.span⟩ d.span
  return { d with symbol := some symbol, place := some place }

/-- Binds an item of the unit. -/
def bindItemName : Program.Item → Binds Program.Item
  | .function f => .function <$> bindFunctionName f
  | .constant name ty value _ span => do
    let symbol ← takeUnitFresh name
    let type ← knownType .constant ty span
    bindName name ⟨⟨name, symbol, .constant, type, false, none⟩, none, span⟩ span
    return .constant name ty value (some symbol) span
  | .global (.decl d) => do
    let symbol ← takeUnitFresh d.name
    let d ← bindLet d symbol .global (placeOf d.storage .data)
    return .global (.decl d)
  | i => pure i

/-- Binds the items of a unit. -/
def bindItems : List Program.Item → Binds (List Program.Item)
  | [] => pure []
  | i :: rest => do
    let i ← bindItemName i
    let rest ← bindItems rest
    return i :: rest

/-- Binds a parameter. -/
def bindParamName (p : Param) : Binds Unit := do
  match p.symbol with
  | none => throw ((InternalProblem.missingAttribute .param "symbol").atSpan p.span)
  | some symbol =>
    let type ← knownType .param p.ty p.span
    bindName p.name ⟨⟨p.name, symbol, .param, type, true, some .bss⟩, none, p.span⟩ p.span
    markUsed symbol

/-- Binds parameters. -/
def bindParams : List Param → Binds Unit
  | [] => pure ()
  | p :: rest => do
    bindParamName p
    bindParams rest

/-- An identifier with the binding of its name. -/
def bindExpr (s : Nested Binder) : Expr → Except Error Expr
  | .ident name binding type span =>
    .ok (.ident name (((s.frames.lookup? name).bind Named.binding?).or binding) type span)
  | e => .ok e

/-- Binds a local. -/
def bindLocal (d : Let) : Binds Let := do
  match (← get).own.functions with
  | [] => return d
  | function :: _ =>
    let symbol ← takeFresh (function ++ "." ++ d.name)
    bindLet d symbol .localVar (placeOf d.storage .bss)

/-- Leaves a function. -/
def leaveFunction (f : Function) : Binds Function := do
  modify fun s => { s with own := { s.own with functions := s.own.functions.tail } }
  return f

/-- What the pass does to the parts of a program, frames apart. -/
def inner : Visitor (Nested Binder) where
  expr := Expr.mapUp fun e => Walk.reading (bindExpr · e)
  decl d := .decl <$> bindLocal d
  enterFunction f := do
    match f.symbol with
    | none => throw InternalProblem.unboundFunction.error
    | some symbol =>
      bindParams (f.params.map Prod.fst)
      modify fun s => { s with own := { s.own with functions := symbol :: s.own.functions } }
  exitFunction f := .function <$> leaveFunction f
  enterUnit p := do
    if p.items.isEmpty then return p
    let items ← bindItems (p.items.map (·.1))
    return if items.isEmpty then p else { p with items := Items.ofList items }

/-- What the pass does to the parts of a program. -/
def visitor : Visitor (Nested Binder) := inner.scoped leaveFunction

/-! ## 2. The pass is the visitor -/

/-- Reading the state mirrors reading it, if what is done with it does from every state. -/
theorem mirrors_get_bind {α : Type} {f : Scoped Binder → BindWalk α} {f' : Nested Binder → Binds α}
    (h : ∀ s, Mirrors Nested.raw (f s.raw) (f' s)) :
    Mirrors Nested.raw (get >>= f) (get >>= f') := by
  intro s
  rw [Walk.outcome_bind_of_ok (Walk.outcome_get (s := s.raw)),
    Walk.outcome_bind_of_ok (Walk.outcome_get (s := s))]
  exact h s s

theorem mirrors_useSymbol (symbol : String) :
    Mirrors Nested.raw (useSymbol symbol) (markUsed symbol) := fun _ => rfl

/-- A fresh symbol is searched among the same symbols, so it is the same. -/
theorem mirrors_takeSymbol (base : String) :
    Mirrors Nested.raw (takeSymbol base) (takeFresh base) :=
  mirrors_get_bind fun _ => (mirrors_useSymbol _).bind fun _ => .pure _

/-- The symbol of a declaration of the unit starts with the name of the unit on both sides. -/
theorem mirrors_takeUnitSymbol (name : String) :
    Mirrors Nested.raw (takeUnitSymbol name) (takeUnitFresh name) :=
  mirrors_get_bind fun _ => mirrors_takeSymbol _

/-- **Declaring a name** writes the table of its binding to the innermost frame; a name that is declared
there already is refused with the same error at the same place. -/
theorem mirrors_declare (name : String) (b : Binding) (n : Node) :
    Mirrors Nested.raw (declare name b.node n) (bindName name b n.span) := by
  refine mirrors_get_bind fun s => ?_
  have hbind := Frames.bind?_raw s.frames name (.binding b)
  change s.raw.scopes.bind? name (.node b.node) = _ at hbind
  rw [hbind]
  cases s.frames.bind? name (.binding b) with
  | none => exact fun _ => rfl
  | some frames => exact fun _ => rfl

/-- The table of a declaration is that of its binding, without parameters. -/
theorem declaration_node (d : Declaration) (n : Node) :
    d.node n = Binding.node ⟨d, none, n.span⟩ := by
  obtain ⟨name, symbol, kind, type, mutable, storage⟩ := d
  cases storage <;> rfl

/-- The table of a function is that of its declaration with the parameters added, as the code builds it. -/
theorem declaration_node_set (d : Declaration) (n : Node) (symbols : List String) :
    (d.node n).set "params" (.table (paramFields symbols)) =
      Binding.node ⟨d, some symbols, n.span⟩ := by
  rw [declaration_node]
  obtain ⟨name, symbol, kind, type, mutable, storage⟩ := d
  cases storage <;> rfl

/-- The type of a declaration is the one that was read in it, or missing on both sides. -/
theorem declaredType_of_ty {n : Node} {ty : TypeExpr} (h : n.node? "ty" = some ty.node) :
    n.declaredType = knownType n.tag ty n.span := by
  rw [Node.declaredType, knownType, h]
  cases ty <;> rfl

theorem Param.declaredType (p : Param) : p.node.declaredType = knownType .param p.ty p.span := by
  obtain ⟨name, ty, symbol, span⟩ := p
  cases symbol <;> exact declaredType_of_ty rfl

theorem Let.declaredType (d : Let) : d.node.declaredType = knownType .letDecl d.ty d.span := by
  obtain ⟨name, storage, ty, value, symbol, place, type, span⟩ := d
  refine declaredType_of_ty ?_
  cases storage <;> cases symbol <;> cases place <;> cases type <;> rfl

/-- The symbols of all parameters are made at once, in their order and behind the symbol of the function. -/
theorem nameParams_eq (symbol : String) : ∀ params : List Param,
    nameParams symbol (params.map Param.node) =
      (fun entries : List (Param × Ty) => entries.map fun entry =>
        (entry.1.node, entry.1.symbol.getD "", entry.2)) <$> nameAll symbol params
  | [] => rfl
  | p :: rest => by
    have hname : p.node.textOf "name" = .ok p.name := by
      obtain ⟨name, ty, old, span⟩ := p
      cases old <;> rfl
    have hset : ∀ s : String, p.node.set "symbol" (.str s) = ({ p with symbol := some s } : Param).node := by
      intro s
      obtain ⟨name, ty, old, span⟩ := p
      cases old <;> rfl
    rw [List.map_cons, nameParams, nameAll, hname, Param.declaredType, nameParams_eq symbol rest]
    cases knownType .param p.ty p.span with
    | error e => rfl
    | ok type =>
      cases nameAll symbol rest with
      | error e => rfl
      | ok entries =>
        change Except.ok _ = Except.ok _
        rw [hset]
        rfl

/-- No parameter is left out when they get their symbols. -/
theorem nameAll_length {symbol : String} : ∀ {params : List Param} {entries : List (Param × Ty)},
    nameAll symbol params = .ok entries → entries.length = params.length
  | [], entries, h => by
    obtain rfl := Except.ok.inj h
    rfl
  | p :: rest, entries, h => by
    obtain ⟨type, _, h⟩ := bind_eq_ok.mp h
    obtain ⟨others, hothers, h⟩ := bind_eq_ok.mp h
    obtain rfl := Except.ok.inj h
    rw [List.length_cons, List.length_cons, nameAll_length hothers]

/-- **Binding a function**: its symbol is taken first, then its parameters get theirs, and its name is
declared last. -/
theorem mirrors_bindFunction (f : Function) :
    Mirrors Nested.raw (bindFunction f.node) (Function.node <$> bindFunctionName f) := by
  have hname : f.node.textOf "name" = .ok f.name := by
    simp [Node.textOf, Node.str?, Node.get?, Function.node, Node.fields, Fields.get?_optional,
      Fields.get?, Value.str?]
  have hresult : ((f.node.node? "ret").bind (·.type? "info")).getD .void =
      (f.result.bind TypeExpr.type?).getD .void := by
    have hret : f.node.node? "ret" = f.result.map TypeExpr.node := by
      simp only [Node.node?, Node.get?, Function.node, Node.fields, Fields.get?_optional, Fields.get?]
      cases f.result <;> simp [Value.node?]
    rw [hret]
    cases f.result with
    | none => rfl
    | some t => cases t <;> rfl
  -- the tree takes the symbol and the parameters where their names belong
  have hset : ∀ (symbol : String) (params : Params), f.params.isEmpty = params.isEmpty →
      (f.node.set "symbol" (.str symbol)).set? "params" ((Params.node? params).map .node) =
      ({ f with symbol := some symbol, params := params } : Function).node := by
    intro symbol params hparams
    have hsymbol : f.node.set "symbol" (.str symbol) =
        ({ f with symbol := some symbol } : Function).node := by
      change Node.mk .function (Fields.assign _ "symbol" (some (.str symbol))) f.span = _
      rw [Fields.assign_optional_of_gt rfl, Fields.assign_optional_of_gt rfl,
        Fields.assign_optional_of_gt rfl, Fields.assign_cons_of_gt rfl,
        Fields.assign_optional_of_gt rfl, Fields.assign_optional_of_gt rfl,
        Fields.assign_optional_of_gt rfl, Fields.assign_optional_self
          (Fields.follows_optional rfl Fields.follows_nil)]
      rfl
    rw [hsymbol]
    cases params with
    | nil =>
      obtain hnil : f.params = [] := List.isEmpty_iff.mp hparams
      simp [Params.node?, Node.set?, hnil]
    | cons entry rest =>
      have hput := Function.put_params { f with symbol := some symbol } (entry :: rest)
      exact congrArg (fun fields => Node.mk .function fields f.span) hput
  unfold bindFunction bindFunctionName
  rw [hname, Walk.lift_ok, pure_bind, map_bind]
  refine (mirrors_takeUnitSymbol f.name).bind fun symbol => ?_
  rw [f.elementsOf_params, show (f.params.map (·.1.node)) = (f.params.map Prod.fst).map Param.node by
    simp, nameParams_eq, Walk.lift_map, map_bind]
  cases hparams : nameAll symbol (f.params.map Prod.fst) with
  | error e => exact fun _ => rfl
  | ok params =>
    have htable : Fields.ofList ((params.map fun entry : Param × Ty =>
          (entry.1.node, entry.1.symbol.getD "", entry.2)).zipIdx.map
        fun entry => (toString entry.2, Value.str entry.1.2.1)) =
        paramFields (symbolsOf params) := by
      simp only [paramFields, symbolsOf, List.zipIdx_map, List.map_map]
      rfl
    have htypes : (params.map fun entry : Param × Ty =>
          (entry.1.node, entry.1.symbol.getD "", entry.2)).map (fun entry => entry.2.2) =
        params.map (·.2) := by
      simp [Function.comp_def]
    have hnodes : (params.map fun entry : Param × Ty =>
          (entry.1.node, entry.1.symbol.getD "", entry.2)).map (·.1) =
        (params.map (·.1)).map Param.node := by
      simp [Function.comp_def]
    have hempty : f.params.isEmpty = (Params.ofList (params.map (·.1))).isEmpty := by
      have hlength := nameAll_length hparams
      cases hf : f.params <;> cases hp : params <;> simp_all [Params.ofList]
    simp only [Walk.lift_ok, map_pure, pure_bind, map_bind]
    rw [htable, htypes, hnodes, declaration_node_set, hresult, Params.sequence_eq,
      hset symbol _ hempty]
    exact (mirrors_declare f.name (functionBinding f symbol params) f.node).bind fun _ => .pure _

/-- Binding a variable of the unit or of a function, under a symbol that was chosen for it. -/
theorem mirrors_bindVariable (d : Let) (symbol : String) (kind : BindingKind) (place : Section) :
    Mirrors Nested.raw (bindVariable d.node d.name symbol kind place)
      (Let.node <$> bindLet d symbol kind place) := by
  have hset : (d.node.set "symbol" (.str symbol)).set "section" (.str place.name) =
      ({ d with symbol := some symbol, place := some place } : Let).node := by
    obtain ⟨name, storage, ty, value, old, section_, type, span⟩ := d
    cases storage <;> cases old <;> cases section_ <;> cases type <;> rfl
  have hstorage : d.node.has "storage" = d.storage.isSome := by
    obtain ⟨name, storage, ty, value, old, section_, type, span⟩ := d
    cases storage <;> cases old <;> cases section_ <;> cases type <;> rfl
  unfold bindVariable bindLet
  rw [Let.declaredType, map_bind]
  refine (Mirrors.lift _).bind fun type => ?_
  dsimp only
  rw [declaration_node, map_bind, hset, hstorage]
  exact (mirrors_declare d.name _ d.node).bind fun _ => .pure _

/-- The section of a variable follows from the way in which it is stored. -/
theorem sectionOf_let (d : Let) (default : Section) :
    sectionOf d.node default = placeOf d.storage default := by
  obtain ⟨name, storage, ty, value, symbol, place, type, span⟩ := d
  cases storage <;> cases symbol <;> cases place <;> cases type <;> rfl

theorem Let.textOf_name (d : Let) : d.node.textOf "name" = .ok d.name := by
  obtain ⟨name, storage, ty, value, symbol, place, type, span⟩ := d
  cases storage <;> cases symbol <;> cases place <;> cases type <;> rfl

/-- Binding a constant, which has a symbol but no section. -/
theorem mirrors_bindConstant (name : String) (ty : TypeExpr) (value : Expr) (symbol : Option String)
    (span : Span) :
    Mirrors Nested.raw (bindConstant (Program.Item.constant name ty value symbol span).node)
      (Program.Item.node <$> bindItemName (.constant name ty value symbol span)) := by
  have hname : (Program.Item.constant name ty value symbol span).node.textOf "name" = .ok name := by
    cases symbol <;> rfl
  have htype : (Program.Item.constant name ty value symbol span).node.declaredType =
      knownType .constant ty span := by
    cases symbol <;> exact declaredType_of_ty rfl
  have hset : ∀ new : String,
      (Program.Item.constant name ty value symbol span).node.set "symbol" (.str new) =
        (Program.Item.constant name ty value (some new) span).node := by
    intro new
    cases symbol <;> rfl
  unfold bindConstant bindItemName
  rw [hname, Walk.lift_ok, pure_bind, map_bind]
  refine (mirrors_takeUnitSymbol name).bind fun new => ?_
  rw [htype, map_bind]
  refine (Mirrors.lift _).bind fun type => ?_
  dsimp only
  rw [declaration_node, map_bind, hset]
  exact (mirrors_declare name _ (Program.Item.constant name ty value symbol span).node).bind
    fun _ => .pure _

/-- **Binding an item** goes by its kind. What declares nothing, such as a use, is left. -/
theorem mirrors_bindItem (i : Program.Item) :
    Mirrors Nested.raw (bindItem i.node) (Program.Item.node <$> bindItemName i) := by
  cases i with
  | use name span => exact .pure _
  | constant name ty value symbol span => exact mirrors_bindConstant name ty value symbol span
  | global s =>
    cases s with
    | decl d =>
      change Mirrors Nested.raw (bindGlobal d.node) _
      unfold bindGlobal bindItemName
      rw [Let.textOf_name, Walk.lift_ok, pure_bind, map_bind]
      refine (mirrors_takeUnitSymbol d.name).bind fun symbol => ?_
      rw [sectionOf_let, map_bind]
      have h := mirrors_bindVariable d symbol .global (placeOf d.storage .data)
      rw [map_eq_pure_bind] at h
      exact h
    | expr e =>
      cases e with
      | cell place _ _ _ => cases place <;> exact .pure _
      | _ => exact .pure _
    | _ => exact .pure _
  | function f =>
    have h := mirrors_bindFunction f
    change Mirrors Nested.raw (bindFunction f.node) _
    rw [bindItemName, Functor.map_map]
    exact h
  | compiled symbol code type locals span => exact .pure _

/-- Items are bound from the first to the last. -/
theorem mirrors_bindItems : ∀ items : List Program.Item,
    Mirrors Nested.raw ((items.map Program.Item.node).mapM bindItem)
      (List.map Program.Item.node <$> bindItems items)
  | [] => .pure _
  | i :: rest => by
    rw [List.map_cons, List.mapM_cons, bindItems, map_bind]
    refine (mirrors_bindItem i).bind_map fun i' => ?_
    rw [map_bind]
    refine (mirrors_bindItems rest).bind_map fun rest' => ?_
    rw [map_pure]
    exact .pure _

/-- Entering a unit binds all its items, so that they may refer to each other in any order. -/
theorem mirrors_enterUnit (p : Program) :
    Mirrors Nested.raw (settle hooks.enter p.node) ((fun p' => some p'.node) <$> inner.enterUnit p) := by
  have hset : ∀ items : List Program.Item,
      p.node.set? "body" ((Node.sequence .items (items.map Program.Item.node) none).map .node) =
        (if items.isEmpty then p else { p with items := Items.ofList items }).node := by
    intro items
    rw [Items.sequence_eq]
    have hput := p.put_items (Items.ofList items)
    cases items with
    | nil => rfl
    | cons i rest => exact congrArg (fun fields => Node.mk .unit fields p.span) hput
  change Mirrors Nested.raw (settle enterUnit p.node) _
  simp only [settle, enterUnit, inner, node?_items]
  cases hitems : p.items with
  | nil => exact .pure _
  | cons entry rest =>
    obtain ⟨n, hn⟩ : ∃ n, Items.node? (entry :: rest) = some n := ⟨_, rfl⟩
    have helements : n.elements = ((entry :: rest).map (·.1)).map Program.Item.node := by
      rw [Items.elements hn, List.map_map]
      rfl
    rw [hn]
    simp only [helements, List.isEmpty_cons, Bool.false_eq_true, if_false, map_bind]
    refine Mirrors.bind_map (mirrors_bindItems _) fun items => ?_
    rw [hset, map_pure, map_pure]
    exact .pure _

/-- A parameter is bound in the frame of its function, under the symbol that it got with it. -/
theorem mirrors_bindParam (p : Param) :
    Mirrors Nested.raw (bindParam p.node) (bindParamName p) := by
  have hname : p.node.textOf "name" = .ok p.name := by
    obtain ⟨name, ty, symbol, span⟩ := p
    cases symbol <;> rfl
  unfold bindParam bindParamName
  rw [hname, Walk.lift_ok, pure_bind, Param.declaredType]
  obtain ⟨name, ty, symbol, span⟩ := p
  cases symbol with
  | none => exact fun _ => rfl
  | some symbol =>
    have hsymbol : (Param.mk name ty (some symbol) span).node.textOf "symbol" = .ok symbol := rfl
    rw [hsymbol, Walk.lift_ok, pure_bind]
    refine (Mirrors.lift _).bind fun type => ?_
    dsimp only
    rw [declaration_node]
    exact (mirrors_declare name _ (Param.mk name ty (some symbol) span).node).bind fun _ =>
      mirrors_useSymbol symbol

/-- Parameters are bound from the first to the last. -/
theorem mirrors_bindParams : ∀ params : List Param,
    Mirrors Nested.raw ((params.map Param.node).forM bindParam) (bindParams params)
  | [] => .pure _
  | p :: rest => by
    change Mirrors Nested.raw (bindParam p.node >>= fun _ => (rest.map Param.node).forM bindParam) _
    rw [bindParams]
    exact (mirrors_bindParam p).bind fun _ => mirrors_bindParams rest

/-- Entering a function binds its parameters and remembers its symbol for those of its variables. -/
theorem mirrors_enterFunction (f : Function) :
    Mirrors Nested.raw (settle hooks.enter f.node) ((fun _ => some f.node) <$> inner.enterFunction f) := by
  change Mirrors Nested.raw (settle enterFunction f.node) _
  have hsymbol : f.node.str? "symbol" = f.symbol := by
    simp only [Node.str?, Node.get?, Function.node, Node.fields, Fields.get?_optional, Fields.get?]
    cases f.symbol <;> simp [Value.str?]
  simp only [settle, enterFunction, inner, hsymbol]
  cases f.symbol with
  | none => exact fun _ => rfl
  | some symbol =>
    rw [f.elementsOf_params, show (f.params.map (·.1.node)) = (f.params.map Prod.fst).map Param.node by
      simp]
    simp only [map_bind]
    refine (mirrors_bindParams _).bind fun _ => ?_
    exact fun _ => rfl

/-- A local variable is bound when its declaration is left, so its value does not see it. -/
theorem mirrors_exitLet (d : Let) :
    Mirrors Nested.raw (settle hooks.exit d.node) ((fun s => some s.node) <$> inner.decl d) := by
  change Mirrors Nested.raw (settle exitLet d.node) _
  simp only [settle, exitLet, inner, Functor.map_map, bindLocal, map_bind]
  refine mirrors_get_bind fun s => ?_
  rw [show s.raw.own.functions = s.own.functions from rfl]
  cases s.own.functions with
  | nil => exact .pure _
  | cons function outer =>
    simp only [map_bind]
    rw [Let.textOf_name, Walk.lift_ok, pure_bind, sectionOf_let]
    refine (mirrors_takeSymbol _).bind fun symbol => ?_
    refine (mirrors_bindVariable d symbol .localVar _).bind_map fun d' => ?_
    exact fun _ => rfl

theorem rewrites : Rewrites Nested.raw hooks fun e => Walk.reading (bindExpr · e) where
  enter e := by
    cases e with
    | cell place _ _ _ => cases place <;> rfl
    | _ => rfl
  exit e := by
    cases e with
    | cell place _ _ _ => cases place <;> exact .pure _
    | ident name binding type span =>
      intro s
      change (settle exitIdent _).outcome s.raw = _
      have hname : (Expr.ident name binding type span).node.textOf "name" = .ok name := by
        cases binding <;> cases type <;> rfl
      have hset : ∀ b : Binding, (Expr.ident name binding type span).node.set "binding" (.node b.node) =
          (Expr.ident name (some b) type span).node := by
        intro b
        cases binding <;> cases type <;> rfl
      have hbinding : s.raw.scopes.binding name =
          ((s.frames.lookup? name).bind Named.binding?).map Binding.node :=
        Frames.binding_raw s.frames name
      simp only [settle, exitIdent, hname, Walk.outcome_map, Walk.outcome_bind, Walk.outcome_lift,
        Walk.andThen_ok, Walk.outcome_get, hbinding, Walk.outcome_reading, bindExpr]
      cases (s.frames.lookup? name).bind Named.binding? with
      | none => rfl
      | some b =>
        have htag : b.node.tag = .binding := rfl
        simp only [Option.map_some, htag, if_true, hset]
        rfl
    | _ => exact .pure _
  binding _ := ⟨rfl, rfl⟩
  args _ _ _ := ⟨rfl, rfl⟩

theorem visitsParts : VisitsParts Nested.raw hooks inner where
  pass part hpart := by
    cases part with
    | type t => cases t <;> rfl
    | stmt s h =>
      cases s with
      | expr e => simp [Stmt.isPlain] at h
      | _ => rfl
    | function _ | unit _ => cases hpart
    | _ => rfl
  enterScope _ _ _ _ := .pure _
  enterFunction := mirrors_enterFunction
  enterUnit := mirrors_enterUnit
  exit part := by
    cases part with
    | type t => cases t <;> exact .pure _
    | stmt s h =>
      cases s with
      | decl d | expr e => simp [Stmt.isPlain] at h
      | _ => exact .pure _
    | decl d => exact mirrors_exitLet d
    | function f => exact fun _ => rfl
    | _ => exact .pure _

/-- **The pass is the visitor**, frames included. -/
theorem visits : Visits Nested.raw (Scoped.hooks hooks) visitor :=
  .ascending (visitsParts.scoped rfl fun _ => rfl) rewrites.scoped rfl

end Lode.BindNames
