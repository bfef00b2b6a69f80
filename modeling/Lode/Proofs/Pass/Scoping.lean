/-
# Scoping

What binding names does, without frames: once scopes are explicit and types are read, it fails exactly if a
name is declared twice in the unit or among the parameters of a function, and otherwise binds every
identifier lexically and changes nothing else.  `Binding` reasons from a walk that succeeded; this module
shows that it does.

The open frames and an environment agree (`Frames.Agree`) while the statements of a function are visited: a
scope is opened in front of its declaration, which is bound when it is left, so the environment grows from
one declaration to the next.  The initial value of a declaration is visited before that, in the environment
outside.  A frame of its own for every declaration is also why a local never clashes with another one, and
why the only names that can be declared twice are those that share a frame (`Unused`).

The proof goes from the inside out: expressions, statements, parameters, functions, items, the unit.  At the
levels where names share a frame there are two lemmas, one for names that differ (`outcome_bindParams`,
`outcome_bindItems`) and one that finds the error if they do not (`bindParams_duplicate`,
`bindItems_duplicate`). Each runs the visitor forward and says what it leaves, the state included, so the
lemmas chain without any assumption that a step succeeds.  Symbols are fresh and their spelling does not
matter here: only that every declaration is bound to its own.
-/
import Lode.Proofs.Pass.Binding
import Lode.Proofs.Program.Declarations

namespace Lode.Program

/-! ## 1. Open frames and environments -/

/-- Open frames bind names to what an environment binds them to. -/
def Frames.Agree (frames : Frames) (env : Env) : Prop :=
  ∀ name, (frames.lookup? name).bind Named.binding? = env.lookup name

namespace Frames.Agree

variable {frame : Frame} {outer : Frames} {env : Env}

/-- An empty frame binds nothing. -/
theorem opened (h : outer.Agree env) : Frames.Agree ({} :: outer) env := h

/-- What is looked up once a name is bound in front of other entries. -/
theorem lookup_insert {name : String} {b : Binding} {entries : Env} (hnew : entries.lookup name = none)
    (key : String) : (entries ++ (name, b) :: env).lookup key =
      if key = name then some b else (entries ++ env).lookup key := by
  rw [List.lookup_append, List.lookup_append]
  split
  · rename_i heq
    rw [heq, hnew, List.lookup_cons_self]
    rfl
  · rename_i hne
    rw [List.lookup_cons, beq_false_of_ne hne]

/-- Binding a name that the innermost frame does not have. -/
theorem bind {entries : Env} {name : String} (h : Frames.Agree (frame :: outer) (entries ++ env))
    (hnew : entries.lookup name = none) (b : Binding) :
    Frames.Agree ({ frame with names := Sorted.set name (.binding b) frame.names } :: outer)
      (entries ++ (name, b) :: env) := by
  intro key
  have hkey := h key
  simp only [lookup?, List.findSome?_cons] at hkey ⊢
  rw [lookup_insert hnew]
  by_cases heq : key = name
  · rw [if_pos heq, heq, Sorted.find?_set_self]
    rfl
  · rw [if_neg heq, Sorted.set, Sorted.find?_alter_ne heq]
    exact hkey

end Frames.Agree

/-- A frame in which variables are declared: it binds names, and has neither units nor values. -/
structure Frame.Local (frame : Frame) : Prop where
  constants : frame.constants = []
  names : ∀ entry ∈ frame.names, ∃ b, entry.2 = .binding b

theorem Frame.local_empty : ({} : Frame).Local := ⟨rfl, fun _ h => by cases h⟩

theorem Frame.Local.set {frame : Frame} (h : frame.Local) (name : String) (b : Binding) :
    Frame.Local { frame with names := Sorted.set name (.binding b) frame.names } := by
  refine ⟨h.constants, fun entry hentry => ?_⟩
  rcases Sorted.mem_set hentry with rfl | hentry
  · exact ⟨b, rfl⟩
  · exact h.names entry hentry

theorem Frame.Local.above {new old : Frame} (hnew : new.Local) (hold : old.Local) : (new.above old).Local :=
  ⟨by simp [Frame.above, hnew.constants, hold.constants],
    fun entry hentry => (Frame.mem_above hentry).elim (hnew.names entry) (hold.names entry)⟩

/-! ## 2. Statements in scopes -/

/-- Whether a statement is written and declares nothing. -/
def Stmt.isAction : Stmt → Bool
  | .set _ _ _ _ | .ret _ _ _ | .expr _ => true
  | _ => false

mutual

/-- A statement in which every declaration opens a scope. -/
def Stmt.Layered : Stmt → Prop
  | .scope (.decl _) body frame _ => frame = {} ∧ body.Layered
  | .set _ _ _ _ | .ret _ _ _ | .expr _ => True
  | _ => False

/-- Statements in which every declaration opens a scope, up to the last of them. -/
def Stmts.Layered : Stmts → Prop
  | .nil => True
  | .cons stmt rest _ => stmt.Layered ∧ rest.Layered ∧ (stmt.isAction = true ∨ rest = .nil)

end

/-- The statement with its identifiers bound. -/
def Stmt.bindIn (env : Env) : Stmt → Stmt
  | .set lvalue rvalue type span => .set (lvalue.bindIn env) (rvalue.bindIn env) type span
  | .ret value type span => .ret (value.map (Expr.bindIn env)) type span
  | .expr e => .expr (e.bindIn env)
  | s => s

/-- Binding changes nothing but bindings. -/
theorem Stmt.erase_bindIn (env : Env) {s : Stmt} (h : s.isAction = true) :
    (s.bindIn env).erase = s.erase := by
  cases s with
  | set _ _ _ _ => simp only [Stmt.bindIn, Stmt.erase, Expr.erase_bindIn]
  | ret value _ _ => cases value <;> simp [Stmt.bindIn, Stmt.erase, Expr.erase_bindIn]
  | expr _ => simp only [Stmt.bindIn, Stmt.erase, Expr.erase_bindIn]
  | _ => cases h

theorem Stmt.leaves_of_isAction {s : Stmt} (h : s.isAction = true) : s.leaves = [s] ∧ s.lets = [] := by
  cases s with
  | set _ _ _ _ | ret _ _ _ | expr _ => exact ⟨rfl, rfl⟩
  | _ => cases h

theorem Stmt.frames_of_isAction {s : Stmt} (h : s.isAction = true) : s.frames = [] := by
  cases s with
  | scope _ _ _ _ => cases h
  | _ => rfl

theorem Stmt.isAction_bindIn (env : Env) {s : Stmt} (h : s.isAction = true) :
    (s.bindIn env).isAction = true := by
  cases s with
  | set _ _ _ _ | ret _ _ _ | expr _ => rfl
  | _ => cases h

/-- A bound statement in front of lexical statements leaves them lexical. -/
theorem LexicalIn.cons_bindIn {env : Env} {s : Stmt} {rest : List Stmt} (hs : s.isAction = true)
    (hlinked : s.Linked {}) (hrest : LexicalIn env rest) : LexicalIn env (s.bindIn env :: rest) := by
  cases s with
  | set lvalue rvalue _ _ =>
    refine ⟨fun e he => ?_, hrest⟩
    rcases List.mem_pair.mp he with rfl | rfl
    · exact Expr.boundBy_bindIn env hlinked.1
    · exact Expr.boundBy_bindIn env hlinked.2
  | ret value _ _ =>
    refine ⟨fun e he => ?_, hrest⟩
    obtain ⟨e', he', rfl⟩ := Option.mem_map.mp (Option.mem_toList.mp he)
    exact Expr.boundBy_bindIn env (hlinked e' he')
  | expr e =>
    refine ⟨fun e' he' => ?_, hrest⟩
    obtain rfl := List.mem_singleton.mp he'
    exact Expr.boundBy_bindIn env hlinked
  | _ => cases hs

end Lode.Program

namespace Lode.BindNames

open Program

/-! ## 3. Names -/

variable {unit : String} {frame : Frame} {outer : Frames} {env : Env}

/-- **A name that the innermost frame does not have is bound.** -/
theorem outcome_bindName {name : String} {b : Binding} {span : Span} {own : Binder}
    (h : Sorted.find? name frame.names = none) :
    (bindName name b span).outcome ⟨frame :: outer, own⟩ =
      (.ok (), ⟨{ frame with names := Sorted.set name (.binding b) frame.names } :: outer, own⟩) := by
  simp [bindName, Walk.outcome_bind, Frames.bind?, h]

/-- **A name that it has is rejected**, at the place of the second declaration. -/
theorem outcome_bindName_of_isSome {name : String} {b : Binding} {span : Span} {own : Binder}
    (h : (Sorted.find? name frame.names).isSome = true) :
    (bindName name b span).outcome ⟨frame :: outer, own⟩ =
      (.error ⟨.duplicateDefinition name, some span⟩, ⟨frame :: outer, own⟩) := by
  simp [bindName, Walk.outcome_bind, Frames.bind?, h]

theorem outcome_takeFresh (base : String) (frames : Frames) (own : Binder) :
    (takeFresh base).outcome ⟨frames, own⟩ = (.ok (freshSymbol own.symbols base),
      ⟨frames, { own with symbols := freshSymbol own.symbols base :: own.symbols }⟩) := rfl

theorem knownType_eq {tag : Tag} {ty : TypeExpr} {span : Span} (h : ty.type?.isSome = true) :
    knownType tag ty span = .ok (ty.type?.getD .void) := by
  obtain ⟨type, htype⟩ := Option.isSome_iff_exists.mp h
  simp [knownType, htype]

/-- A variable is bound if its type is known and its name is free. -/
theorem outcome_bindLet {d : Let} {symbol : String} {kind : BindingKind} {place : Section}
    {own : Binder} (htype : d.ty.type?.isSome = true) (h : Sorted.find? d.name frame.names = none) :
    let d' := { d with symbol := some symbol, place := some place }
    (bindLet d symbol kind place).outcome ⟨frame :: outer, own⟩ = (.ok d',
      ⟨{ frame with names := Sorted.set d.name (.binding (d'.binding kind)) frame.names } :: outer,
        own⟩) := by
  rw [bindLet, knownType_eq htype, Walk.lift_ok, pure_bind, Walk.outcome_bind_of_ok (outcome_bindName h)]
  rfl

/-! ## 4. Expressions and statements -/

mutual

/-- The identifiers of an expression get what the environment binds them to. The induction is on the
expression. -/
theorem mapUp_bindExpr {s : Nested Binder} (h : s.frames.Agree env) : ∀ e : Expr,
    e.mapUp (bindExpr s) = .ok (e.bindIn env)
  | .ident name binding type span => by rw [Expr.mapUp, bindExpr, h name, Expr.bindIn]
  | .member target _ _ => by
    rw [Expr.mapUp, mapUp_bindExpr h target]
    rfl
  | .call target args _ _ _ => by
    rw [Expr.mapUp, mapUp_bindArgs h args, ok_bind, mapUp_bindExpr h target]
    rfl
  | .binop _ lhs rhs _ _ => by
    rw [Expr.mapUp, mapUp_bindExpr h lhs, ok_bind, mapUp_bindExpr h rhs]
    rfl
  | .neg operand _ _ => by
    rw [Expr.mapUp, mapUp_bindExpr h operand]
    rfl
  | .deref target _ _ => by
    rw [Expr.mapUp, mapUp_bindExpr h target]
    rfl
  | .paren inner _ => by
    rw [Expr.mapUp, mapUp_bindExpr h inner]
    rfl
  | .number _ _ _ | .string _ _ _ | .intrinsic _ _ _ | .cell _ _ _ _ | .immediate _ _ _
  | .returned _ _ => rfl

theorem mapUp_bindArgs {s : Nested Binder} (h : s.frames.Agree env) : ∀ args : Args,
    args.mapUp (bindExpr s) = .ok (args.bindIn env)
  | .nil => rfl
  | .cons arg rest _ => by
    rw [Args.mapUp, mapUp_bindExpr h arg, ok_bind, mapUp_bindArgs h rest]
    rfl

end

/-- **Identifiers** are bound as the environment says. -/
theorem outcome_expr {s : Nested Binder} (h : s.frames.Agree env) (e : Expr) :
    (visitor.expr e).outcome s = (.ok (e.bindIn env), s) := by
  change (e.mapUp fun e => Walk.reading (bindExpr · e)).outcome s = _
  rw [Expr.outcome_mapUp, mapUp_bindExpr h]

/-- A statement that declares nothing is bound, and the state stays. -/
theorem outcome_action {s : Nested Binder} (h : s.frames.Agree env) {st : Stmt}
    (hst : st.isAction = true) : (st.mapUp visitor).outcome s = (.ok (st.bindIn env), s) := by
  cases st with
  | set lvalue rvalue type span =>
    rw [Stmt.mapUp, Walk.outcome_bind_of_ok (outcome_expr h lvalue),
      Walk.outcome_bind_of_ok (outcome_expr h rvalue)]
    rfl
  | ret value type span =>
    cases value with
    | none => rfl
    | some value =>
      rw [Stmt.mapUp, Walk.outcome_bind_of_ok (outcome_expr h value)]
      rfl
  | expr e =>
    rw [Stmt.mapUp, Walk.outcome_map, outcome_expr h e]
    rfl
  | _ => cases hst

/-- A declaration in a function with its symbol and its section. -/
structure LocalLet (function : String) (d d' : Let) : Prop where
  name : d'.name = d.name
  symbol : ∃ n, d'.symbol = some (candidate (function ++ "." ++ d.name) n)
  place : d'.place = some (placeOf d.storage .bss)
  type : (d'.ty.type?).isSome = true

/-- **A declaration** is bound in a new scope, and not in its own initial value. -/
theorem outcome_decl (unit function : String) (functions used : List String) {d : Let}
    (h : Frames.Agree ({} :: outer) env) (htype : d.ty.type?.isSome = true) :
    ∃ (d' : Let) (used' : List String),
      ((Stmt.decl d).mapUp visitor).outcome ⟨{} :: outer, ⟨unit, function :: functions, used⟩⟩ =
        (.ok (.decl d'), ⟨⟨[(d.name, .binding (d'.binding .localVar))], []⟩ :: outer,
          ⟨unit, function :: functions, used'⟩⟩) ∧
      d'.value = d.value.bindIn env ∧ d'.erase = d.erase ∧ LocalLet function d d' := by
  obtain ⟨n, -, hn, -⟩ := freshSymbol_first used (function ++ "." ++ d.name)
  refine ⟨{ d with
      value := d.value.bindIn env
      symbol := some (freshSymbol used (function ++ "." ++ d.name))
      place := some (placeOf d.storage .bss) },
    freshSymbol used (function ++ "." ++ d.name) :: used, ?_, rfl, ?_, ⟨rfl, ⟨n, congrArg some hn⟩, rfl, htype⟩⟩
  · rw [Stmt.mapUp, Let.mapUp, show visitor.type = pure from rfl, TypeExpr.mapUp_pure, pure_bind,
      Walk.outcome_bind_of_ok (outcome_expr h d.value),
      show visitor.decl = fun d => .decl <$> bindLocal d from rfl, Walk.outcome_map, bindLocal,
      Walk.outcome_bind_of_ok Walk.outcome_get]
    simp only
    rw [Walk.outcome_bind_of_ok (outcome_takeFresh _ _ _), outcome_bindLet (by exact htype) rfl]
    rfl
  · simp [Let.erase, Expr.erase_bindIn]

/-- What binding names makes of statements. -/
structure Resolved (function : String) (env : Env) (stmts stmts' : Stmts) : Prop where
  lexical : LexicalIn env stmts'.leaves
  erase : stmts'.erase = stmts.erase
  lets : List.Forall₂ (LocalLet function) stmts.lets stmts'.lets
  frames : ∀ frame ∈ stmts'.frames, frame.Local

/-- Such a statement in front of resolved statements. -/
theorem Resolved.cons_action {function : String} {stmt : Stmt} {rest rest' : Stmts} {cell : Span}
    (h : Resolved function env rest rest') (hstmt : stmt.isAction = true) (hlinked : stmt.Linked {}) :
    Resolved function env (.cons stmt rest cell) (.cons (stmt.bindIn env) rest' cell) where
  lexical := by
    rw [Stmts.leaves, (Stmt.leaves_of_isAction (Stmt.isAction_bindIn env hstmt)).1]
    exact LexicalIn.cons_bindIn hstmt hlinked h.lexical
  erase := by rw [Stmts.erase, Stmts.erase, Stmt.erase_bindIn env hstmt, h.erase]
  lets := by
    rw [Stmts.lets, Stmts.lets, (Stmt.leaves_of_isAction hstmt).2,
      (Stmt.leaves_of_isAction (Stmt.isAction_bindIn env hstmt)).2]
    exact h.lets
  frames := by
    rw [Stmts.frames, Stmt.frames_of_isAction (Stmt.isAction_bindIn env hstmt)]
    exact h.frames

/-- Visiting a list that begins with one visits the rest from the same state. -/
theorem outcome_cons_action {s s' : Nested Binder} {stmt : Stmt} {rest rest' : Stmts} {cell : Span}
    (hagree : s.frames.Agree env) (hstmt : stmt.isAction = true)
    (hrest : (rest.mapUp visitor).outcome s = (.ok rest', s')) :
    ((Stmts.cons stmt rest cell).mapUp visitor).outcome s =
      (.ok (.cons (stmt.bindIn env) rest' cell), s') := by
  rw [Stmts.mapUp, Walk.outcome_bind_of_ok (outcome_action hagree hstmt),
    Walk.outcome_bind_of_ok hrest]
  rfl

/-- **A scope** is visited with a frame of its own, which holds its variable alone and is closed behind the
body. -/
theorem outcome_scope {function : String} {functions used used' : List String} {d d' : Let}
    {body body' : Stmts} {span : Span} {b : Binding}
    (hdecl : ((Stmt.decl d).mapUp visitor).outcome ⟨{} :: outer, ⟨unit, function :: functions, used⟩⟩ =
      (.ok (.decl d'), ⟨⟨[(d.name, .binding b)], []⟩ :: outer, ⟨unit, function :: functions, used'⟩⟩))
    {used'' : List String}
    (hbody : (body.mapUp visitor).outcome
        ⟨⟨[(d.name, .binding b)], []⟩ :: outer, ⟨unit, function :: functions, used'⟩⟩ =
      (.ok body', ⟨⟨[(d.name, .binding b)], []⟩ :: outer, ⟨unit, function :: functions, used''⟩⟩)) :
    ((Stmt.scope (.decl d) body {} span).mapUp visitor).outcome
        ⟨outer, ⟨unit, function :: functions, used⟩⟩ =
      (.ok (.scope (.decl d') body' ⟨[(d.name, .binding b)], []⟩ span),
        ⟨outer, ⟨unit, function :: functions, used''⟩⟩) := by
  have henter : (visitor.enterScope (.decl d) body {} span).outcome
      ⟨outer, ⟨unit, function :: functions, used⟩⟩ =
        (.ok (), ⟨{} :: outer, ⟨unit, function :: functions, used⟩⟩) := rfl
  rw [Stmt.mapUp, Walk.outcome_bind_of_ok henter, Walk.outcome_bind_of_ok hdecl,
    Walk.outcome_bind_of_ok hbody]
  rfl

/-- **The statements of a function.**  Binding their names does not fail, binds them lexically and
changes nothing else. -/
theorem mapUp_layered (unit function : String) (functions : List String) :
    ∀ {stmts : Stmts} {outer : Frames} {env : Env} (used : List String), stmts.Layered →
      stmts.Linked {} → (∀ d ∈ stmts.lets, d.ty.type?.isSome = true) → outer.Agree env →
      ∃ stmts' used', (stmts.mapUp visitor).outcome ⟨outer, ⟨unit, function :: functions, used⟩⟩ =
          (.ok stmts', ⟨outer, ⟨unit, function :: functions, used'⟩⟩) ∧
        Resolved function env stmts stmts'
  | .nil, outer, env, used, _, _, _, _ => ⟨.nil, used, rfl, trivial, rfl, .nil, by simp [Stmts.frames]⟩
  | .cons (.scope (.decl d) body frame span) rest cell, outer, env, used, hlayered, hlinked, htypes,
      hagree => by
    obtain ⟨⟨rfl, hbodyLayered⟩, -, hlast⟩ := hlayered
    obtain rfl : rest = .nil := hlast.resolve_left (by simp [Stmt.isAction])
    obtain ⟨⟨⟨hvalue, -⟩, hbodyLinked⟩, -⟩ := hlinked
    simp only [Stmts.lets, Stmt.lets, List.singleton_append, List.append_nil, List.forall_mem_cons]
      at htypes
    obtain ⟨d', used', hdecl, hvalue', herase, hlocal⟩ := outcome_decl unit function functions used
      hagree.opened htypes.1
    -- the variable is in sight inside of its scope
    have hinside : Frames.Agree (⟨[(d.name, .binding (d'.binding .localVar))], []⟩ :: outer)
        ((d'.name, d'.binding .localVar) :: env) := by
      rw [hlocal.name]
      have hopened : Frames.Agree ({} :: outer) ([] ++ env) := hagree.opened
      exact hopened.bind rfl _
    obtain ⟨body', used'', hbody, hresolved⟩ := mapUp_layered unit function functions used'
      hbodyLayered hbodyLinked htypes.2 hinside
    have hleaves (frame : Frame) : (Stmts.cons (.scope (.decl d') body' frame span) .nil cell).leaves =
        .decl d' :: body'.leaves := by simp [Stmts.leaves, Stmt.leaves]
    refine ⟨.cons (.scope (.decl d') body' ⟨[(d.name, .binding (d'.binding .localVar))], []⟩ span) .nil
      cell, used'', ?_, ?_, ?_, ?_, ?_⟩
    · rw [Stmts.mapUp, Walk.outcome_bind_of_ok (outcome_scope hdecl hbody)]
      rfl
    · rw [hleaves]
      exact ⟨hvalue' ▸ Expr.boundBy_bindIn env hvalue, hresolved.lexical⟩
    · simp only [Stmts.erase, Stmt.erase, herase, hresolved.erase]
    · simp only [Stmts.lets, Stmt.lets, List.append_nil]
      exact .cons hlocal hresolved.lets
    · simp only [Stmts.frames, Stmt.frames, List.nil_append, List.append_nil, List.forall_mem_cons]
      exact ⟨Frame.local_empty.set d.name _, hresolved.frames⟩
  | .cons (.set lvalue rvalue type place) rest cell, outer, env, used, hlayered, hlinked, htypes,
      hagree => by
    obtain ⟨rest', used', hrest, hresolved⟩ := mapUp_layered unit function functions used
      hlayered.2.1 hlinked.2 (fun d hd => htypes d hd) hagree
    exact ⟨_, used', outcome_cons_action hagree rfl hrest, hresolved.cons_action rfl hlinked.1⟩
  | .cons (.ret value type place) rest cell, outer, env, used, hlayered, hlinked, htypes, hagree => by
    obtain ⟨rest', used', hrest, hresolved⟩ := mapUp_layered unit function functions used
      hlayered.2.1 hlinked.2 (fun d hd => htypes d hd) hagree
    exact ⟨_, used', outcome_cons_action hagree rfl hrest, hresolved.cons_action rfl hlinked.1⟩
  | .cons (.expr e) rest cell, outer, env, used, hlayered, hlinked, htypes, hagree => by
    obtain ⟨rest', used', hrest, hresolved⟩ := mapUp_layered unit function functions used
      hlayered.2.1 hlinked.2 (fun d hd => htypes d hd) hagree
    exact ⟨_, used', outcome_cons_action hagree rfl hrest, hresolved.cons_action rfl hlinked.1⟩

/-! ## 5. Parameters -/

/-- A parameter whose name is free is bound. -/
theorem outcome_bindParamName {functions used : List String} {p : Param} {symbol : String}
    (hsymbol : p.symbol = some symbol) (htype : p.ty.type?.isSome = true)
    (hnew : Sorted.find? p.name frame.names = none) :
    (bindParamName p).outcome ⟨frame :: outer, ⟨unit, functions, used⟩⟩ =
      (.ok (), ⟨{ frame with names := Sorted.set p.name (.binding p.binding) frame.names } :: outer,
        ⟨unit, functions, symbol :: used⟩⟩) := by
  rw [Param.binding, hsymbol, bindParamName, hsymbol]
  simp only
  rw [knownType_eq htype, Walk.lift_ok, pure_bind, Walk.outcome_bind_of_ok (outcome_bindName hnew)]
  rfl

theorem outcome_bindParamName_of_isSome {functions used : List String} {p : Param} {symbol : String}
    (hsymbol : p.symbol = some symbol) (htype : p.ty.type?.isSome = true)
    (hold : (Sorted.find? p.name frame.names).isSome = true) :
    (bindParamName p).outcome ⟨frame :: outer, ⟨unit, functions, used⟩⟩ =
      (.error ⟨.duplicateDefinition p.name, some p.span⟩, ⟨frame :: outer, ⟨unit, functions, used⟩⟩) := by
  rw [bindParamName, hsymbol]
  simp only
  rw [knownType_eq htype, Walk.lift_ok, pure_bind,
    Walk.outcome_bind_of_error (outcome_bindName_of_isSome hold)]

/-- Parameters that have symbols and types. -/
def ParamsKnown (params : List Param) : Prop :=
  ∀ p ∈ params, p.symbol.isSome = true ∧ p.ty.type?.isSome = true

/-- The innermost frame has none of some names, and no two of them are the same. -/
def Unused (names : List String) (frame : Frame) : Prop :=
  names.Nodup ∧ ∀ name ∈ names, Sorted.find? name frame.names = none

/-- Names are unused if the first is, and the others are once it is bound. -/
theorem Unused.cons {name : String} {names : List String} (named : Named) :
    Unused (name :: names) frame ↔ Sorted.find? name frame.names = none ∧
      Unused names { frame with names := Sorted.set name named frame.names } := by
  simp only [Unused, List.nodup_cons, List.forall_mem_cons]
  constructor
  · rintro ⟨⟨hname, hnodup⟩, hnew, hall⟩
    refine ⟨hnew, hnodup, fun other hother => ?_⟩
    have hne : other ≠ name := fun h => hname (h ▸ hother)
    rw [Sorted.set, Sorted.find?_alter_ne hne]
    exact hall other hother
  · rintro ⟨hnew, hnodup, hall⟩
    have hne : ∀ other ∈ names, other ≠ name := by
      rintro other hother rfl
      have hfind := hall other hother
      rw [Sorted.find?_set_self] at hfind
      cases hfind
    refine ⟨⟨fun hmem => hne name hmem rfl, hnodup⟩, hnew, fun other hother => ?_⟩
    have hfind := hall other hother
    rwa [Sorted.set, Sorted.find?_alter_ne (hne other hother)] at hfind

/-- **Parameters** with different names are bound one after the other. -/
theorem outcome_bindParams (unit : String) (functions : List String) :
    ∀ {params : List Param} {frame : Frame} (entries : Env) (used : List String),
      ParamsKnown params → Unused (params.map Param.name) frame →
      Frames.Agree (frame :: outer) (entries ++ env) →
      (∀ p ∈ params, entries.lookup p.name = none) →
      ∃ frame' used', (bindParams params).outcome ⟨frame :: outer, ⟨unit, functions, used⟩⟩ =
          (.ok (), ⟨frame' :: outer, ⟨unit, functions, used'⟩⟩) ∧
        Frames.Agree (frame' :: outer) (entries ++ (params.map fun p => (p.name, p.binding)) ++ env) ∧
        (frame.Local → frame'.Local)
  | [], frame, entries, used, _, _, hagree, _ => ⟨frame, used, rfl, by simpa using hagree, id⟩
  | p :: rest, frame, entries, used, hknown, hunused, hagree, hentries => by
    obtain ⟨⟨hsymbol, htype⟩, hknown⟩ := List.forall_mem_cons.mp hknown
    obtain ⟨hnew, hunused⟩ := (Unused.cons (.binding p.binding)).mp hunused
    obtain ⟨hentry, hentries⟩ := List.forall_mem_cons.mp hentries
    obtain ⟨symbol, hsymbol⟩ := Option.isSome_iff_exists.mp hsymbol
    have hnames : ∀ q ∈ rest, q.name ≠ p.name := by
      intro q hq heq
      have hfind := hunused.2 q.name (List.mem_map_of_mem hq)
      rw [heq, Sorted.find?_set_self] at hfind
      cases hfind
    obtain ⟨frame', used', hrest, hagree', hlocal⟩ := outcome_bindParams unit functions
      (entries ++ [(p.name, p.binding)]) (symbol :: used) hknown hunused
      (by simpa using hagree.bind hentry p.binding) fun q hq => by
        simp [List.lookup_append, hentries q hq, List.lookup_cons, beq_false_of_ne (hnames q hq)]
    refine ⟨frame', used', ?_, by simpa using hagree', fun h => hlocal (h.set p.name p.binding)⟩
    rw [bindParams, Walk.outcome_bind_of_ok (outcome_bindParamName hsymbol htype hnew)]
    exact hrest

/-- Parameters of one name are rejected. -/
theorem bindParams_duplicate (unit : String) (functions : List String) (outer : Frames) :
    ∀ (params : List Param) (frame : Frame) (used : List String), ParamsKnown params →
      ¬ Unused (params.map Param.name) frame →
      ∃ name span s, (bindParams params).outcome ⟨frame :: outer, ⟨unit, functions, used⟩⟩ =
        (.error ⟨.duplicateDefinition name, some span⟩, s)
  | [], frame, used, _, h => absurd ⟨List.nodup_nil, by simp⟩ h
  | p :: rest, frame, used, hknown, h => by
    obtain ⟨⟨hsymbol, htype⟩, hknown⟩ := List.forall_mem_cons.mp hknown
    obtain ⟨symbol, hsymbol⟩ := Option.isSome_iff_exists.mp hsymbol
    cases hfind : Sorted.find? p.name frame.names with
    | some _ =>
      exact ⟨_, _, _, by
        rw [bindParams, Walk.outcome_bind_of_error
          (outcome_bindParamName_of_isSome hsymbol htype (by simp [hfind]))]⟩
    | none =>
      rw [List.map_cons, Unused.cons (.binding p.binding)] at h
      obtain ⟨name, span, s, hrest⟩ := bindParams_duplicate unit functions outer rest _
        (symbol :: used) hknown fun hrest => h ⟨hfind, hrest⟩
      exact ⟨name, span, s, by
        rw [bindParams, Walk.outcome_bind_of_ok (outcome_bindParamName hsymbol htype hfind), hrest]⟩

/-! ## 6. Functions and items -/

/-- What binding names makes of an item that has its symbol. -/
inductive ResolvedItem (env : Env) : Program.Item → Program.Item → Prop
  | use {name : String} {span : Span} : ResolvedItem env (.use name span) (.use name span)
  | constant {name : String} {ty : TypeExpr} {value : Expr} {symbol : Option String} {span : Span} :
      value.Linked {} → ResolvedItem env (.constant name ty value symbol span)
        (.constant name ty (value.bindIn env) symbol span)
  | global {d : Let} : d.value.Linked {} →
      ResolvedItem env (.global (.decl d)) (.global (.decl { d with value := d.value.bindIn env }))
  | function {f : Function} {symbol : String} {body : Stmts} {frame : Frame} : f.symbol = some symbol →
      Resolved symbol (f.paramEnv ++ env) f.body body → frame.Local →
      ResolvedItem env (.function f) (.function { f with body := body, frame := frame })

namespace ResolvedItem

variable {i i' : Program.Item} (h : ResolvedItem env i i')
include h

theorem binding? : i'.binding? = i.binding? := by
  cases h <;> rfl

theorem erase : i'.erase = i.erase := by
  cases h with
  | use => rfl
  | constant _ => simp [Item.erase, Expr.erase_bindIn]
  | global _ => simp [Item.erase, Stmt.erase, Let.erase, Expr.erase_bindIn]
  | function _ hbody _ => simp [Item.erase, Function.erase, hbody.erase]

theorem lexical : i'.Lexical env := by
  cases h with
  | use => trivial
  | constant hvalue => exact Expr.boundBy_bindIn env hvalue
  | global hvalue => exact Expr.boundBy_bindIn env hvalue
  | function _ hbody _ => exact hbody.lexical

theorem frames : ∀ frame ∈ i'.frames, frame.Local := by
  cases h with
  | function _ hbody hframe => exact List.forall_mem_cons.mpr ⟨hframe, hbody.frames⟩
  | _ => simp [Item.frames, Stmt.frames]

end ResolvedItem

/-- A function that can be visited: its parameters have symbols and types, its declarations open scopes
and have types. -/
structure FunctionReady (f : Function) : Prop where
  params : ∀ p ∈ f.params.map Prod.fst, p.ty.type?.isSome = true
  frame : f.frame = {}
  layered : f.body.Layered
  linked : f.body.Linked {}
  lets : ∀ d ∈ f.body.lets, d.ty.type?.isSome = true

theorem unused_empty {names : List String} : Unused names {} ↔ names.Nodup :=
  ⟨fun h => h.1, fun h => ⟨h, fun _ _ => rfl⟩⟩

/-- **A function** whose parameters have different names. -/
theorem outcome_function (unit : String) (functions used : List String) {f : Function} {symbol : String}
    (hready : FunctionReady f) (hsymbol : f.symbol = some symbol)
    (hsymbols : ∀ p ∈ f.params.map Prod.fst, p.symbol.isSome = true) (hnodup : f.paramNames.Nodup)
    (hagree : outer.Agree env) :
    ∃ i' used', (f.mapUp visitor).outcome ⟨outer, ⟨unit, functions, used⟩⟩ =
        (.ok i', ⟨outer, ⟨unit, functions, used'⟩⟩) ∧ ResolvedItem env (.function f) i' := by
  obtain ⟨frame, used1, hparams, hinside, hlocal⟩ := outcome_bindParams unit functions [] used
    (fun p hp => ⟨hsymbols p hp, hready.params p hp⟩)
    (unused_empty.mpr hnodup) hagree.opened fun _ _ => rfl
  obtain ⟨body, used2, hbody, hresolved⟩ := mapUp_layered unit symbol functions used1
    hready.layered hready.linked hready.lets hinside
  have henter : (visitor.enterFunction f).outcome ⟨outer, ⟨unit, functions, used⟩⟩ =
      (.ok (), ⟨frame :: outer, ⟨unit, symbol :: functions, used1⟩⟩) := by
    change Walk.outcome (Nested.open_ f.frame >>= fun _ => inner.enterFunction f) _ = _
    rw [Walk.outcome_bind_of_ok (Nested.outcome_open _ _), hready.frame]
    simp only [inner, hsymbol]
    rw [Nested.pushed, Walk.outcome_bind_of_ok hparams]
    rfl
  refine ⟨.function { f with body := body, frame := frame.above f.frame }, used2, ?_,
    .function hsymbol hresolved ((hlocal Frame.local_empty).above (hready.frame ▸ Frame.local_empty))⟩
  rw [Function.mapUp, Walk.outcome_bind_of_ok henter, Params.mapUp_pure rfl, pure_bind,
    visitResult_pure rfl, pure_bind, Walk.outcome_bind_of_ok hbody]
  rfl

/-- A function two of whose parameters have one name. -/
theorem function_duplicate (unit : String) (functions used : List String) (outer : Frames) {f : Function} {symbol : String}
    (hready : FunctionReady f) (hsymbol : f.symbol = some symbol)
    (hsymbols : ∀ p ∈ f.params.map Prod.fst, p.symbol.isSome = true) (hdup : ¬ f.paramNames.Nodup) :
    ∃ name span s, (f.mapUp visitor).outcome ⟨outer, ⟨unit, functions, used⟩⟩ =
      (.error ⟨.duplicateDefinition name, some span⟩, s) := by
  obtain ⟨name, span, s, hparams⟩ := bindParams_duplicate unit functions outer (f.params.map Prod.fst) {}
    used (fun p hp => ⟨hsymbols p hp, hready.params p hp⟩) fun h => hdup h.1
  refine ⟨name, span, s, ?_⟩
  rw [Function.mapUp]
  refine Walk.outcome_bind_of_error ?_
  change Walk.outcome (Nested.open_ f.frame >>= fun _ => inner.enterFunction f) _ = _
  rw [Walk.outcome_bind_of_ok (Nested.outcome_open _ _), hready.frame]
  simp only [inner, hsymbol]
  exact Walk.outcome_bind_of_error hparams

/-- An item whose types are known and whose scopes are explicit, and which is not bound. -/
def ItemReady : Program.Item → Prop
  | .use _ _ => True
  | .constant _ ty value _ _ => ty.type?.isSome = true ∧ value.Linked {}
  | .global (.decl d) => d.ty.type?.isSome = true ∧ d.value.Linked {}
  | .function f => FunctionReady f
  | _ => False

/-- An item that has its symbols. -/
def ItemNamed : Program.Item → Prop
  | .function f => f.symbol.isSome = true ∧ ∀ p ∈ f.params.map Prod.fst, p.symbol.isSome = true
  | _ => True

/-- **An item** of the unit. -/
theorem outcome_item (unit : String) (used : List String) {i : Program.Item} (hready : ItemReady i)
    (hnamed : ItemNamed i) (hdiffer : i.ParamsDiffer) (hagree : outer.Agree env) :
    ∃ i' used', (i.mapUp visitor).outcome ⟨outer, ⟨unit, [], used⟩⟩ =
        (.ok (some i'), ⟨outer, ⟨unit, [], used'⟩⟩) ∧ ResolvedItem env i i' := by
  cases i with
  | use name span => exact ⟨_, used, rfl, .use⟩
  | constant name ty value symbol span =>
    refine ⟨_, used, ?_, .constant hready.2⟩
    rw [Item.mapUp, show visitor.type = pure from rfl, TypeExpr.mapUp_pure, pure_bind,
      Walk.outcome_bind_of_ok (outcome_expr hagree value)]
    rfl
  | global st =>
    cases st with
    | decl d =>
      refine ⟨_, used, ?_, .global hready.2⟩
      rw [Item.mapUp, Walk.outcome_map, Stmt.mapUp, Let.mapUp, show visitor.type = pure from rfl,
        TypeExpr.mapUp_pure, pure_bind, Walk.outcome_bind_of_ok (outcome_expr hagree d.value)]
      rfl
    | _ => cases hready
  | function f =>
    obtain ⟨symbol, hsymbol⟩ := Option.isSome_iff_exists.mp hnamed.1
    obtain ⟨i', used', hrun, hresolved⟩ := outcome_function unit [] used
      hready hsymbol hnamed.2 hdiffer hagree
    refine ⟨i', used', ?_, hresolved⟩
    rw [Item.mapUp, Walk.outcome_map, hrun]
    rfl
  | compiled _ _ _ _ _ => cases hready

/-- **Items** of the unit. -/
theorem outcome_items (unit : String) : ∀ {items : Items} (used : List String),
    (∀ entry ∈ items, ItemReady entry.1 ∧ ItemNamed entry.1 ∧ entry.1.ParamsDiffer) →
    outer.Agree env →
    ∃ items' used', (Items.mapUp visitor items).outcome ⟨outer, ⟨unit, [], used⟩⟩ =
        (.ok items', ⟨outer, ⟨unit, [], used'⟩⟩) ∧
      List.Forall₂ (ResolvedItem env) (items.map (·.1)) (items'.map (·.1))
  | [], used, _, _ => ⟨[], used, rfl, .nil⟩
  | (i, span) :: rest, used, hitems, hagree => by
    obtain ⟨⟨hready, hnamed, hdiffer⟩, hrestItems⟩ := List.forall_mem_cons.mp hitems
    obtain ⟨i', used', hi, hresolved⟩ := outcome_item unit used hready hnamed
      hdiffer hagree
    obtain ⟨rest', used'', hrest, hresolved'⟩ := outcome_items unit used' hrestItems hagree
    refine ⟨(i', span) :: rest', used'', ?_, .cons hresolved hresolved'⟩
    rw [Items.mapUp, Walk.outcome_bind_of_ok hi, Walk.outcome_bind_of_ok hrest]
    rfl

/-- Items among which there is a function with two parameters of one name. -/
theorem items_duplicate (unit : String) : ∀ {items : Items} (used : List String),
    (∀ entry ∈ items, ItemReady entry.1 ∧ ItemNamed entry.1) →
    (¬ ∀ entry ∈ items, entry.1.ParamsDiffer) → outer.Agree env →
    ∃ name span s, (Items.mapUp visitor items).outcome ⟨outer, ⟨unit, [], used⟩⟩ =
      (.error ⟨.duplicateDefinition name, some span⟩, s)
  | [], used, _, h, _ => absurd (by simp) h
  | (i, span) :: rest, used, hitems, hdup, hagree => by
    obtain ⟨⟨hready, hnamed⟩, hrestItems⟩ := List.forall_mem_cons.mp hitems
    by_cases hdiffer : i.ParamsDiffer
    · obtain ⟨i', used', hi, -⟩ := outcome_item unit used hready hnamed hdiffer
        hagree
      obtain ⟨name, place, s, hrest⟩ := items_duplicate unit used' hrestItems
        (fun h => hdup (List.forall_mem_cons.mpr ⟨hdiffer, h⟩)) hagree
      refine ⟨name, place, s, ?_⟩
      rw [Items.mapUp, Walk.outcome_bind_of_ok hi, Walk.outcome_bind_of_error hrest]
    · cases i with
      | function f =>
        obtain ⟨symbol, hsymbol⟩ := Option.isSome_iff_exists.mp hnamed.1
        obtain ⟨name, place, s, hf⟩ := function_duplicate unit [] used outer
          hready hsymbol hnamed.2 hdiffer
        refine ⟨name, place, s, ?_⟩
        rw [Items.mapUp]
        refine Walk.outcome_bind_of_error ?_
        rw [Item.mapUp, Walk.outcome_map, hf]
        rfl
      | _ => exact absurd trivial hdiffer

/-! ## 7. The declarations of the unit -/

/-- The name that an item declares in its unit. -/
def declares? : Program.Item → Option String
  | .constant name _ _ _ _ => some name
  | .global (.decl d) => some d.name
  | .function f => some f.name
  | _ => none

/-- A function with its symbol and those of its parameters. -/
def nameFunction (symbol : String) (f : Function) : Function :=
  { f with
    symbol := some symbol
    params := Params.ofList ((f.params.map Prod.fst).map fun p =>
      { p with symbol := some (symbol ++ "." ++ p.name) }) }

/-- An item with a symbol. -/
def withSymbol (symbol : String) : Program.Item → Program.Item
  | .constant name ty value _ span => .constant name ty value (some symbol) span
  | .global (.decl d) =>
    .global (.decl { d with symbol := some symbol, place := some (placeOf d.storage .data) })
  | .function f => .function (nameFunction symbol f)
  | i => i

/-- An item with the symbol of its name. -/
def nameItem (unit : String) (i : Program.Item) : Program.Item :=
  withSymbol (unit ++ "." ++ (declares? i).getD "") i

/-- A symbol does not matter for whether an item can be visited. -/
theorem nameItem_ready {i : Program.Item} (h : ItemReady i) : ItemReady (nameItem unit i) := by
  cases i with
  | global s =>
    cases s with
    | decl d => exact h
    | _ => cases h
  | function f =>
    refine ⟨fun p hp => ?_, h.frame, h.layered, h.linked, h.lets⟩
    rw [nameFunction, Params.map_fst_ofList] at hp
    obtain ⟨q, hq, rfl⟩ := List.mem_map.mp hp
    exact h.params q hq
  | _ => exact h

theorem nameItem_named {i : Program.Item} (h : ItemReady i) : ItemNamed (nameItem unit i) := by
  cases i with
  | global s =>
    cases s with
    | decl d => trivial
    | _ => cases h
  | function f =>
    refine ⟨rfl, fun p hp => ?_⟩
    rw [nameFunction, Params.map_fst_ofList] at hp
    obtain ⟨q, hq, rfl⟩ := List.mem_map.mp hp
    rfl
  | _ => trivial

theorem nameItem_erase (i : Program.Item) : (nameItem unit i).erase = i.erase := by
  cases i with
  | global s =>
    cases s with
    | decl d => rfl
    | _ => rfl
  | function f =>
    simp only [nameItem, withSymbol, Item.erase, Function.erase, nameFunction, Params.map_fst_ofList,
      List.map_map]
    rfl
  | _ => rfl

theorem nameItem_differ (i : Program.Item) : (nameItem unit i).ParamsDiffer ↔ i.ParamsDiffer := by
  cases i with
  | global s => cases s <;> rfl
  | function f =>
    simp only [nameItem, withSymbol, Item.ParamsDiffer, Function.paramNames, nameFunction,
      Params.map_fst_ofList, List.map_map]
    rfl
  | _ => rfl

theorem freshSymbol_eq {used : List String} {base : String} (h : base ∉ used) :
    freshSymbol used base = base := by
  rw [freshSymbol, freshFrom_succ, if_neg (by simpa [candidate] using h)]
  rfl

/-- A symbol of the unit can always be taken, and it is the name behind the unit if that is free. -/
theorem outcome_takeUnitFresh (unit name : String) (frames : Frames) (functions used : List String) :
    ∃ symbol, (takeUnitFresh name).outcome ⟨frames, ⟨unit, functions, used⟩⟩ =
        (.ok symbol, ⟨frames, ⟨unit, functions, symbol :: used⟩⟩) ∧
      (unit ++ "." ++ name ∉ used → symbol = unit ++ "." ++ name) :=
  ⟨_, rfl, freshSymbol_eq⟩

/-- Parameters whose types are known get their symbols. -/
theorem nameAll_eq (symbol : String) : ∀ {params : List Param},
    (∀ p ∈ params, p.ty.type?.isSome = true) → nameAll symbol params = .ok (params.map fun p =>
      ({ p with symbol := some (symbol ++ "." ++ p.name) }, p.ty.type?.getD .void))
  | [], _ => rfl
  | p :: rest, h => by
    obtain ⟨hp, hrest⟩ := List.forall_mem_cons.mp h
    rw [nameAll, knownType_eq hp, ok_bind, nameAll_eq symbol hrest]
    rfl

/-- The binding of a function whose parameters have these symbols. -/
theorem functionBinding_eq (symbol : String) (f : Function) :
    functionBinding f symbol ((f.params.map Prod.fst).map fun p =>
      ({ p with symbol := some (symbol ++ "." ++ p.name) }, p.ty.type?.getD .void)) =
      (nameFunction symbol f).binding := by
  simp only [functionBinding, Function.binding, nameFunction, symbolsOf, Params.map_fst_ofList,
    List.map_map]
  rfl

/-- Binding an item of the unit takes a symbol and binds a name. -/
theorem outcome_bindItemName (unit : String) (frame : Frame) (outer : Frames) (used : List String)
    {i : Program.Item} {name : String}
    (hready : ItemReady i) (hname : declares? i = some name) :
    ∃ symbol b span, (unit ++ "." ++ name ∉ used → symbol = unit ++ "." ++ name) ∧
      (withSymbol symbol i).binding? = some (name, b) ∧
      (bindItemName i).outcome ⟨frame :: outer, ⟨unit, [], used⟩⟩ =
        (bindName name b span >>= fun _ => pure (withSymbol symbol i) : Binds Program.Item).outcome
          ⟨frame :: outer, ⟨unit, [], symbol :: used⟩⟩ := by
  obtain ⟨symbol, htake, hsymbol⟩ := outcome_takeUnitFresh unit name (frame :: outer) []
    used
  cases i with
  | use _ _ => cases hname
  | constant name' ty value old span =>
    obtain rfl := Option.some.inj hname
    refine ⟨symbol, _, span, hsymbol, rfl, ?_⟩
    rw [bindItemName, Walk.outcome_bind_of_ok htake, knownType_eq hready.1, Walk.lift_ok, pure_bind]
    rfl
  | global st =>
    cases st with
    | decl d =>
      obtain rfl := Option.some.inj hname
      refine ⟨symbol, _, d.span, hsymbol, rfl, ?_⟩
      rw [bindItemName, Walk.outcome_bind_of_ok htake, bindLet, knownType_eq hready.1, Walk.lift_ok,
        pure_bind, bind_assoc]
      simp only [pure_bind]
      rfl
    | _ => cases hname
  | function f =>
    obtain rfl := Option.some.inj hname
    refine ⟨symbol, (nameFunction symbol f).binding, f.span, hsymbol, rfl, ?_⟩
    rw [bindItemName, map_eq_pure_bind, bindFunctionName, bind_assoc, Walk.outcome_bind_of_ok htake,
      nameAll_eq symbol hready.params, Walk.lift_ok, pure_bind, bind_assoc, functionBinding_eq]
    simp only [pure_bind, withSymbol, nameFunction, List.map_map, Function.comp_def]
  | compiled _ _ _ _ _ => cases hname

/-- A frame in which more names are bound. -/
structure Grows (frame frame' : Frame) : Prop where
  constants : frame'.constants = frame.constants
  units : ∀ entry ∈ frame'.names, ∀ u, entry.2 = .unit u → entry ∈ frame.names

theorem Grows.refl (frame : Frame) : Grows frame frame := ⟨rfl, fun _ hentry _ _ => hentry⟩

theorem Grows.set {frame' : Frame} {name : String} {b : Binding}
    (h : Grows { frame with names := Sorted.set name (.binding b) frame.names } frame') :
    Grows frame frame' := by
  refine ⟨h.constants, fun entry hentry u hu => ?_⟩
  rcases Sorted.mem_set (h.units entry hentry u hu) with rfl | hmem
  · cases hu
  · exact hmem

theorem Grows.above {frame' : Frame} (h : Grows frame frame') : Grows frame (frame'.above frame) := by
  refine ⟨by simp [Frame.above, h.constants], fun entry hentry u hu => ?_⟩
  exact (Frame.mem_above hentry).elim (fun hmem => h.units entry hmem u hu) id

/-- **The declarations of the unit** are bound before anything in them is visited. -/
theorem outcome_bindItems (unit : String) (outer : Frames) (env : Env) :
    ∀ {items : List Program.Item} {frame : Frame} (entries : Env)
    (used : List String), (∀ i ∈ items, ItemReady i) → Unused (items.filterMap declares?) frame →
    Frames.Agree (frame :: outer) (entries ++ env) →
    (∀ name ∈ items.filterMap declares?, entries.lookup name = none ∧ unit ++ "." ++ name ∉ used) →
    ∃ frame' used', (bindItems items).outcome ⟨frame :: outer, ⟨unit, [], used⟩⟩ =
        (.ok (items.map (nameItem unit)), ⟨frame' :: outer, ⟨unit, [], used'⟩⟩) ∧
      Frames.Agree (frame' :: outer) (entries ++ Items.env (items.map (nameItem unit)) ++ env) ∧
      Grows frame frame'
  | [], frame, entries, used, _, _, hagree, _ =>
    ⟨frame, used, rfl, by simpa [Items.env] using hagree, .refl frame⟩
  | i :: rest, frame, entries, used, hready, hunused, hagree, hnew => by
    obtain ⟨hi, hrestReady⟩ := List.forall_mem_cons.mp hready
    cases hname : declares? i with
    | none =>
      -- the item declares nothing, so it stays as it is and takes no name
      have hitem : bindItemName i = pure i ∧ nameItem unit i = i ∧ i.binding? = none := by
        cases i with
        | global st =>
          cases st with
          | decl d => cases hname
          | _ => exact ⟨rfl, rfl, rfl⟩
        | use _ _ | compiled _ _ _ _ _ => exact ⟨rfl, rfl, rfl⟩
        | constant _ _ _ _ _ | function _ => cases hname
      obtain ⟨hpure, hsame, hnone⟩ := hitem
      rw [List.filterMap_cons_none hname] at hunused hnew
      obtain ⟨frame', used', hrest, hagree', hgrows⟩ :=
        outcome_bindItems unit outer env entries used hrestReady hunused hagree hnew
      refine ⟨frame', used', ?_, ?_, hgrows⟩
      · rw [bindItems, hpure, pure_bind, Walk.outcome_bind_of_ok hrest, List.map_cons, hsame]
        rfl
      · rwa [List.map_cons, hsame, Items.env, List.filterMap_cons_none hnone]
    | some name =>
      rw [List.filterMap_cons_some hname] at hunused hnew
      obtain ⟨⟨hentry, hfresh⟩, hnew⟩ := List.forall_mem_cons.mp hnew
      obtain ⟨symbol, b, span, hsymbol, hbinding, hbind⟩ := outcome_bindItemName unit
        frame outer used hi hname
      obtain rfl := hsymbol hfresh
      have hnamed : nameItem unit i = withSymbol (unit ++ "." ++ name) i := by rw [nameItem, hname]; rfl
      obtain ⟨hfind, hunused⟩ := (Unused.cons (.binding b)).mp hunused
      -- the names behind it differ from this one, so they are unused in the larger frame too
      have hother : ∀ other ∈ rest.filterMap declares?, other ≠ name := by
        rintro other hother rfl
        have hset := hunused.2 other hother
        rw [Sorted.find?_set_self] at hset
        cases hset
      obtain ⟨frame', used', hrest, hagree', hgrows⟩ := outcome_bindItems unit outer env
        (entries ++ [(name, b)]) ((unit ++ "." ++ name) :: used) hrestReady hunused
        (by simpa using hagree.bind hentry b) fun other hmem => by
          refine ⟨by simp [List.lookup_append, (hnew other hmem).1, List.lookup_cons,
            beq_false_of_ne (hother other hmem)], fun hused => ?_⟩
          rcases List.mem_cons.mp hused with heq | hused
          · exact hother other hmem ((String.append_right_inj _).mp heq)
          · exact (hnew other hmem).2 hused
      refine ⟨frame', used', ?_, ?_, hgrows.set⟩
      · have hhead : (bindItemName i).outcome ⟨frame :: outer, ⟨unit, [], used⟩⟩ =
            (.ok (nameItem unit i), ⟨{ frame with
              names := Sorted.set name (.binding b) frame.names } :: outer,
              ⟨unit, [], (unit ++ "." ++ name) :: used⟩⟩) := by
          rw [hbind, Walk.outcome_bind_of_ok (outcome_bindName hfind), hnamed]
          rfl
        rw [bindItems, Walk.outcome_bind_of_ok hhead, Walk.outcome_bind_of_ok hrest]
        rfl
      · rw [List.map_cons, Items.env, hnamed, List.filterMap_cons_some hbinding]
        simpa [Items.env] using hagree'

/-- A name that is declared twice in the unit is rejected. -/
theorem bindItems_duplicate (unit : String) (outer : Frames) :
    ∀ {items : List Program.Item} {frame : Frame} (used : List String),
    (∀ i ∈ items, ItemReady i) → ¬ Unused (items.filterMap declares?) frame →
    ∃ name span s, (bindItems items).outcome ⟨frame :: outer, ⟨unit, [], used⟩⟩ =
      (.error ⟨.duplicateDefinition name, some span⟩, s)
  | [], frame, used, _, h => absurd ⟨List.nodup_nil, by simp⟩ h
  | i :: rest, frame, used, hready, h => by
    obtain ⟨hi, hrestReady⟩ := List.forall_mem_cons.mp hready
    cases hname : declares? i with
    | none =>
      have hitem : bindItemName i = pure i := by
        cases i with
        | global st =>
          cases st with
          | decl d => cases hname
          | _ => rfl
        | use _ _ | compiled _ _ _ _ _ => rfl
        | constant _ _ _ _ _ | function _ => cases hname
      rw [List.filterMap_cons_none hname] at h
      obtain ⟨name, span, s, hrest⟩ := bindItems_duplicate unit outer used hrestReady h
      exact ⟨name, span, s, by
        rw [bindItems, hitem, pure_bind, Walk.outcome_bind_of_error hrest]⟩
    | some name =>
      obtain ⟨symbol, b, span, -, -, hbind⟩ := outcome_bindItemName unit frame outer used
        hi hname
      cases hfind : Sorted.find? name frame.names with
      | some _ =>
        -- the name is taken, so this is the item that is refused
        refine ⟨name, span, ⟨frame :: outer, ⟨unit, [], symbol :: used⟩⟩, ?_⟩
        rw [bindItems]
        refine Walk.outcome_bind_of_error ?_
        rw [hbind]
        exact Walk.outcome_bind_of_error (outcome_bindName_of_isSome (by simp [hfind]))
      | none =>
        -- the name is new, so the duplicate comes later
        rw [List.filterMap_cons_some hname, Unused.cons (.binding b)] at h
        obtain ⟨name', span', s, hrest⟩ := bindItems_duplicate unit outer (symbol :: used) hrestReady
          fun hrest => h ⟨hfind, hrest⟩
        refine ⟨name', span', s, ?_⟩
        have hhead : (bindItemName i).outcome ⟨frame :: outer, ⟨unit, [], used⟩⟩ =
            (.ok (withSymbol symbol i), ⟨{ frame with
              names := Sorted.set name (.binding b) frame.names } :: outer,
              ⟨unit, [], symbol :: used⟩⟩) := by
          rw [hbind, Walk.outcome_bind_of_ok (outcome_bindName hfind)]
          rfl
        rw [bindItems, Walk.outcome_bind_of_ok hhead, Walk.outcome_bind_of_error hrest]

/-! ## 8. The unit -/

/-- A program whose names can be bound. -/
def ProgramReady (p : Program) : Prop := ∀ i ∈ p.items.map (·.1), ItemReady i

/-- The names that the items of a program declare. -/
def declaredNames (p : Program) : List String := (p.items.map (·.1)).filterMap declares?

/-- A frame without bindings agrees with the empty environment. -/
theorem agree_of_linked (h : frame.Linked {}) : Frames.Agree [frame] [] := by
  intro name
  simp only [Frames.lookup?, List.findSome?_cons, List.findSome?_nil, List.lookup_nil]
  cases hfind : Sorted.find? name frame.names with
  | none => rfl
  | some named =>
    cases named with
    | unit u => rfl
    | binding b => exact absurd (h _ (Sorted.mem_of_find? hfind) b rfl) (Binding.not_linked_empty b)

/-- **Entering the unit** gives its items their symbols. -/
theorem outcome_enterUnit (unit : String) {p : Program} (hready : ProgramReady p) (hframe : p.frame.Linked {})
    (hunused : Unused (declaredNames p) p.frame) :
    ∃ p' frame used, (visitor.enterUnit p).outcome ⟨[], ⟨unit, [], []⟩⟩ =
        (.ok p', ⟨[frame], ⟨unit, [], used⟩⟩) ∧
      p'.items.map (·.1) = (p.items.map (·.1)).map (nameItem unit) ∧
      (p'.span = p.span ∧ p'.frame = p.frame) ∧
      Frames.Agree [frame] (Items.env (p'.items.map (·.1))) ∧ Grows p.frame frame := by
  obtain ⟨frame, used, hbind, hagree, hgrows⟩ := outcome_bindItems unit [] [] [] []
    hready hunused (agree_of_linked hframe) fun _ _ => ⟨rfl, by simp⟩
  rw [List.nil_append, List.append_nil] at hagree
  change ∃ p' frame used, Walk.outcome (Nested.open_ p.frame >>= fun _ => inner.enterUnit p) _ = _ ∧ _
  rw [Walk.outcome_bind_of_ok (Nested.outcome_open _ _)]
  simp only [inner]
  cases hitems : p.items with
  | nil =>
    refine ⟨p, p.frame, [], rfl, by simp [hitems], ⟨rfl, rfl⟩, ?_, .refl _⟩
    rw [hitems]
    exact agree_of_linked hframe
  | cons entry rest =>
    refine ⟨{ p with items := Items.ofList ((p.items.map (·.1)).map (nameItem unit)) }, frame, used, ?_,
      ?_, ⟨rfl, rfl⟩, ?_, hgrows⟩
    · rw [if_neg (by simp), ← hitems, Nested.pushed, Walk.outcome_bind_of_ok hbind, hitems]
      rfl
    · simp [hitems]
    · simpa using hagree

/-- A unit in which a name is declared twice is rejected when it is entered. -/
theorem enterUnit_duplicate (unit : String) {p : Program} (hready : ProgramReady p)
    (hdup : ¬ Unused (declaredNames p) p.frame) :
    ∃ name span s, (visitor.enterUnit p).outcome ⟨[], ⟨unit, [], []⟩⟩ =
      (.error ⟨.duplicateDefinition name, some span⟩, s) := by
  obtain ⟨name, span, s, hbind⟩ := bindItems_duplicate unit [] [] hready hdup
  refine ⟨name, span, s, ?_⟩
  change Walk.outcome (Nested.open_ p.frame >>= fun _ => inner.enterUnit p) _ = _
  rw [Walk.outcome_bind_of_ok (Nested.outcome_open _ _)]
  have hne : p.items.isEmpty = false := by
    rw [Bool.eq_false_iff]
    intro h
    refine hdup ?_
    rw [declaredNames, List.isEmpty_iff.mp h]
    exact ⟨List.nodup_nil, by simp⟩
  simp only [inner, hne, Bool.false_eq_true, if_false]
  exact Walk.outcome_bind_of_error hbind

/-- No name is declared twice, in the unit or among the parameters of a function. -/
def Distinct (p : Program) : Prop :=
  Unused (declaredNames p) p.frame ∧ ∀ i ∈ p.items.map (·.1), i.ParamsDiffer

/-- What holds of items with their symbols. -/
theorem forall_named {p p' : Program} {P : Program.Item → Prop}
    (hitems : p'.items.map (·.1) = (p.items.map (·.1)).map (nameItem unit)) :
    (∀ entry ∈ p'.items, P entry.1) ↔ ∀ i ∈ p.items.map (·.1), P (nameItem unit i) := by
  have hall : (∀ i ∈ p'.items.map (·.1), P i) ↔ ∀ i ∈ p.items.map (·.1), P (nameItem unit i) := by
    rw [hitems, List.forall_mem_map]
  rwa [List.forall_mem_map] at hall

/-- Resolving items does not change what they bind. -/
theorem env_of_resolved {items items' : List Program.Item}
    (h : List.Forall₂ (ResolvedItem env) items items') : Items.env items' = Items.env items := by
  induction h with
  | nil => rfl
  | cons hi _ ih =>
    simp only [Items.env] at ih ⊢
    rw [List.filterMap_cons, List.filterMap_cons, hi.binding?, ih]

theorem erase_of_resolved {items items' : List Program.Item}
    (h : List.Forall₂ (ResolvedItem env) items items') :
    items'.map Item.erase = items.map Item.erase := by
  induction h with
  | nil => rfl
  | cons hi _ ih => rw [List.map_cons, List.map_cons, hi.erase, ih]

/-- **Names that are declared once.** -/
theorem mapUp_resolved (unit : String) {p : Program} (hp : p.Unbound) (hready : ProgramReady p) (h : Distinct p) :
    ∃ q : Program, ((p.mapUp visitor).outcome ⟨[], unit, [], []⟩).1 = .ok q ∧
      (q.span = p.span ∧ Grows p.frame q.frame) ∧
      List.Forall₂ (ResolvedItem (Items.env (q.items.map (·.1))))
        ((p.items.map (·.1)).map (nameItem unit)) (q.items.map (·.1)) := by
  obtain ⟨p1, frame, used, henter, hitems, ⟨hspan, hframe⟩, hagree, hgrows⟩ :=
    outcome_enterUnit unit hready hp.frame h.1
  obtain ⟨items, used', hrun, hresolved⟩ := outcome_items unit used
    ((forall_named (P := fun i => ItemReady i ∧ ItemNamed i ∧ i.ParamsDiffer) hitems).mpr fun i hi =>
      ⟨nameItem_ready (hready i hi), nameItem_named (hready i hi), (nameItem_differ i).mpr (h.2 i hi)⟩)
    hagree
  have henv := env_of_resolved hresolved
  refine ⟨{ p1 with items := items, frame := frame.above p1.frame }, ?_, ⟨hspan, ?_⟩, ?_⟩
  · rw [Program.mapUp, Walk.outcome_bind_of_ok henter, Walk.outcome_bind_of_ok hrun]
    rfl
  · rw [hframe]
    exact hgrows.above
  · rw [← hitems]
    change List.Forall₂ (ResolvedItem (Items.env (items.map (·.1)))) _ _
    rw [henv]
    exact hresolved

/-- **A name that is declared twice** is rejected. -/
theorem runPass_duplicate (unit : String) {p : Program} (hp : p.Unbound) (hready : ProgramReady p)
    (h : ¬ Distinct p) : ∃ name span, Compiler.runPass unit p.node pass =
      .error ⟨.duplicateDefinition name, some span⟩ := by
  by_cases hunused : Unused (declaredNames p) p.frame
  · obtain ⟨p1, frame, used, henter, hitems, -, hagree, -⟩ :=
      outcome_enterUnit unit hready hp.frame hunused
    obtain ⟨name, span, s, hrun⟩ := items_duplicate unit used
      ((forall_named (P := fun i => ItemReady i ∧ ItemNamed i) hitems).mpr fun i hi =>
        ⟨nameItem_ready (hready i hi), nameItem_named (hready i hi)⟩)
      (fun hall => h ⟨hunused, fun i hi => (nameItem_differ i).mp ((forall_named hitems).mp hall i hi)⟩)
      hagree
    refine ⟨name, span, ?_⟩
    rw [runPass unit hp.source, Program.mapUp, Walk.outcome_bind_of_ok henter,
      Walk.outcome_bind_of_error hrun]
    rfl
  · obtain ⟨name, span, s, henter⟩ := enterUnit_duplicate unit hready hunused
    refine ⟨name, span, ?_⟩
    rw [runPass unit hp.source, Program.mapUp, Walk.outcome_bind_of_error henter]
    rfl

/-- **Binding names is lexical scoping.** -/
theorem runPass_lexical {p : Program} (hp : p.Unbound) (hready : ProgramReady p) (h : Distinct p) :
    ∃ q : Program, Compiler.runPass unit p.node pass = .ok q.node ∧ q.IsSource ∧ q.Lexical ∧
      q.erase = p.erase := by
  obtain ⟨q, hrun, ⟨hspan, -⟩, hresolved⟩ := mapUp_resolved unit hp hready h
  refine ⟨q, ?_, (bound hp hrun).1, fun i' hi' => ?_, ?_⟩
  · rw [runPass unit hp.source, hrun]
    rfl
  · obtain ⟨i, -, hi⟩ := exists_of_mem_right hresolved hi'
    exact hi.lexical
  · have herase : (q.items.map (·.1)).map Item.erase = (p.items.map (·.1)).map Item.erase := by
      rw [erase_of_resolved hresolved, List.map_map]
      exact List.map_congr_left fun i _ => nameItem_erase i
    rw [Program.erase, Program.erase, herase, hspan]

end Lode.BindNames
