/-
# Programs alike

What a visitor leaves of a program has mostly the form that the program had, with other parts in it.
`Alike` says this of expressions and statements, for parts that are related in a given way.

A relation that holds between a node and what the visitor makes of it, once it holds between the parts,
holds between whole expressions (`Expr.mapUp_rel`) and statements (`Steady.mapUp_stmts`).  This is the one
induction over expressions that the passes which rewrite them share: each pass then only has to look at a
single node.

A visitor is steady if what it does to statements can be read off the state it is in (`Steady`).  It may
change the state on the way into a scope, and undoes this on the way out, so that a list of statements
leaves the state as it was.  What a pass needs to know of the state is a property of states, and one of the
frames of scopes, which it has to keep (`Steady.Keeps`).  Most passes need nothing, and then both are
trivial.

Items are different, since passes drop some of them: constants that are computed and units that are
resolved. `Items.Related` pairs the items that are left with those before and lets items of a given kind go.
The relations compose along the passes of a schedule (section 6).
-/
import Lode.Proofs.Program.Visit
import Lode.Proofs.Tree.Outcome

namespace Lode.Program

variable {σ : Type} {Rel : Expr → Expr → Prop}

/-! ## 1. Expressions -/

/-- Arguments related one by one. -/
inductive Args.Alike (Rel : Expr → Expr → Prop) : Args → Args → Prop
  | nil : Args.Alike Rel .nil .nil
  | cons {arg arg' : Expr} {rest rest' : Args} {span : Span} : Rel arg arg' →
      Args.Alike Rel rest rest' → Args.Alike Rel (.cons arg rest span) (.cons arg' rest' span)

/-- Whether an expression has no parts. -/
def Expr.isLeaf : Expr → Bool
  | .number _ _ _ | .string _ _ _ | .ident _ _ _ _ | .intrinsic _ _ _ | .cell _ _ _ _
  | .immediate _ _ _ | .returned _ _ => true
  | _ => false

/-- Expressions of one form with related parts. -/
inductive Expr.Alike (Rel : Expr → Expr → Prop) : Expr → Expr → Prop
  | leaf {e : Expr} : e.isLeaf = true → Expr.Alike Rel e e
  | member {target target' : Expr} {name : String} {span : Span} : Rel target target' →
      Expr.Alike Rel (.member target name span) (.member target' name span)
  | call {target target' : Expr} {args args' : Args} {callee : Option Binding} {type : Option Ty}
      {span : Span} : Rel target target' → Args.Alike Rel args args' →
      Expr.Alike Rel (.call target args callee type span) (.call target' args' callee type span)
  | binop {op : String} {lhs lhs' rhs rhs' : Expr} {type : Option Ty} {span : Span} :
      Rel lhs lhs' → Rel rhs rhs' →
      Expr.Alike Rel (.binop op lhs rhs type span) (.binop op lhs' rhs' type span)
  | neg {operand operand' : Expr} {type : Option Ty} {span : Span} : Rel operand operand' →
      Expr.Alike Rel (.neg operand type span) (.neg operand' type span)
  | deref {target target' : Expr} {type : Option Ty} {span : Span} : Rel target target' →
      Expr.Alike Rel (.deref target type span) (.deref target' type span)
  | paren {inner inner' : Expr} {span : Span} : Rel inner inner' →
      Expr.Alike Rel (.paren inner span) (.paren inner' span)

theorem Args.Alike.imp {Rel' : Expr → Expr → Prop} (h : ∀ {e e' : Expr}, Rel e e' → Rel' e e')
    {args args' : Args} (hargs : args.Alike Rel args') : args.Alike Rel' args' := by
  induction hargs with
  | nil => exact .nil
  | cons harg _ ih => exact .cons (h harg) ih

/-- Expressions are alike in a weaker way too. -/
theorem Expr.Alike.imp {Rel' : Expr → Expr → Prop} (h : ∀ {e e' : Expr}, Rel e e' → Rel' e e')
    {e e' : Expr} (halike : e.Alike Rel e') : e.Alike Rel' e' := by
  cases halike with
  | leaf hleaf => exact .leaf hleaf
  | member ht => exact .member (h ht)
  | call ht hargs => exact .call (h ht) (hargs.imp h)
  | binop hl hr => exact .binop (h hl) (h hr)
  | neg ho => exact .neg (h ho)
  | deref ht => exact .deref (h ht)
  | paren hi => exact .paren (h hi)

mutual

/-- **Rewriting an expression.**  A relation between expressions and what a rewriting makes of them
has to be shown for one node only. -/
theorem Expr.mapUp_rel {f : Expr → Except Error Expr}
    (step : ∀ {e e' e'' : Expr}, e.Alike Rel e' → f e' = .ok e'' → Rel e e'') :
    ∀ {e e' : Expr}, e.mapUp f = .ok e' → Rel e e'
  | .number _ _ _, _, h => step (.leaf rfl) h
  | .string _ _ _, _, h => step (.leaf rfl) h
  | .ident _ _ _ _, _, h => step (.leaf rfl) h
  | .member target name span, e', h => by
    obtain ⟨target', htarget, h⟩ := bind_eq_ok.mp h
    exact step (.member (Expr.mapUp_rel step htarget)) h
  | .intrinsic _ _ _, _, h => step (.leaf rfl) h
  | .call target args callee type span, e', h => by
    obtain ⟨args', hargs, h⟩ := bind_eq_ok.mp h
    obtain ⟨target', htarget, h⟩ := bind_eq_ok.mp h
    exact step (.call (Expr.mapUp_rel step htarget) (Args.mapUp_rel step hargs)) h
  | .binop op lhs rhs type span, e', h => by
    obtain ⟨lhs', hlhs, h⟩ := bind_eq_ok.mp h
    obtain ⟨rhs', hrhs, h⟩ := bind_eq_ok.mp h
    exact step (.binop (Expr.mapUp_rel step hlhs) (Expr.mapUp_rel step hrhs)) h
  | .neg operand type span, e', h => by
    obtain ⟨operand', hoperand, h⟩ := bind_eq_ok.mp h
    exact step (.neg (Expr.mapUp_rel step hoperand)) h
  | .deref target type span, e', h => by
    obtain ⟨target', htarget, h⟩ := bind_eq_ok.mp h
    exact step (.deref (Expr.mapUp_rel step htarget)) h
  | .paren inner span, e', h => by
    obtain ⟨inner', hinner, h⟩ := bind_eq_ok.mp h
    exact step (.paren (Expr.mapUp_rel step hinner)) h
  | .cell _ _ _ _, _, h => step (.leaf rfl) h
  | .immediate _ _ _, _, h => step (.leaf rfl) h
  | .returned _ _, _, h => step (.leaf rfl) h

/-- Arguments are rewritten one by one. -/
theorem Args.mapUp_rel {f : Expr → Except Error Expr}
    (step : ∀ {e e' e'' : Expr}, e.Alike Rel e' → f e' = .ok e'' → Rel e e'') :
    ∀ {args args' : Args}, args.mapUp f = .ok args' → args.Alike Rel args'
  | .nil, args', h => by
    obtain rfl : Args.nil = args' := Except.ok.inj h
    exact .nil
  | .cons arg rest span, args', h => by
    obtain ⟨arg', harg, h⟩ := bind_eq_ok.mp h
    obtain ⟨rest', hrest, h⟩ := bind_eq_ok.mp h
    obtain rfl := Except.ok.inj h
    exact .cons (Expr.mapUp_rel step harg) (Args.mapUp_rel step hrest)

end

/-! ## 2. Rewritings that only read the state -/

section Reading

variable (f : σ → Expr → Except Error Expr) (s : σ)

mutual

/-- Reading the state for every node is reading it once, since it stays the same. -/
theorem Expr.outcome_mapUp : ∀ e : Expr,
    (e.mapUp fun e => Walk.reading (f · e)).outcome s = (e.mapUp (f s), s)
  | .number _ _ _ => rfl
  | .string _ _ _ => rfl
  | .ident _ _ _ _ => rfl
  | .member target _ _ =>
    Walk.outcome_bind_steady (Expr.outcome_mapUp target) fun _ => Walk.outcome_reading _
  | .intrinsic _ _ _ => rfl
  | .call target args _ _ _ =>
    Walk.outcome_bind_steady (Args.outcome_mapUp args) fun _ =>
      Walk.outcome_bind_steady (Expr.outcome_mapUp target) fun _ => Walk.outcome_reading _
  | .binop _ lhs rhs _ _ =>
    Walk.outcome_bind_steady (Expr.outcome_mapUp lhs) fun _ =>
      Walk.outcome_bind_steady (Expr.outcome_mapUp rhs) fun _ => Walk.outcome_reading _
  | .neg operand _ _ =>
    Walk.outcome_bind_steady (Expr.outcome_mapUp operand) fun _ => Walk.outcome_reading _
  | .deref target _ _ =>
    Walk.outcome_bind_steady (Expr.outcome_mapUp target) fun _ => Walk.outcome_reading _
  | .paren inner _ =>
    Walk.outcome_bind_steady (Expr.outcome_mapUp inner) fun _ => Walk.outcome_reading _
  | .cell _ _ _ _ => rfl
  | .immediate _ _ _ => rfl
  | .returned _ _ => rfl

theorem Args.outcome_mapUp : ∀ args : Args,
    (args.mapUp fun e => Walk.reading (f · e)).outcome s = (args.mapUp (f s), s)
  | .nil => rfl
  | .cons arg rest _ =>
    Walk.outcome_bind_steady (Expr.outcome_mapUp arg) fun _ =>
      Walk.outcome_bind_steady (Args.outcome_mapUp rest) fun _ => Walk.outcome_pure _

end

end Reading

section Pure

variable {m : Type → Type} [Monad m] [LawfulMonad m]

mutual

/-- A rewriting that leaves every node leaves the expression. -/
theorem Expr.mapUp_pure : ∀ e : Expr, e.mapUp (pure : Expr → m Expr) = pure e
  | .number _ _ _ => rfl
  | .string _ _ _ => rfl
  | .ident _ _ _ _ => rfl
  | .member target _ _ => by rw [Expr.mapUp, Expr.mapUp_pure target, pure_bind]
  | .intrinsic _ _ _ => rfl
  | .call target args _ _ _ => by
    rw [Expr.mapUp, Args.mapUp_pure args, pure_bind, Expr.mapUp_pure target, pure_bind]
  | .binop _ lhs rhs _ _ => by
    rw [Expr.mapUp, Expr.mapUp_pure lhs, pure_bind, Expr.mapUp_pure rhs, pure_bind]
  | .neg operand _ _ => by rw [Expr.mapUp, Expr.mapUp_pure operand, pure_bind]
  | .deref target _ _ => by rw [Expr.mapUp, Expr.mapUp_pure target, pure_bind]
  | .paren inner _ => by rw [Expr.mapUp, Expr.mapUp_pure inner, pure_bind]
  | .cell _ _ _ _ => rfl
  | .immediate _ _ _ => rfl
  | .returned _ _ => rfl

theorem Args.mapUp_pure : ∀ args : Args, args.mapUp (pure : Expr → m Expr) = pure args
  | .nil => rfl
  | .cons arg rest _ => by
    rw [Args.mapUp, Expr.mapUp_pure arg, pure_bind, Args.mapUp_pure rest, pure_bind]

end

end Pure

theorem TypeExpr.mapUp_pure : ∀ t : TypeExpr, t.mapUp (pure : TypeExpr → Walk σ TypeExpr) = pure t
  | .name _ _ => rfl
  | .ref target _ => by rw [TypeExpr.mapUp, TypeExpr.mapUp_pure target, pure_bind]
  | .info _ _ => rfl

section TypesStay

variable {v : Visitor σ} (htype : v.type = pure)
include htype

theorem Params.mapUp_pure : ∀ params : Params, Params.mapUp v params = pure params
  | [] => rfl
  | entry :: rest => by
    rw [Params.mapUp, Param.mapUp, htype, TypeExpr.mapUp_pure, Params.mapUp_pure rest]
    simp only [pure_bind]

theorem visitResult_pure (result : Option TypeExpr) : visitResult v result = pure result := by
  cases result with
  | none => rfl
  | some t => rw [visitResult, htype, TypeExpr.mapUp_pure, map_pure]

/-- A visitor that leaves types and expressions does to a declaration what it does to declarations. -/
theorem Let.mapUp_pure (hexpr : v.expr = pure) (d : Let) : d.mapUp v = v.decl d := by
  rw [Let.mapUp, htype, TypeExpr.mapUp_pure, pure_bind, hexpr, pure_bind]

end TypesStay

/-! ## 3. Statements -/

/-- The type that is written, whether it was read or not. -/
def TypeExpr.denotes : TypeExpr → Option Ty
  | .name n _ => Ty.ofName? n
  | .ref target _ => target.denotes.map .ref
  | .info type _ => some type

theorem TypeExpr.denotes_of_type? {ty : TypeExpr} {type : Ty} (h : ty.type? = some type) :
    ty.denotes = some type := by
  cases ty with
  | info _ _ => exact h
  | _ => cases h

/-- Expressions of the same type, which is read in the second if it is in the first. -/
structure TypeExpr.Same (t t' : TypeExpr) : Prop where
  type : ∀ {type : Ty}, t.type? = some type → t'.type? = some type
  denotes : t'.denotes = t.denotes

theorem TypeExpr.Same.refl (t : TypeExpr) : t.Same t := ⟨id, rfl⟩

theorem TypeExpr.Same.trans {t t' t'' : TypeExpr} (h : t.Same t') (h' : t'.Same t'') : t.Same t'' :=
  ⟨fun ht => h'.type (h.type ht), h'.denotes.trans h.denotes⟩

/-- Declarations of the same variable. -/
structure Let.Same (d d' : Let) : Prop where
  name : d'.name = d.name
  storage : d'.storage = d.storage
  symbol : d'.symbol = d.symbol
  place : d'.place = d.place
  ty : d.ty.Same d'.ty
  typed : ∀ {type : Ty}, d'.type = some type → d.type = some type ∨ d'.ty.type? = some type

theorem Let.Same.refl (d : Let) : d.Same d := ⟨rfl, rfl, rfl, rfl, .refl d.ty, .inl⟩

theorem Let.Same.trans {d d' d'' : Let} (h : d.Same d') (h' : d'.Same d'') : d.Same d'' :=
  ⟨h'.name.trans h.name, h'.storage.trans h.storage, h'.symbol.trans h.symbol,
    h'.place.trans h.place, h.ty.trans h'.ty, fun ht => by
      rcases h'.typed ht with ht | ht
      · exact (h.typed ht).imp id h'.ty.type
      · exact .inr ht⟩

/-- Whether a statement is a declaration. -/
def Stmt.isDecl : Stmt → Bool
  | .decl _ => true
  | _ => false

mutual

/-- Whether a statement has a form in which statements are written, with scopes. -/
def Stmt.isSource : Stmt → Bool
  | .decl _ | .set _ _ _ _ | .ret _ _ _ | .expr _ => true
  | .scope decl body _ _ => decl.isDecl && body.isSource
  | _ => false

/-- Whether all statements have such a form. -/
def Stmts.isSource : Stmts → Bool
  | .nil => true
  | .cons stmt rest _ => stmt.isSource && rest.isSource

end

mutual

/-- Statements of one form with related expressions. -/
inductive Stmt.Alike (Rel : Expr → Expr → Prop) : Stmt → Stmt → Prop
  | decl {d d' : Let} : Rel d.value d'.value → d.Same d' → Stmt.Alike Rel (.decl d) (.decl d')
  | set {lvalue lvalue' rvalue rvalue' : Expr} {type type' : Option Ty} {span : Span} :
      Rel lvalue lvalue' → Rel rvalue rvalue' →
      Stmt.Alike Rel (.set lvalue rvalue type span) (.set lvalue' rvalue' type' span)
  | ret {value value' : Option Expr} {type type' : Option Ty} {span : Span} :
      Option.Rel Rel value value' → Stmt.Alike Rel (.ret value type span) (.ret value' type' span)
  | expr {e e' : Expr} : Rel e e' → Stmt.Alike Rel (.expr e) (.expr e')
  | scope {decl decl' : Stmt} {body body' : Stmts} {frame : Frame} {span : Span} :
      Stmt.Alike Rel decl decl' → Stmts.Alike Rel body body' →
      Stmt.Alike Rel (.scope decl body frame span) (.scope decl' body' frame span)

/-- Statements related one by one. -/
inductive Stmts.Alike (Rel : Expr → Expr → Prop) : Stmts → Stmts → Prop
  | nil : Stmts.Alike Rel .nil .nil
  | cons {stmt stmt' : Stmt} {rest rest' : Stmts} {span : Span} : Stmt.Alike Rel stmt stmt' →
      Stmts.Alike Rel rest rest' → Stmts.Alike Rel (.cons stmt rest span) (.cons stmt' rest' span)

end

mutual

/-- The frames of the scopes in a statement. -/
def Stmt.frames : Stmt → List Frame
  | .scope decl body frame _ => frame :: (decl.frames ++ body.frames)
  | _ => []

/-- The frames of the scopes in statements. -/
def Stmts.frames : Stmts → List Frame
  | .nil => []
  | .cons stmt rest _ => stmt.frames ++ rest.frames

end

mutual

/-- Statements alike have the same scopes. -/
theorem Stmt.Alike.frames_eq : ∀ {s s' : Stmt}, s.Alike Rel s' → s'.frames = s.frames
  | _, _, .decl _ _ => rfl
  | _, _, .set _ _ => rfl
  | _, _, .ret _ => rfl
  | _, _, .expr _ => rfl
  | _, _, .scope hdecl hbody => by
    rw [Stmt.frames, Stmt.frames, Stmt.Alike.frames_eq hdecl, Stmts.Alike.frames_eq hbody]

theorem Stmts.Alike.frames_eq : ∀ {s s' : Stmts}, s.Alike Rel s' → s'.frames = s.frames
  | _, _, .nil => rfl
  | _, _, .cons hstmt hrest => by
    rw [Stmts.frames, Stmts.frames, Stmt.Alike.frames_eq hstmt, Stmts.Alike.frames_eq hrest]

end

theorem Stmt.isSource_of_isDecl {s : Stmt} (h : s.isDecl = true) : s.isSource = true := by
  cases s with
  | decl d => rfl
  | _ => cases h

theorem Stmt.Alike.isDecl {s s' : Stmt} (h : s.Alike Rel s') (hs : s.isDecl = true) :
    s'.isDecl = true := by
  cases h with
  | decl _ _ => rfl
  | _ => cases hs

mutual

/-- Statements alike are written in the same forms. -/
theorem Stmt.Alike.isSource : ∀ {s s' : Stmt}, s.Alike Rel s' → s.isSource = true → s'.isSource = true
  | _, _, .decl _ _, _ => rfl
  | _, _, .set _ _, _ => rfl
  | _, _, .ret _, _ => rfl
  | _, _, .expr _, _ => rfl
  | _, _, .scope hdecl hbody, h => by
    obtain ⟨hd, hb⟩ := Bool.and_eq_true_iff.mp h
    exact Bool.and_eq_true_iff.mpr ⟨hdecl.isDecl hd, Stmts.Alike.isSource hbody hb⟩

theorem Stmts.Alike.isSource : ∀ {s s' : Stmts}, s.Alike Rel s' → s.isSource = true →
    s'.isSource = true
  | _, _, .nil, _ => rfl
  | _, _, .cons hstmt hrest, h => by
    obtain ⟨hs, hr⟩ := Bool.and_eq_true_iff.mp h
    exact Bool.and_eq_true_iff.mpr ⟨Stmt.Alike.isSource hstmt hs, Stmts.Alike.isSource hrest hr⟩

end

/-! ## 4. Visitors that only read the state in functions -/

/-- In statements a visitor does what can be read off the state: `expr` to expressions, `decl` to
declarations, `stmt` to the other statements.  Entering a scope may change the state; leaving it
undoes this. -/
structure Steady (v : Visitor σ) (expr : σ → Expr → Except Error Expr)
    (decl : σ → Let → Except Error Let) (stmt : σ → Stmt → Except Error Stmt)
    (push : Frame → σ → σ) : Prop where
  type : ∀ (t : TypeExpr) (s : σ), ((v.type t).outcome s).2 = s
  expr : v.expr = Expr.mapUp fun e => Walk.reading (expr · e)
  decl : ∀ (d : Let) (s : σ), (v.decl d).outcome s = (Stmt.decl <$> decl s d, s)
  stmt : ∀ (st : Stmt) (s : σ), (v.stmt st).outcome s = (stmt s st, s)
  enterScope : ∀ (d : Stmt) (b : Stmts) (frame : Frame) (span : Span) (s : σ),
    (v.enterScope d b frame span).outcome s = (.ok (), push frame s)
  exitScope : ∀ (d : Stmt) (b : Stmts) (frame : Frame) (span : Span) (s : σ),
    (v.exitScope d b frame span).outcome (push frame s) = (.ok (.scope d b frame span), s)
  cell : v.cell = fun st rest span => pure (.cons st rest span)
  itemCell : v.itemCell = fun i rest span => pure ((i, span) :: rest)

/-- A rewriting that leaves the state at every type leaves it in the end. -/
theorem TypeExpr.outcome_mapUp {f : TypeExpr → Walk σ TypeExpr}
    (hf : ∀ (t : TypeExpr) (s : σ), ((f t).outcome s).2 = s) :
    ∀ (t : TypeExpr) (s : σ), ((t.mapUp f).outcome s).2 = s
  | .name n span, s => hf (.name n span) s
  | .info type span, s => hf (.info type span) s
  | .ref target span, s => by
    have ih := outcome_mapUp hf target s
    rw [TypeExpr.mapUp]
    cases hw : (target.mapUp f).outcome s with
    | mk x s1 =>
      rw [hw] at ih
      obtain rfl : s1 = s := ih
      cases x with
      | ok t => exact (congrArg Prod.snd (Walk.outcome_bind_of_ok hw)).trans (hf (.ref t span) s1)
      | error e => exact congrArg Prod.snd (Walk.outcome_bind_of_error hw)

namespace Steady

variable {v : Visitor σ} {expr : σ → Expr → Except Error Expr} {decl : σ → Let → Except Error Let}
  {stmt : σ → Stmt → Except Error Stmt} {push : Frame → σ → σ} {I : σ → Prop}
  {Q : Frame → Prop}

/-- A steady visitor rewrites an expression in the state it is in, and leaves the state. -/
theorem mapUp_expr (h : Steady v expr decl stmt push) {e e' : Expr} {s s' : σ}
    (hrun : (v.expr e).outcome s = (.ok e', s')) : e.mapUp (expr s) = .ok e' ∧ s' = s := by
  rw [h.expr, Expr.outcome_mapUp, Prod.mk.injEq] at hrun
  exact ⟨hrun.1, hrun.2.symm⟩

/-- What a visitor has to do to the parts of statements, so that statements stay alike: `I` holds of
the states it is in, `Q` of the frames of scopes. -/
structure Keeps (v : Visitor σ) (expr : σ → Expr → Except Error Expr)
    (decl : σ → Let → Except Error Let) (stmt : σ → Stmt → Except Error Stmt) (push : Frame → σ → σ)
    (Rel : Expr → Expr → Prop) (I : σ → Prop) (Q : Frame → Prop) : Prop where
  type : ∀ {t t' : TypeExpr} {s s' : σ}, (v.type t).outcome s = (.ok t', s') → t.Same t'
  expr : ∀ {s : σ} {e e' : Expr}, I s → e.mapUp (expr s) = .ok e' → Rel e e'
  decl : ∀ {s : σ} {d d' : Let}, decl s d = .ok d' → d'.value = d.value ∧ d.Same d'
  set : ∀ {s : σ} {lvalue rvalue : Expr} {type : Option Ty} {span : Span} {st' : Stmt},
    stmt s (.set lvalue rvalue type span) = .ok st' → ∃ type', st' = .set lvalue rvalue type' span
  ret : ∀ {s : σ} {value : Option Expr} {type : Option Ty} {span : Span} {st' : Stmt},
    stmt s (.ret value type span) = .ok st' → ∃ type', st' = .ret value type' span
  push : ∀ {frame : Frame} {s : σ}, Q frame → I s → I (push frame s)

/-- What a pass leaves of an expression: every node is rewritten, in some state. -/
def Rewritten (expr : σ → Expr → Except Error Expr) (e e' : Expr) : Prop :=
  ∃ s, e.mapUp (expr s) = .ok e'

/-- What a pass leaves of an expression, in a state of which something is known. -/
def RewrittenIn (I : σ → Prop) (expr : σ → Expr → Except Error Expr) (e e' : Expr) : Prop :=
  ∃ s, I s ∧ e.mapUp (expr s) = .ok e'

theorem RewrittenIn.rewritten {e e' : Expr} (h : RewrittenIn I expr e e') : Rewritten expr e e' :=
  h.imp fun _ hs => hs.2

/-- A visitor that keeps statements alike leaves rewritten expressions in them. -/
theorem Keeps.rewrittenIn (hk : Keeps v expr decl stmt push Rel I Q) :
    Keeps v expr decl stmt push (RewrittenIn I expr) I Q :=
  { hk with expr := fun hI h => ⟨_, hI, h⟩ }

/-- A visitor that keeps statements alike leaves rewritten expressions in them, in some state. -/
theorem Keeps.rewritten (hk : Keeps v expr decl stmt push Rel I Q) :
    Keeps v expr decl stmt push (Rewritten expr) I Q :=
  { hk with expr := fun _ h => ⟨_, h⟩ }

theorem mapUp_type (h : Steady v expr decl stmt push) {t : TypeExpr} {s s' : σ}
    {x : Except Error TypeExpr} (hrun : (t.mapUp v.type).outcome s = (x, s')) : s' = s := by
  have hs := TypeExpr.outcome_mapUp h.type t s
  rwa [hrun] at hs

theorem Keeps.mapUp_type (hk : Keeps v expr decl stmt push Rel I Q) :
    ∀ {t t' : TypeExpr} {s s' : σ}, (t.mapUp v.type).outcome s = (.ok t', s') → t.Same t'
  | .name _ _, _, _, _, hrun => hk.type hrun
  | .info _ _, _, _, _, hrun => hk.type hrun
  | .ref target span, t', s, s', hrun => by
    obtain ⟨target', s1, htarget, hrun⟩ := Walk.outcome_bind_eq_ok.mp hrun
    have hinner := Keeps.mapUp_type hk htarget
    have houter := hk.type hrun
    refine ⟨fun ht => (by cases ht), ?_⟩
    rw [houter.denotes, TypeExpr.denotes, TypeExpr.denotes, hinner.denotes]

/-- A declaration is left as one of the same variable. -/
theorem mapUp_decl (h : Steady v expr decl stmt push) (hk : Keeps v expr decl stmt push Rel I Q)
    {d : Let} {st' : Stmt} {s s' : σ} (hI : I s) (hrun : (d.mapUp v).outcome s = (.ok st', s')) :
    s' = s ∧ ∃ d', st' = .decl d' ∧ Rel d.value d'.value ∧ d.Same d' := by
  obtain ⟨ty, s1, hty, hrest⟩ := Walk.outcome_bind_eq_ok.mp hrun
  obtain rfl := h.mapUp_type hty
  obtain ⟨value, s2, hvalue, hleft⟩ := Walk.outcome_bind_eq_ok.mp hrest
  obtain ⟨hvalue, rfl⟩ := h.mapUp_expr hvalue
  rw [h.decl, Prod.mk.injEq] at hleft
  obtain ⟨hd, rfl⟩ := hleft
  obtain ⟨d', hd', rfl⟩ := map_eq_ok.mp hd
  obtain ⟨hv, hsame⟩ := hk.decl hd'
  have hsame' : d.Same { d with ty := ty, value := value } :=
    ⟨rfl, rfl, rfl, rfl, hk.mapUp_type hty, .inl⟩
  exact ⟨rfl, d', rfl, hv ▸ hk.expr hI hvalue, hsame'.trans hsame⟩

mutual

/-- Visiting one statement, with all that is nested in it. -/
theorem mapUp_stmt (h : Steady v expr decl stmt push) (hk : Keeps v expr decl stmt push Rel I Q) :
    ∀ {st st' : Stmt} {s s' : σ}, I s → st.isSource = true → (∀ frame ∈ st.frames, Q frame) →
      (st.mapUp v).outcome s = (.ok st', s') → s' = s ∧ st.Alike Rel st'
  | .decl d, st', s, s', hI, _, _, hrun => by
    obtain ⟨hs, d', rfl, hvalue, hsame⟩ := h.mapUp_decl hk hI hrun
    exact ⟨hs, .decl hvalue hsame⟩
  | .set lvalue rvalue type span, st', s, s', hI, _, _, hrun => by
    obtain ⟨lvalue', _, hl, hrest⟩ := Walk.outcome_bind_eq_ok.mp hrun
    obtain ⟨hl, rfl⟩ := h.mapUp_expr hl
    obtain ⟨rvalue', _, hr, hleft⟩ := Walk.outcome_bind_eq_ok.mp hrest
    obtain ⟨hr, rfl⟩ := h.mapUp_expr hr
    rw [h.stmt, Prod.mk.injEq] at hleft
    obtain ⟨hst, rfl⟩ := hleft
    obtain ⟨type', rfl⟩ := hk.set hst
    exact ⟨rfl, .set (hk.expr hI hl) (hk.expr hI hr)⟩
  | .ret none type span, st', s, s', hI, _, _, hrun => by
    change (v.stmt (.ret none type span)).outcome s = _ at hrun
    rw [h.stmt, Prod.mk.injEq] at hrun
    obtain ⟨hst, rfl⟩ := hrun
    obtain ⟨type', rfl⟩ := hk.ret hst
    exact ⟨rfl, .ret .none⟩
  | .ret (some value) type span, st', s, s', hI, _, _, hrun => by
    obtain ⟨value', _, hvalue, hleft⟩ := Walk.outcome_bind_eq_ok.mp hrun
    obtain ⟨hvalue, rfl⟩ := h.mapUp_expr hvalue
    rw [h.stmt, Prod.mk.injEq] at hleft
    obtain ⟨hst, rfl⟩ := hleft
    obtain ⟨type', rfl⟩ := hk.ret hst
    exact ⟨rfl, .ret (.some (hk.expr hI hvalue))⟩
  | .expr e, st', s, s', hI, _, _, hrun => by
    rw [Stmt.mapUp, Walk.outcome_map, Prod.mk.injEq] at hrun
    obtain ⟨e', he, rfl⟩ := map_eq_ok.mp hrun.1
    obtain ⟨he, hs⟩ := h.mapUp_expr (Prod.ext he hrun.2 : (v.expr e).outcome s = (.ok e', s'))
    exact ⟨hs, .expr (hk.expr hI he)⟩
  | .scope d body frame span, st', s, s', hI, hsource, hQ, hrun => by
    obtain ⟨hsd, hsb⟩ := Bool.and_eq_true_iff.mp hsource
    have hframe : Q frame := hQ frame (by simp [Stmt.frames])
    rw [Stmt.mapUp, Walk.outcome_bind_of_ok (h.enterScope d body frame span s)] at hrun
    obtain ⟨d', _, hd, hrest⟩ := Walk.outcome_bind_eq_ok.mp hrun
    obtain ⟨rfl, hdecl⟩ := mapUp_stmt h hk (hk.push hframe hI) (Stmt.isSource_of_isDecl hsd)
      (fun fr hfr => hQ fr (by simp [Stmt.frames, hfr])) hd
    obtain ⟨body', _, hbody, hleft⟩ := Walk.outcome_bind_eq_ok.mp hrest
    obtain ⟨rfl, hinside⟩ := mapUp_stmts h hk (hk.push hframe hI) hsb
      (fun fr hfr => hQ fr (by simp [Stmt.frames, hfr])) hbody
    rw [h.exitScope, Prod.mk.injEq, Except.ok.injEq] at hleft
    obtain ⟨rfl, rfl⟩ := hleft
    exact ⟨rfl, .scope hdecl hinside⟩
  | .data _, _, _, _, _, hsource, _, _ | .load _ _ _, _, _, _, _, hsource, _, _
  | .store _ _ _, _, _, _, _, hsource, _, _ | .arith _ _ _ _, _, _, _, _, hsource, _, _
  | .jump _ _, _, _, _, _, hsource, _, _ | .rts _, _, _, _, _, hsource, _, _
  | .code _ _, _, _, _, _, hsource, _, _ => by simp [Stmt.isSource] at hsource

/-- **Visiting statements.**  The state is the same afterwards, and the statements are alike. -/
theorem mapUp_stmts (h : Steady v expr decl stmt push) (hk : Keeps v expr decl stmt push Rel I Q) :
    ∀ {stmts stmts' : Stmts} {s s' : σ}, I s → stmts.isSource = true →
      (∀ frame ∈ stmts.frames, Q frame) →
      (stmts.mapUp v).outcome s = (.ok stmts', s') → s' = s ∧ stmts.Alike Rel stmts'
  | .nil, stmts', s, s', _, _, _, hrun => by
    simp only [Stmts.mapUp, Walk.outcome_pure, Prod.mk.injEq, Except.ok.injEq] at hrun
    obtain ⟨rfl, rfl⟩ := hrun
    exact ⟨rfl, .nil⟩
  | .cons stmt rest span, stmts', s, s', hI, hsource, hQ, hrun => by
    obtain ⟨hss, hsr⟩ := Bool.and_eq_true_iff.mp hsource
    obtain ⟨stmt', _, hstmt, hrest⟩ := Walk.outcome_bind_eq_ok.mp hrun
    obtain ⟨rfl, hhead⟩ := mapUp_stmt h hk hI hss
      (fun fr hfr => hQ fr (by simp [Stmts.frames, hfr])) hstmt
    obtain ⟨rest', _, hrest, hleft⟩ := Walk.outcome_bind_eq_ok.mp hrest
    obtain ⟨rfl, htail⟩ := mapUp_stmts h hk hI hsr
      (fun fr hfr => hQ fr (by simp [Stmts.frames, hfr])) hrest
    rw [h.cell, Walk.outcome_pure, Prod.mk.injEq, Except.ok.injEq] at hleft
    obtain ⟨rfl, rfl⟩ := hleft
    exact ⟨rfl, .cons hhead htail⟩

end

end Steady

/-! ## 5. Functions and items -/

/-- Declarations of the same parameter. -/
structure Param.Same (p p' : Param) : Prop where
  name : p'.name = p.name
  symbol : p'.symbol = p.symbol
  ty : p.ty.Same p'.ty

/-- Functions of one form with related expressions. -/
structure Function.Alike (Rel : Expr → Expr → Prop) (f f' : Function) : Prop where
  name : f'.name = f.name
  symbol : f'.symbol = f.symbol
  params : List.Forall₂ Param.Same (f.params.map Prod.fst) (f'.params.map Prod.fst)
  body : f.body.Alike Rel f'.body
  locals : f'.locals = f.locals
  frame : f'.frame = f.frame

/-- Items of one form with related expressions. -/
inductive Item.Alike (Rel : Expr → Expr → Prop) : Item → Item → Prop
  | use {name : String} {span : Span} : Item.Alike Rel (.use name span) (.use name span)
  | constant {name : String} {ty ty' : TypeExpr} {value value' : Expr} {symbol : Option String}
      {span : Span} : Rel value value' → ty.Same ty' →
      Item.Alike Rel (.constant name ty value symbol span) (.constant name ty' value' symbol span)
  | global {d d' : Let} : Rel d.value d'.value → d.Same d' →
      Item.Alike Rel (.global (.decl d)) (.global (.decl d'))
  | function {f f' : Function} : f.Alike Rel f' → Item.Alike Rel (.function f) (.function f')

/-- Declarations of the same variable with related initial values. -/
structure Let.Alike (Rel : Expr → Expr → Prop) (d d' : Let) : Prop where
  value : Rel d.value d'.value
  same : d.Same d'

/-- Items related one by one, where some are dropped. -/
inductive Items.Related (drops : Item → Prop) (R : Item → Item → Prop) : Items → Items → Prop
  | nil : Items.Related drops R [] []
  | cons {item item' : Item} {span : Span} {rest rest' : Items} : R item item' →
      Items.Related drops R rest rest' →
      Items.Related drops R ((item, span) :: rest) ((item', span) :: rest')
  | drop {item : Item} {span : Span} {rest rest' : Items} : drops item →
      Items.Related drops R rest rest' → Items.Related drops R ((item, span) :: rest) rest'

theorem Items.Related.imp {drops : Item → Prop} {R R' : Item → Item → Prop}
    (hR : ∀ {i i' : Item}, R i i' → R' i i') {items items' : Items}
    (h : Items.Related drops R items items') : Items.Related drops R' items items' := by
  induction h with
  | nil => exact .nil
  | cons hitem _ ih => exact .cons (hR hitem) ih
  | drop hdrop _ ih => exact .drop hdrop ih

/-- Whether an item has a form in which items are written. -/
def Item.isSource : Item → Bool
  | .use _ _ | .constant _ _ _ _ _ | .global (.decl _) => true
  | .function f => f.body.isSource && f.locals.isNone
  | _ => false

/-- Whether an item is visited as a whole: one that is neither a variable nor a function. -/
def Item.isWhole : Item → Bool
  | .use _ _ | .constant _ _ _ _ _ => true
  | _ => false

/-- The frames of an item. -/
def Item.frames : Item → List Frame
  | .function f => f.frame :: f.body.frames
  | .global s => s.frames
  | _ => []

/-- The frames of items. -/
def Items.frames (items : Items) : List Frame := items.flatMap fun entry => entry.1.frames

theorem Item.Alike.frames_eq {i i' : Item} (h : i.Alike Rel i') : i'.frames = i.frames := by
  cases h with
  | function hf => rw [Item.frames, Item.frames, hf.frame, hf.body.frames_eq]
  | _ => rfl

theorem Item.Alike.isSource {i i' : Item} (h : i.Alike Rel i') (hi : i.isSource = true) :
    i'.isSource = true := by
  cases h with
  | function hf =>
    obtain ⟨hbody, hlocals⟩ := Bool.and_eq_true_iff.mp hi
    exact Bool.and_eq_true_iff.mpr ⟨hf.body.isSource hbody, hf.locals ▸ hlocals⟩
  | _ => rfl

/-- What is left of items has no other frames. -/
theorem Items.Related.frames_subset {drops : Item → Prop} {items items' : Items}
    (h : Items.Related drops (Item.Alike Rel) items items') : Items.frames items' ⊆ Items.frames items := by
  induction h with
  | nil => exact List.Subset.refl _
  | cons hitem _ ih =>
    simp only [Items.frames, List.flatMap_cons] at ih ⊢
    rw [hitem.frames_eq]
    exact List.append_subset.mpr ⟨List.subset_append_left _ _, List.subset_append_of_subset_right _ ih⟩
  | drop _ _ ih => exact fun frame hframe => List.mem_append_right _ (ih hframe)

/-- The partner of an item that is left. -/
theorem Items.Related.exists_of_mem_left {drops : Item → Prop} {R : Item → Item → Prop}
    {items items' : Items} (h : Items.Related drops R items items') {item' : Item}
    (hitem : item' ∈ items'.map (·.1)) : ∃ item ∈ items.map (·.1), R item item' := by
  induction h with
  | nil => simp at hitem
  | cons hrel _ ih =>
    rcases List.mem_cons.mp hitem with rfl | hitem
    · exact ⟨_, List.mem_cons_self, hrel⟩
    · obtain ⟨item, hmem, hrel⟩ := ih hitem
      exact ⟨item, List.mem_cons_of_mem _ hmem, hrel⟩
  | drop _ _ ih =>
    obtain ⟨item, hmem, hrel⟩ := ih hitem
    exact ⟨item, List.mem_cons_of_mem _ hmem, hrel⟩

namespace Steady

variable {v : Visitor σ} {expr : σ → Expr → Except Error Expr} {decl : σ → Let → Except Error Let}
  {stmt : σ → Stmt → Except Error Stmt} {push : Frame → σ → σ} {I : σ → Prop}
  {Q : Frame → Prop} {drops : Item → Prop}

/-- What a visitor has to do to functions, so that they stay alike: leaving a function undoes what
entering it did to the state. -/
structure KeepsFunctions (v : Visitor σ) (I : σ → Prop) (Q : Frame → Prop) : Prop where
  enter : ∀ {f : Function} {s s1 : σ}, Q f.frame → I s →
    (v.enterFunction f).outcome s = (.ok (), s1) → I s1
  exit : ∀ {f g : Function} {i : Item} {s s1 s2 : σ},
    (v.enterFunction f).outcome s = (.ok (), s1) → g.frame = f.frame →
    (v.exitFunction g).outcome s1 = (.ok i, s2) → s2 = s ∧ ∃ g' : Function, i = .function g' ∧
      g'.name = g.name ∧ g'.symbol = g.symbol ∧ g'.params = g.params ∧ g'.body = g.body ∧
      g'.locals = g.locals ∧ g'.frame = g.frame

/-- Parameters are left as the same parameters. -/
theorem mapUp_params (h : Steady v expr decl stmt push) (hk : Keeps v expr decl stmt push Rel I Q) :
    ∀ {params params' : Params} {s s' : σ}, (Params.mapUp v params).outcome s = (.ok params', s') →
      s' = s ∧ List.Forall₂ Param.Same (params.map Prod.fst) (params'.map Prod.fst)
  | [], params', s, s', hrun => by
    simp only [Params.mapUp, Walk.outcome_pure, Prod.mk.injEq, Except.ok.injEq] at hrun
    obtain ⟨rfl, rfl⟩ := hrun
    exact ⟨rfl, .nil⟩
  | entry :: rest, params', s, s', hrun => by
    obtain ⟨param, s1, hparam, hrun1⟩ := Walk.outcome_bind_eq_ok.mp hrun
    obtain ⟨ty, s2, hty, hleft⟩ := Walk.outcome_bind_eq_ok.mp hparam
    obtain rfl := h.mapUp_type hty
    simp only [Walk.outcome_pure, Prod.mk.injEq, Except.ok.injEq] at hleft
    obtain ⟨rfl, rfl⟩ := hleft
    obtain ⟨rest', s3, hrest, hleft⟩ := Walk.outcome_bind_eq_ok.mp hrun1
    obtain ⟨rfl, hsame⟩ := mapUp_params h hk hrest
    simp only [Walk.outcome_pure, Prod.mk.injEq, Except.ok.injEq] at hleft
    obtain ⟨rfl, rfl⟩ := hleft
    exact ⟨rfl, .cons ⟨rfl, rfl, hk.mapUp_type hty⟩ hsame⟩

/-- **Visiting a function** leaves one that is alike, and the state as it was. -/
theorem mapUp_function (h : Steady v expr decl stmt push)
    (hk : Keeps v expr decl stmt push Rel I Q) (hf : KeepsFunctions v I Q) {f : Function} {i : Item}
    {s s' : σ} (hI : I s) (hsource : f.body.isSource = true)
    (hQ : ∀ frame ∈ (Item.function f).frames, Q frame)
    (hrun : (f.mapUp v).outcome s = (.ok i, s')) :
    s' = s ∧ ∃ f', i = .function f' ∧ f.Alike Rel f' ∧
      ∃ s1, (f.body.mapUp v).outcome s1 = (.ok f'.body, s1) := by
  obtain ⟨⟨⟩, s1, henter, hrun1⟩ := Walk.outcome_bind_eq_ok.mp hrun
  have hI1 := hf.enter (hQ _ List.mem_cons_self) hI henter
  obtain ⟨params, s2, hparams, hrun2⟩ := Walk.outcome_bind_eq_ok.mp hrun1
  obtain ⟨rfl, hnames⟩ := h.mapUp_params hk hparams
  obtain ⟨result, s3, hresult, hrun3⟩ := Walk.outcome_bind_eq_ok.mp hrun2
  have hs3 : s3 = s2 := by
    cases hr : f.result with
    | none =>
      rw [hr] at hresult
      exact (congrArg Prod.snd hresult).symm
    | some t =>
      rw [hr, visitResult, Walk.outcome_map] at hresult
      have hs := TypeExpr.outcome_mapUp h.type t s2
      exact (congrArg Prod.snd hresult).symm.trans hs
  subst hs3
  obtain ⟨body, s4, hbody, hleft⟩ := Walk.outcome_bind_eq_ok.mp hrun3
  obtain ⟨rfl, halike⟩ := h.mapUp_stmts hk hI1 hsource
    (fun frame hframe => hQ frame (List.mem_cons_of_mem _ hframe)) hbody
  obtain ⟨rfl, f', rfl, hn, hsy, hp, hb, hl, hfr⟩ := hf.exit henter (by rfl) hleft
  refine ⟨rfl, f', rfl, ⟨hn, hsy, hp ▸ hnames, hb ▸ halike, hl, hfr⟩, s4, ?_⟩
  rw [hb]
  exact hbody

/-- **Visiting an item.**  A variable or a function leaves the state as it was; what becomes of other
items is up to the visitor. -/
theorem mapUp_item (h : Steady v expr decl stmt push) (hk : Keeps v expr decl stmt push Rel I Q)
    (hf : KeepsFunctions v I Q) {item : Item} {left : Option Item} {s s' : σ} (hI : I s)
    (hsource : item.isSource = true) (hQ : ∀ frame ∈ item.frames, Q frame)
    (hrun : (item.mapUp v).outcome s = (.ok left, s')) :
    ∃ item', item.Alike Rel item' ∧ ((left = some item' ∧ s' = s ∧ item.isWhole = false) ∨
      (item.isWhole = true ∧ (v.item item').outcome s = (.ok left, s'))) := by
  cases item with
  | use name place => exact ⟨_, .use, .inr ⟨rfl, hrun⟩⟩
  | constant name ty value symbol place =>
    obtain ⟨ty', s1, hty, hrun1⟩ := Walk.outcome_bind_eq_ok.mp hrun
    obtain rfl := h.mapUp_type hty
    obtain ⟨value', s2, hvalue, hrun2⟩ := Walk.outcome_bind_eq_ok.mp hrun1
    obtain ⟨hvalue, rfl⟩ := h.mapUp_expr hvalue
    exact ⟨_, .constant (hk.expr hI hvalue) (hk.mapUp_type hty), .inr ⟨rfl, hrun2⟩⟩
  | global st =>
    cases st with
    | decl d =>
      rw [Item.mapUp, Walk.outcome_map, Prod.mk.injEq] at hrun
      obtain ⟨st', hst, rfl⟩ := map_eq_ok.mp hrun.1
      obtain ⟨rfl, d', rfl, hvalue, hsame⟩ := h.mapUp_decl hk hI
        (Prod.ext hst hrun.2 : (d.mapUp v).outcome s = (.ok st', s'))
      exact ⟨_, .global hvalue hsame, .inl ⟨rfl, rfl, rfl⟩⟩
    | _ => simp [Item.isSource] at hsource
  | function f =>
    rw [Item.mapUp, Walk.outcome_map, Prod.mk.injEq] at hrun
    obtain ⟨i, hi, rfl⟩ := map_eq_ok.mp hrun.1
    obtain ⟨rfl, f', rfl, hf', -⟩ := h.mapUp_function hk hf hI (Bool.and_eq_true_iff.mp hsource).1 hQ
      (Prod.ext hi hrun.2)
    exact ⟨_, .function hf', .inl ⟨rfl, rfl, rfl⟩⟩
  | compiled symbol code type locals place => simp [Item.isSource] at hsource

/-- What a visitor that leaves cells of items alone leaves of a cell. -/
theorem leaveItemCell_eq (h : Steady v expr decl stmt push) (rest : Items) (span : Span)
    (left : Option Item) : leaveItemCell v rest span left = pure ((left.map (·, span)).toList ++ rest) := by
  cases left with
  | none => rfl
  | some i => rw [leaveItemCell, h.itemCell]; rfl

/-- **Visiting items.** -/
theorem mapUp_items (h : Steady v expr decl stmt push) (hk : Keeps v expr decl stmt push Rel I Q)
    (hf : KeepsFunctions v I Q)
    (hitem : ∀ {i : Item} {left : Option Item} {s s' : σ}, I s →
      (v.item i).outcome s = (.ok left, s') →
      I s' ∧ (left = some i ∨ left = none ∧ drops i))
    (hdrops : ∀ {name : String} {ty ty' : TypeExpr} {value value' : Expr} {symbol : Option String}
      {span : Span}, drops (.constant name ty' value' symbol span) →
      drops (.constant name ty value symbol span)) :
    ∀ {items items' : Items} {s s' : σ}, I s → (∀ entry ∈ items, entry.1.isSource = true) →
      (∀ frame ∈ Items.frames items, Q frame) →
      (Items.mapUp v items).outcome s = (.ok items', s') →
      I s' ∧ Items.Related drops (Item.Alike Rel) items items'
  | [], items', s, s', hI, _, _, hrun => by
    simp only [Items.mapUp, Walk.outcome_pure, Prod.mk.injEq, Except.ok.injEq] at hrun
    obtain ⟨rfl, rfl⟩ := hrun
    exact ⟨hI, .nil⟩
  | (item, span) :: rest, items', s, s', hI, hsource, hQ, hrun => by
    obtain ⟨hitemSource, hrestSource⟩ := List.forall_mem_cons.mp hsource
    obtain ⟨left, s1, hleft, hrun1⟩ := Walk.outcome_bind_eq_ok.mp hrun
    obtain ⟨rest', s2, hrest, hcell⟩ := Walk.outcome_bind_eq_ok.mp hrun1
    rw [h.leaveItemCell_eq] at hcell
    obtain ⟨rfl, rfl⟩ := Walk.outcome_pure_eq_ok.mp hcell
    have hQrest : ∀ frame ∈ Items.frames rest, Q frame := fun frame hframe =>
      hQ frame (List.mem_append_right _ hframe)
    obtain ⟨item', halike, hcases⟩ := h.mapUp_item hk hf hI hitemSource
      (fun frame hframe => hQ frame (List.mem_append_left _ hframe)) hleft
    rcases hcases with ⟨rfl, rfl, -⟩ | ⟨hwhole, hrunItem⟩
    · obtain ⟨hI2, ih⟩ := mapUp_items h hk hf hitem hdrops hI hrestSource hQrest hrest
      exact ⟨hI2, .cons halike ih⟩
    · obtain ⟨hI1, hi⟩ := hitem hI hrunItem
      obtain ⟨hI2, ih⟩ := mapUp_items h hk hf hitem hdrops hI1 hrestSource hQrest hrest
      rcases hi with rfl | ⟨rfl, hdrop⟩
      · exact ⟨hI2, .cons halike ih⟩
      · refine ⟨hI2, .drop ?_ ih⟩
        cases halike with
        | use => exact hdrop
        | constant _ => exact hdrops hdrop
        | global _ _ | function _ => cases hwhole

/-- Items that are all left leave the state as it was. -/
theorem mapUp_items_same (h : Steady v expr decl stmt push) (hk : Keeps v expr decl stmt push Rel I Q)
    (hf : KeepsFunctions v I Q) (hitem : v.item = fun i => pure (some i)) :
    ∀ {items items' : Items} {s s' : σ}, I s → (∀ entry ∈ items, entry.1.isSource = true) →
      (∀ frame ∈ Items.frames items, Q frame) →
      (Items.mapUp v items).outcome s = (.ok items', s') → s' = s
  | [], items', s, s', _, _, _, hrun => (Walk.outcome_pure_eq_ok.mp hrun).2.symm
  | (item, span) :: rest, items', s, s', hI, hsource, hQ, hrun => by
    obtain ⟨hitemSource, hrestSource⟩ := List.forall_mem_cons.mp hsource
    obtain ⟨left, s1, hleft, hrun1⟩ := Walk.outcome_bind_eq_ok.mp hrun
    obtain ⟨rest', s2, hrest, hcell⟩ := Walk.outcome_bind_eq_ok.mp hrun1
    rw [h.leaveItemCell_eq] at hcell
    obtain ⟨-, rfl⟩ := Walk.outcome_pure_eq_ok.mp hcell
    obtain ⟨item', -, hcases⟩ := h.mapUp_item hk hf hI hitemSource
      (fun frame hframe => hQ frame (List.mem_append_left _ hframe)) hleft
    have hs1 : s1 = s := by
      rcases hcases with ⟨-, hs, -⟩ | ⟨-, hrunItem⟩
      · exact hs
      · rw [hitem] at hrunItem
        exact (Walk.outcome_pure_eq_ok.mp hrunItem).2.symm
    subst hs1
    exact mapUp_items_same h hk hf hitem hI hrestSource
      (fun frame hframe => hQ frame (List.mem_append_right _ hframe)) hrest

/-- Functions that are left alone. -/
theorem keepsFunctions_pure (henter : v.enterFunction = fun _ => pure ())
    (hexit : v.exitFunction = fun f => pure (.function f)) :
    KeepsFunctions v (fun _ => True) (fun _ => True) where
  enter _ _ _ := trivial
  exit hrun _ hleft := by
    rw [henter] at hrun
    rw [hexit] at hleft
    obtain ⟨-, rfl⟩ := Walk.outcome_pure_eq_ok.mp hrun
    obtain ⟨rfl, rfl⟩ := Walk.outcome_pure_eq_ok.mp hleft
    exact ⟨rfl, _, rfl, rfl, rfl, rfl, rfl, rfl, rfl⟩

/-- **Visiting a unit** whose items are all left. -/
theorem mapUp_program (h : Steady v expr decl stmt push)
    (hk : Keeps v expr decl stmt push Rel (fun _ => True) (fun _ => True))
    (hf : KeepsFunctions v (fun _ => True) (fun _ => True)) (hunit : v.enterUnit = pure)
    (hexit : v.exitUnit = pure) (hitem : v.item = fun i => pure (some i)) {p p' : Program} {s : σ}
    (hsource : ∀ entry ∈ p.items, entry.1.isSource = true)
    (hrun : ((p.mapUp v).outcome s).1 = .ok p') :
    Items.Related (fun _ => False) (Item.Alike Rel) p.items p'.items ∧ p'.frame = p.frame := by
  obtain ⟨p1, s1, henter, hrest⟩ := Walk.outcome_bind_eq_ok.mp
    (Prod.ext hrun rfl : (p.mapUp v).outcome s = (.ok p', _))
  rw [hunit] at henter
  obtain ⟨rfl, rfl⟩ := Walk.outcome_pure_eq_ok.mp henter
  obtain ⟨items, s2, hitems, hleft⟩ := Walk.outcome_bind_eq_ok.mp hrest
  rw [hexit] at hleft
  obtain ⟨rfl, -⟩ := Walk.outcome_pure_eq_ok.mp hleft
  refine ⟨(h.mapUp_items hk hf (fun _ hleft => ⟨trivial, .inl ?_⟩) id trivial hsource
    (fun _ _ => trivial) hitems).2, rfl⟩
  rw [hitem] at hleft
  exact (Walk.outcome_pure_eq_ok.mp hleft).1.symm

end Steady

/-! ## 6. Relations of expressions -/

section Relations

variable {Rel Rel' Rel'' : Expr → Expr → Prop}

mutual

theorem Stmt.Alike.refl (hRel : ∀ e : Expr, Rel e e) : ∀ {s : Stmt}, s.isSource = true → s.Alike Rel s
  | .decl d, _ => .decl (hRel d.value) (.refl d)
  | .set lvalue rvalue _ _, _ => .set (hRel lvalue) (hRel rvalue)
  | .ret none _ _, _ => .ret .none
  | .ret (some value) _ _, _ => .ret (.some (hRel value))
  | .expr e, _ => .expr (hRel e)
  | .scope _ _ _ _, h => by
    obtain ⟨hd, hb⟩ := Bool.and_eq_true_iff.mp h
    exact .scope (Stmt.Alike.refl hRel (Stmt.isSource_of_isDecl hd)) (Stmts.Alike.refl hRel hb)

theorem Stmts.Alike.refl (hRel : ∀ e : Expr, Rel e e) : ∀ {s : Stmts}, s.isSource = true → s.Alike Rel s
  | .nil, _ => .nil
  | .cons _ _ _, h => by
    obtain ⟨hs, hr⟩ := Bool.and_eq_true_iff.mp h
    exact .cons (Stmt.Alike.refl hRel hs) (Stmts.Alike.refl hRel hr)

end

mutual

theorem Stmt.Alike.imp (hRel : ∀ {e e' : Expr}, Rel e e' → Rel' e e') :
    ∀ {s s' : Stmt}, s.Alike Rel s' → s.Alike Rel' s'
  | _, _, .decl hv hsame => .decl (hRel hv) hsame
  | _, _, .set hl hr => .set (hRel hl) (hRel hr)
  | _, _, .ret hv => by
    refine .ret ?_
    cases hv with
    | none => exact .none
    | some hv => exact .some (hRel hv)
  | _, _, .expr he => .expr (hRel he)
  | _, _, .scope hd hb => .scope (Stmt.Alike.imp hRel hd) (Stmts.Alike.imp hRel hb)

theorem Stmts.Alike.imp (hRel : ∀ {e e' : Expr}, Rel e e' → Rel' e e') :
    ∀ {s s' : Stmts}, s.Alike Rel s' → s.Alike Rel' s'
  | _, _, .nil => .nil
  | _, _, .cons hs hr => .cons (Stmt.Alike.imp hRel hs) (Stmts.Alike.imp hRel hr)

end

theorem Function.Alike.imp (hRel : ∀ {e e' : Expr}, Rel e e' → Rel' e e') {f f' : Function}
    (h : f.Alike Rel f') : f.Alike Rel' f' :=
  ⟨h.name, h.symbol, h.params, h.body.imp hRel, h.locals, h.frame⟩

theorem Param.Same.refl (p : Param) : p.Same p := ⟨rfl, rfl, .refl p.ty⟩

theorem Function.Alike.refl (hRel : ∀ e : Expr, Rel e e) {f : Function} (h : f.body.isSource = true) :
    f.Alike Rel f :=
  ⟨rfl, rfl, List.forall₂_same.mpr fun p _ => .refl p, .refl hRel h, rfl, rfl⟩

theorem Item.Alike.imp (hRel : ∀ {e e' : Expr}, Rel e e' → Rel' e e') {i i' : Item}
    (h : i.Alike Rel i') : i.Alike Rel' i' := by
  cases h with
  | use => exact .use
  | constant hv hty => exact .constant (hRel hv) hty
  | global hv hsame => exact .global (hRel hv) hsame
  | function hf => exact .function (hf.imp hRel)

theorem Param.Same.trans {p p' p'' : Param} (h : p.Same p') (h' : p'.Same p'') : p.Same p'' :=
  ⟨h'.name.trans h.name, h'.symbol.trans h.symbol, h.ty.trans h'.ty⟩

theorem flatMap_eq_of_forall₂ {α β γ : Type} {R : α → β → Prop} {f : α → List γ} {g : β → List γ}
    (hR : ∀ {a : α} {b : β}, R a b → g b = f a) {as : List α} {bs : List β} (h : List.Forall₂ R as bs) :
    bs.flatMap g = as.flatMap f := by
  induction h with
  | nil => rfl
  | cons hab _ ih => rw [List.flatMap_cons, List.flatMap_cons, hR hab, ih]

mutual

/-- Statements that two passes leave alike, one after the other, are alike. -/
theorem Stmt.Alike.trans (hRel : ∀ {e e' e'' : Expr}, Rel e e' → Rel' e' e'' → Rel'' e e'') :
    ∀ {s s' s'' : Stmt}, s.Alike Rel s' → s'.Alike Rel' s'' → s.Alike Rel'' s''
  | _, _, _, .decl hv hsame, .decl hv' hsame' => .decl (hRel hv hv') (hsame.trans hsame')
  | _, _, _, .set hl hr, .set hl' hr' => .set (hRel hl hl') (hRel hr hr')
  | _, _, _, .ret hv, .ret hv' => by
    refine .ret ?_
    cases hv with
    | none =>
      cases hv'
      exact .none
    | some hv =>
      cases hv' with
      | some hv' => exact .some (hRel hv hv')
  | _, _, _, .expr he, .expr he' => .expr (hRel he he')
  | _, _, _, .scope hd hb, .scope hd' hb' =>
    .scope (Stmt.Alike.trans hRel hd hd') (Stmts.Alike.trans hRel hb hb')

theorem Stmts.Alike.trans (hRel : ∀ {e e' e'' : Expr}, Rel e e' → Rel' e' e'' → Rel'' e e'') :
    ∀ {s s' s'' : Stmts}, s.Alike Rel s' → s'.Alike Rel' s'' → s.Alike Rel'' s''
  | _, _, _, .nil, .nil => .nil
  | _, _, _, .cons hs hr, .cons hs' hr' =>
    .cons (Stmt.Alike.trans hRel hs hs') (Stmts.Alike.trans hRel hr hr')

end

/-- Functions that two passes leave alike one after the other. -/
theorem Function.Alike.trans (hRel : ∀ {e e' e'' : Expr}, Rel e e' → Rel' e' e'' → Rel'' e e'')
    {f f' f'' : Function} (h : f.Alike Rel f') (h' : f'.Alike Rel' f'') : f.Alike Rel'' f'' where
  name := h'.name.trans h.name
  symbol := h'.symbol.trans h.symbol
  params := forall₂_trans @Param.Same.trans h.params h'.params
  body := h.body.trans @hRel h'.body
  locals := h'.locals.trans h.locals
  frame := h'.frame.trans h.frame

/-- Items that two passes leave alike, one after the other, are alike. -/
theorem Item.Alike.trans (hRel : ∀ {e e' e'' : Expr}, Rel e e' → Rel' e' e'' → Rel'' e e'') {i i' i'' : Item}
    (h : i.Alike Rel i') (h' : i'.Alike Rel' i'') : i.Alike Rel'' i'' := by
  cases h with
  | use =>
    cases h'
    exact .use
  | constant hv hty =>
    cases h' with
    | constant hv' hty' => exact .constant (hRel hv hv') (hty.trans hty')
  | global hv hsame =>
    cases h' with
    | global hv' hsame' => exact .global (hRel hv hv') (hsame.trans hsame')
  | function hf =>
    cases h' with
    | function hf' => exact .function (hf.trans @hRel hf')

theorem Item.Alike.refl (hRel : ∀ e : Expr, Rel e e) {i : Item} (h : i.isSource = true) : i.Alike Rel i := by
  cases i with
  | use => exact .use
  | constant _ ty value _ _ => exact .constant (hRel value) (.refl ty)
  | global s =>
    cases s with
    | decl d => exact .global (hRel d.value) (.refl d)
    | _ => cases h
  | function f => exact .function (.refl hRel (Bool.and_eq_true_iff.mp h).1)
  | compiled _ _ _ _ _ => cases h

theorem Item.Alike.isWhole_eq {i i' : Item} (h : i.Alike Rel i') : i'.isWhole = i.isWhole := by
  cases h <;> rfl

end Relations

end Lode.Program
