/-
# Scopes, units and written types

The passes before names are bound, as visitors of programs.  They leave the expressions, declarations and
items of a program alike, and mention no symbol that was not mentioned before.

They neither need nor look at bindings, so this is so wherever in the schedule they run, and it has to be:
nothing orders two of them before names are bound.  The results therefore come twice.  One is for programs
without bindings (`unbound`), in which no symbol is mentioned at all, and one for programs with them
(`bound`); for units, the only ones that open frames, both follow from one run lemma about frames with a
property that a `use` keeps (`mapUp_related`).

The first pass makes scopes explicit: what comes after a declaration moves into the scope of the
declaration.  It cannot fail, so it is a function on programs (`nested`), and the statements, read from left
to right and through the scopes, are the same as before.  The second one resolves the members of units, and
removes the uses once they are recorded.  The third one reads the types that are written in declarations.
-/
import Lode.Proofs.Program.Scoped
import Lode.Proofs.Program.Symbols

namespace Lode

open Program

/-! ## 1. Scopes -/

namespace ExplicitScopes

/-- A cell with a declaration holds a scope with what comes after it. -/
def explicit : Stmt → Stmts → Span → Stmts
  | .decl d, rest, span => .cons (.scope (.decl d) rest {} span) .nil span
  | s, rest, span => .cons s rest span

/-- What the pass does to the parts of a program. -/
def visitor : Visitor Unit where
  cell s rest span := pure (explicit s rest span)

theorem visitsParts : VisitsParts id hooks visitor where
  pass part _ := by cases part <;> rfl
  enterScope _ _ _ _ := .of_eq rfl
  enterFunction _ := .of_eq rfl
  enterUnit _ := .of_eq rfl
  exit part := by
    refine .of_eq ?_
    cases part with
    | cell s rest span =>
      cases s with
      | decl d =>
        cases rest <;> rfl
      | expr e =>
        cases e with
        | cell place _ _ _ => cases place <;> cases rest <;> rfl
        | _ => cases rest <;> rfl
      | _ => cases rest <;> rfl
    | type t => cases t <;> rfl
    | stmt s h =>
      cases s with
      | expr e => simp [Stmt.isPlain] at h
      | _ => rfl
    | _ => rfl

theorem rewrites : Rewrites id hooks (pure : Expr → Walk Unit Expr) :=
  .of_keep fun ⟨tag, _, _⟩ htag => by cases tag <;> cases htag <;> exact ⟨rfl, rfl⟩

/-- **The pass is the visitor.** -/
theorem visits : Visits id hooks visitor :=
  .ascending visitsParts rewrites (funext fun e => (Expr.mapUp_pure e).symm)

theorem runPass (unit : String) (p : Program) :
    Compiler.runPass unit p.node pass = Program.node <$> ((p.mapUp visitor).outcome ()).1 :=
  runPass_of_visits (fun _ => rfl) visits p (size_of_enterUnit_pure rfl p)

mutual

/-- A statement with its scopes made explicit. -/
def nestStmt : Stmt → Stmt
  | .scope decl body frame span => .scope (nestStmt decl) (nest body) frame span
  | s => s

/-- Statements with their scopes made explicit. -/
def nest : Stmts → Stmts
  | .nil => .nil
  | .cons stmt rest span => explicit (nestStmt stmt) (nest rest) span

end

mutual

/-- A statement has its inner scopes made explicit. No step fails, so the walk is a pure function. -/
theorem mapUp_stmt : ∀ s : Stmt, s.mapUp visitor = pure (nestStmt s)
  | .decl d => by
    simp [Stmt.mapUp, Let.mapUp, visitor, TypeExpr.mapUp_pure, nestStmt]
  | .set _ _ _ _ => by simp [Stmt.mapUp, visitor, nestStmt]
  | .ret none _ _ => by simp [Stmt.mapUp, visitor, nestStmt]
  | .ret (some _) _ _ => by simp [Stmt.mapUp, visitor, nestStmt]
  | .expr _ => by simp [Stmt.mapUp, visitor, nestStmt]
  | .scope decl body frame span => by
    rw [Stmt.mapUp, mapUp_stmt decl, mapUp_stmts body]
    simp [visitor, nestStmt]
  | .data _ => by simp [Stmt.mapUp, visitor, nestStmt]
  | .load _ _ _ => by simp [Stmt.mapUp, visitor, nestStmt]
  | .store _ _ _ => by simp [Stmt.mapUp, visitor, nestStmt]
  | .arith _ _ _ _ => by simp [Stmt.mapUp, visitor, nestStmt]
  | .jump _ _ => by simp [Stmt.mapUp, visitor, nestStmt]
  | .rts _ => by simp [Stmt.mapUp, visitor, nestStmt]
  | .code _ _ => by simp [Stmt.mapUp, visitor, nestStmt]

theorem mapUp_stmts : ∀ stmts : Stmts, stmts.mapUp visitor = pure (nest stmts)
  | .nil => rfl
  | .cons stmt rest span => by
    rw [Stmts.mapUp, mapUp_stmt stmt, pure_bind, mapUp_stmts rest, pure_bind]
    rfl

end

/-- An item with its scopes made explicit. -/
def nestItem : Program.Item → Program.Item
  | .function f => .function { f with body := nest f.body }
  | .global s => .global (nestStmt s)
  | i => i

/-- An item. -/
theorem mapUp_item : ∀ i : Program.Item, i.mapUp visitor = pure (some (nestItem i))
  | .use _ _ => rfl
  | .constant _ _ _ _ _ => by
    simp [Item.mapUp, visitor, TypeExpr.mapUp_pure, nestItem]
  | .global s => by
    rw [Item.mapUp, mapUp_stmt s]
    rfl
  | .function f => by
    rw [Item.mapUp, Function.mapUp, Params.mapUp_pure rfl, visitResult_pure rfl, mapUp_stmts]
    rfl
  | .compiled _ _ _ _ _ => rfl

theorem mapUp_items : ∀ items : Items,
    Items.mapUp visitor items = pure (items.map fun entry => (nestItem entry.1, entry.2))
  | [] => rfl
  | entry :: rest => by
    rw [Items.mapUp, mapUp_item, pure_bind, mapUp_items rest, pure_bind]
    rfl

/-- The unit with its scopes made explicit. -/
def nested (p : Program) : Program :=
  { p with items := p.items.map fun entry => (nestItem entry.1, entry.2) }

/-- **The pass always ends**, with the unit whose scopes are explicit. -/
theorem runPass_eq (unit : String) (p : Program) :
    Compiler.runPass unit p.node pass = .ok (nested p).node := by
  have henter : visitor.enterUnit p = pure p := rfl
  rw [runPass, Program.mapUp, henter, pure_bind, mapUp_items]
  rfl

theorem explicit_linked {S : Symbols} {stmt : Stmt} {rest : Stmts} {span : Span}
    (hstmt : stmt.Linked S) (hrest : rest.Linked S) : (explicit stmt rest span).Linked S := by
  cases stmt with
  | decl d => exact ⟨⟨hstmt, hrest⟩, trivial⟩
  | _ => exact ⟨hstmt, hrest⟩

theorem explicit_isSource {stmt : Stmt} {rest : Stmts} {span : Span} (hstmt : stmt.isSource = true)
    (hrest : rest.isSource = true) : (explicit stmt rest span).isSource = true := by
  cases stmt with
  | decl d => simp [explicit, Stmts.isSource, Stmt.isSource, Stmt.isDecl, hrest]
  | _ => simp_all [explicit, Stmts.isSource]

/-- The frame of a new scope is empty, and the others stay. -/
theorem explicit_frames {Q : Frame → Prop} (hempty : Q {}) {stmt : Stmt} {rest : Stmts} {span : Span}
    (hstmt : ∀ frame ∈ stmt.frames, Q frame) (hrest : ∀ frame ∈ rest.frames, Q frame) :
    ∀ frame ∈ (explicit stmt rest span).frames, Q frame := by
  cases stmt with
  | decl d =>
    simp only [explicit, Stmts.frames, Stmt.frames, List.append_nil, List.nil_append]
    exact List.forall_mem_cons.mpr ⟨hempty, hrest⟩
  | _ => exact List.forall_mem_append.mpr ⟨hstmt, hrest⟩

mutual

/-- Explicit scopes in a statement mention what was mentioned without them. -/
theorem nestStmt_keeps : ∀ s : Stmt, s.isSource = true → (nestStmt s).isSource = true ∧
    (∀ S, s.Linked S → (nestStmt s).Linked S) ∧
    ∀ Q : Frame → Prop, Q {} → (∀ frame ∈ s.frames, Q frame) → ∀ frame ∈ (nestStmt s).frames, Q frame
  | .scope decl body frame span, h => by
    obtain ⟨hd, hb⟩ := Bool.and_eq_true_iff.mp h
    obtain ⟨-, hd2, hd3⟩ := nestStmt_keeps decl (Stmt.isSource_of_isDecl hd)
    have hd1 : (nestStmt decl).isDecl = true := by
      cases decl with
      | decl d => rfl
      | _ => cases hd
    obtain ⟨hb1, hb2, hb3⟩ := nest_keeps body hb
    refine ⟨Bool.and_eq_true_iff.mpr ⟨hd1, hb1⟩, fun S hS => ⟨hd2 S hS.1, hb2 S hS.2⟩,
      fun Q hempty hQ => ?_⟩
    obtain ⟨hframe, hrest⟩ := List.forall_mem_cons.mp hQ
    obtain ⟨hdecl, hbody⟩ := List.forall_mem_append.mp hrest
    exact List.forall_mem_cons.mpr
      ⟨hframe, List.forall_mem_append.mpr ⟨hd3 Q hempty hdecl, hb3 Q hempty hbody⟩⟩
  | .decl _, h | .set _ _ _ _, h | .ret _ _ _, h | .expr _, h
  | .data _, h | .load _ _ _, h | .store _ _ _, h | .arith _ _ _ _, h | .jump _ _, h | .rts _, h
  | .code _ _, h => ⟨h, fun _ hS => hS, fun _ _ hQ => hQ⟩

/-- Explicit scopes mention what was mentioned without them. -/
theorem nest_keeps : ∀ stmts : Stmts, stmts.isSource = true → (nest stmts).isSource = true ∧
    (∀ S, stmts.Linked S → (nest stmts).Linked S) ∧
    ∀ Q : Frame → Prop, Q {} → (∀ frame ∈ stmts.frames, Q frame) → ∀ frame ∈ (nest stmts).frames, Q frame
  | .nil, _ => ⟨rfl, fun _ hS => hS, fun _ _ hQ => hQ⟩
  | .cons stmt rest span, h => by
    obtain ⟨hs, hr⟩ := Bool.and_eq_true_iff.mp h
    obtain ⟨hs1, hs2, hs3⟩ := nestStmt_keeps stmt hs
    obtain ⟨hr1, hr2, hr3⟩ := nest_keeps rest hr
    refine ⟨explicit_isSource hs1 hr1, fun S hS => explicit_linked (hs2 S hS.1) (hr2 S hS.2),
      fun Q hempty hQ => ?_⟩
    obtain ⟨hstmt, hrest⟩ := List.forall_mem_append.mp hQ
    exact explicit_frames hempty (hs3 Q hempty hstmt) (hr3 Q hempty hrest)

end

/-- Explicit scopes in an item mention what was mentioned without them. -/
theorem nestItem_keeps (i : Program.Item) (h : i.isSource = true) :
    (nestItem i).isSource = true ∧ (∀ S, i.Linked S → (nestItem i).Linked S) ∧
      ∀ Q : Frame → Prop, Q {} → (∀ frame ∈ i.frames, Q frame) → ∀ frame ∈ (nestItem i).frames, Q frame := by
  cases i with
  | function f =>
    obtain ⟨hbody, hlocals⟩ := Bool.and_eq_true_iff.mp h
    obtain ⟨h1, h2, h3⟩ := nest_keeps f.body hbody
    refine ⟨Bool.and_eq_true_iff.mpr ⟨h1, hlocals⟩, fun S hS => ⟨h2 S hS.1, hS.2⟩, fun Q hempty hQ => ?_⟩
    obtain ⟨hf, hb⟩ := List.forall_mem_cons.mp hQ
    exact List.forall_mem_cons.mpr ⟨hf, h3 Q hempty hb⟩
  | global s =>
    cases s with
    | decl d => exact ⟨rfl, fun _ hS => hS, fun _ _ hQ => hQ⟩
    | _ => simp [Item.isSource] at h
  | _ => exact ⟨h, fun _ hS => hS, fun _ _ hQ => hQ⟩

/-- The scopes that become explicit have empty frames. -/
theorem nested_frames {p : Program} (hsource : p.IsSource) {Q : Frame → Prop} (hempty : Q {})
    (h : ∀ frame ∈ Items.frames p.items, Q frame) : ∀ frame ∈ Items.frames (nested p).items, Q frame := by
  intro frame hframe
  obtain ⟨entry, hentry, hframe⟩ := List.mem_flatMap.mp hframe
  obtain ⟨entry', hentry', rfl⟩ := List.mem_map.mp hentry
  refine (nestItem_keeps entry'.1 (hsource entry' hentry')).2.2 _ hempty (fun fr hfr => ?_) frame hframe
  exact h fr (List.mem_flatMap.mpr ⟨entry', hentry', hfr⟩)

/-- **Scopes.**  They mention nothing. -/
theorem nested_unbound {p : Program} (h : p.Unbound) : (nested p).Unbound where
  source entry hentry := by
    obtain ⟨entry', hentry', rfl⟩ := List.mem_map.mp hentry
    exact (nestItem_keeps entry'.1 (h.source entry' hentry')).1
  linked entry hentry := by
    obtain ⟨entry', hentry', rfl⟩ := List.mem_map.mp hentry
    exact (nestItem_keeps entry'.1 (h.source entry' hentry')).2.1 _ (h.linked entry' hentry')
  frame := h.frame
  frames := nested_frames h.source (Frame.linked_empty _) h.frames

end ExplicitScopes

/-! ## 2. Units -/

namespace ResolveUnits

/-- The unit that an expression names. -/
def namedUnit? (frames : Frames) : Expr → Option IntrinsicUnit
  | .ident name _ _ _ => (frames.lookup? name).bind Named.unit?
  | _ => none

/-- A member of a unit is an intrinsic. -/
def resolve (s : Nested Unit) : Expr → Except Error Expr
  | .member target name span =>
    match namedUnit? s.frames target with
    | none => .ok (.member target name span)
    | some u =>
      if (u.member? name).isNone then .error ⟨.unknownName (u.name ++ "." ++ name), some span⟩
      else .ok (.intrinsic u name span)
  | e => .ok e

/-- A `use` is bound and removed. -/
def resolveUse : Program.Item → Walk (Nested Unit) (Option Program.Item)
  | .use name span =>
    match IntrinsicUnit.ofName? name with
    | none => throw ⟨.unknownUnit name, some span⟩
    | some u => do
      let state ← get
      match state.frames.bind? name (.unit u) with
      | none => throw ⟨.duplicateDefinition name, some span⟩
      | some frames =>
        set { state with frames := frames }
        return none
  | i => pure (some i)

/-- What the pass does to the parts of a program, frames apart. -/
def inner : Visitor (Nested Unit) where
  expr := Expr.mapUp fun e => Walk.reading (resolve · e)
  item := resolveUse

/-- The unit that an expression names is found in the frames, on both sides. -/
theorem unitOf?_node (frames : Frames) (e : Expr) :
    unitOf? frames.raw e.node = namedUnit? frames e := by
  cases e with
  | ident name binding type span =>
    rw [namedUnit?, ← Frames.unit_raw]
    cases binding <;> cases type <;> rfl
  | cell place _ _ _ => cases place <;> rfl
  | number _ type _ => cases type <;> rfl
  | _ => rfl

/-- Leaving a use binds the name of its unit in the innermost frame and removes the item. -/
theorem exitUse_node (name : String) (span : Span) :
    Walk.Mirrors Nested.raw (settle hooks.exit (Program.Item.use name span).node)
      ((fun i => i.map Program.Item.node) <$> resolveUse (.use name span)) := by
  intro s
  change (settle exitUse _).outcome s.raw = _
  have htext : (Program.Item.use name span).node.textOf "name" = .ok name := rfl
  simp only [settle, exitUse, htext, resolveUse, Walk.outcome_map, Walk.outcome_bind,
    Walk.outcome_lift, Walk.andThen_ok]
  cases IntrinsicUnit.ofName? name with
  | none => rfl
  | some u =>
    have hbind := Frames.bind?_raw s.frames name (.unit u)
    simp only [Walk.outcome_bind, Walk.andThen_ok, Walk.outcome_get]
    rw [show s.raw.scopes.bind? name (.unit u) = _ from hbind]
    cases s.frames.bind? name (.unit u) <;> rfl

/-- Leaving a member puts the intrinsic in its place, if the target names a unit. -/
theorem exitMember_node (target : Expr) (name : String) (span : Span) :
    Walk.Mirrors Nested.raw (settle hooks.exit (Expr.member target name span).node)
      ((fun e => some e.node) <$> Walk.reading (resolve · (.member target name span))) := by
  intro s
  change (settle exitMember _).outcome s.raw = _
  have hchild : (Expr.member target name span).node.child "target" = .ok target.node := rfl
  have htext : (Expr.member target name span).node.textOf "name" = .ok name := rfl
  have hunit : unitOf? s.raw.scopes target.node = namedUnit? s.frames target :=
    unitOf?_node s.frames target
  simp only [settle, exitMember, hchild, htext, Walk.outcome_map, Walk.outcome_bind,
    Walk.outcome_lift, Walk.andThen_ok, Walk.outcome_get, Walk.outcome_reading, hunit, resolve]
  cases namedUnit? s.frames target with
  | none => rfl
  | some u =>
    simp only [Walk.outcome_bind, Walk.outcome_lift, Walk.andThen_ok]
    cases (u.member? name).isNone <;> rfl

theorem rewrites : Rewrites Nested.raw hooks fun e => Walk.reading (resolve · e) where
  enter _ := rfl
  exit e := by
    cases e with
    | cell place _ _ _ => cases place <;> exact .pure _
    | member target name span => exact exitMember_node target name span
    | _ => exact .pure _
  binding _ := ⟨rfl, rfl⟩
  args _ _ _ := ⟨rfl, rfl⟩

theorem visitsParts : VisitsParts Nested.raw hooks inner where
  pass part _ := by cases part <;> rfl
  enterScope _ _ _ _ := .pure _
  enterFunction _ := .pure _
  enterUnit _ := .pure _
  exit part := by
    cases part with
    | use name span => exact exitUse_node name span
    | type t => cases t <;> exact .pure _
    | stmt s h =>
      cases s with
      | expr e => simp [Stmt.isPlain] at h
      | _ => exact .pure _
    | _ => exact .pure _

/-- What the pass does to the parts of a program. -/
def visitor : Visitor (Nested Unit) := inner.scoped pure

/-- **The pass is the visitor.** -/
theorem visits : Visits Nested.raw (Scoped.hooks hooks) visitor :=
  .ascending (visitsParts.scoped rfl fun _ => (map_pure _ _).symm) rewrites.scoped rfl

theorem runPass (unit : String) (p : Program) :
    Compiler.runPass unit p.node pass = Program.node <$> ((p.mapUp visitor).outcome ⟨[], ()⟩).1 :=
  runPass_of_scoped (fun _ => rfl) visits rfl p

/-- An intrinsic mentions no symbol. -/
theorem resolve_staysLinked {s : Nested Unit} {e e' : Expr} (h : resolve s e = .ok e') :
    e.StaysLinked e' := by
  cases e with
  | member target name span =>
    simp only [resolve] at h
    split at h
    · exact Except.ok.inj h ▸ .refl _
    · split at h
      · cases h
      · obtain rfl := Except.ok.inj h
        exact fun _ _ => trivial
  | _ => exact Except.ok.inj h ▸ .refl _

/-- The pass rewrites expressions and leaves declarations and statements. -/
theorem steady : Steady visitor resolve (fun _ d => .ok d) (fun _ st => .ok st) Nested.pushed :=
  Visitor.scoped_steady (fun _ _ => rfl) rfl (fun _ _ => rfl) (fun _ _ => rfl) rfl rfl rfl

/-- A name that stands for a unit is that of the unit. -/
def UnitsSound (frame : Frame) : Prop :=
  ∀ entry ∈ frame.names, ∀ u, entry.2 = .unit u → IntrinsicUnit.ofName? entry.1 = some u

/-- A property that a frame keeps when a unit is bound to its name. -/
def KeptByUse (Q : Frame → Prop) : Prop :=
  ∀ {frame : Frame} {name : String} {u : IntrinsicUnit}, IntrinsicUnit.ofName? name = some u → Q frame →
    Q { frame with names := Sorted.set name (.unit u) frame.names }

theorem keptByUse_linked (S : Symbols) : KeptByUse (Frame.Linked S) := by
  intro frame name u _ hframe entry hentry b hb
  rcases Sorted.mem_set hentry with rfl | hentry
  · cases hb
  · exact hframe entry hentry b hb

theorem keptByUse_sound : KeptByUse UnitsSound := by
  intro frame name u hname hframe entry hentry u' hu'
  rcases Sorted.mem_set hentry with rfl | hentry
  · exact Named.unit.inj hu' ▸ hname
  · exact hframe entry hentry u' hu'

variable {Q : Frame → Prop}

/-- All open frames have a property. -/
def Inv (Q : Frame → Prop) (s : Nested Unit) : Prop := ∀ frame ∈ s.frames, Q frame

theorem Inv.pushed {frame : Frame} {s : Nested Unit} (hframe : Q frame) (hs : Inv Q s) :
    Inv Q (s.pushed frame) :=
  List.forall_mem_cons.mpr ⟨hframe, hs⟩

/-- **A step keeps the property of the open frames**: expressions are rewritten in frames that have it. -/
theorem keeps (Q : Frame → Prop) : Steady.Keeps visitor resolve (fun _ d => .ok d)
    (fun _ st => .ok st) Nested.pushed Expr.StaysLinked (Inv Q) Q where
  type h := by
    obtain rfl := Except.ok.inj (Prod.mk.inj h).1
    exact .refl _
  expr _ h := Expr.staysLinked_of_mapUp resolve_staysLinked h
  decl h := Except.ok.inj h ▸ ⟨rfl, .refl _⟩
  set h := ⟨_, (Except.ok.inj h).symm⟩
  ret h := ⟨_, (Except.ok.inj h).symm⟩
  push := Inv.pushed

/-- Entering and leaving a function keeps the property of the open frames. -/
theorem keepsFunctions (Q : Frame → Prop) : Steady.KeepsFunctions visitor (Inv Q) Q :=
  Visitor.scoped_keepsFunctions Inv.pushed (fun hs henter => (Prod.mk.inj henter).2 ▸ hs)
    fun henter hexit => by
      obtain ⟨_, rfl⟩ := Prod.mk.inj henter
      obtain ⟨hg, rfl⟩ := Prod.mk.inj hexit
      obtain rfl := Except.ok.inj hg
      exact ⟨rfl, rfl, rfl, rfl, rfl, rfl, rfl⟩

/-- The items that are removed. -/
def IsUse (i : Program.Item) : Prop := ∃ name span, i = .use name span

/-- Binding a unit keeps the property of the frames. -/
theorem bind?_unit {frames frames' : Frames} {name : String} {u : IntrinsicUnit} (hQ : KeptByUse Q)
    (hname : IntrinsicUnit.ofName? name = some u) (h : frames.bind? name (.unit u) = some frames')
    (hframes : ∀ frame ∈ frames, Q frame) : ∀ frame ∈ frames', Q frame := by
  cases frames with
  | nil => cases h
  | cons frame outer =>
    simp only [Frames.bind?] at h
    split at h
    · cases h
    · obtain rfl := Option.some.inj h
      obtain ⟨hframe, houter⟩ := List.forall_mem_cons.mp hframes
      exact List.forall_mem_cons.mpr ⟨hQ hname hframe, houter⟩

/-- An item stays, or it was a use and its unit is bound. -/
theorem resolveUse_left (hQ : KeptByUse Q) {i : Program.Item} {left : Option Program.Item}
    {s s' : Nested Unit} (hs : Inv Q s) (h : (resolveUse i).outcome s = (.ok left, s')) :
    Inv Q s' ∧ (left = some i ∨ left = none ∧ IsUse i) := by
  cases i with
  | use name span =>
    simp only [resolveUse] at h
    cases hu : IntrinsicUnit.ofName? name with
    | none => simp [hu] at h
    | some u =>
      simp only [hu, Walk.outcome_bind, Walk.outcome_get, Walk.andThen_ok] at h
      cases hbind : s.frames.bind? name (.unit u) with
      | none => simp [hbind] at h
      | some frames =>
        simp only [hbind, Walk.outcome_bind, Walk.outcome_set, Walk.andThen_ok, Walk.outcome_pure,
          Prod.mk.injEq, Except.ok.injEq] at h
        obtain ⟨rfl, rfl⟩ := h
        exact ⟨bind?_unit hQ hu hbind hs, .inr ⟨rfl, name, span, rfl⟩⟩
  | _ =>
    simp only [resolveUse, Walk.outcome_pure, Prod.mk.injEq, Except.ok.injEq] at h
    obtain ⟨rfl, rfl⟩ := h
    exact ⟨hs, .inl rfl⟩

/-- **A run keeps the property**: from a program whose frames have it, the pass leaves its items with
members resolved, without the uses. -/
theorem mapUp_related {p p' : Program} (hQ : KeptByUse Q) (hsource : p.IsSource) (hframe : Q p.frame)
    (hframes : ∀ frame ∈ Items.frames p.items, Q frame)
    (hrun : ((p.mapUp visitor).outcome ⟨[], ()⟩).1 = .ok p') :
    Items.Related IsUse (Item.Alike (Steady.RewrittenIn (Inv Q) resolve)) p.items p'.items ∧
      ∃ frame, Q frame ∧ p'.frame = frame.above p.frame := by
  obtain ⟨items, s1, hitems, rfl⟩ := Visitor.scoped_program rfl rfl
    (Prod.ext hrun rfl : (p.mapUp visitor).outcome ⟨[], ()⟩ = (.ok p', _))
  have hstart : Inv Q ⟨[p.frame], ()⟩ := List.forall_mem_singleton.mpr hframe
  obtain ⟨hs1, hrelated⟩ := steady.mapUp_items (keeps Q).rewrittenIn (keepsFunctions Q) (resolveUse_left hQ)
    (by rintro _ _ _ _ _ _ _ ⟨_, _, ⟨⟩⟩) hstart hsource hframes hitems
  refine ⟨hrelated, ?_⟩
  cases hs : s1.frames with
  | nil => exact ⟨p.frame, hframe, by simp [Frame.above]⟩
  | cons frame outer => exact ⟨frame, hs1 frame (hs ▸ List.mem_cons_self), rfl⟩

/-- **Units.**  Members of units mention nothing. -/
theorem unbound {p p' : Program} (h : p.Unbound)
    (hrun : ((p.mapUp visitor).outcome ⟨[], ()⟩).1 = .ok p') : p'.Unbound := by
  obtain ⟨hrelated, frame, hframe, habove⟩ := mapUp_related (keptByUse_linked {}) h.source h.frame h.frames hrun
  have hlinked : p'.frame.Linked {} := by
    rw [habove]
    exact fun entry hentry => (Frame.mem_above hentry).elim (hframe entry) (h.frame entry)
  exact .of_related ((hrelated.imp fun halike => halike.imp fun he => he.rewritten).staysLinked
    resolve_staysLinked) h hlinked

/-- What is left of an expression, where names of units are their own. -/
def Resolves : Expr → Expr → Prop := Steady.RewrittenIn (Inv UnitsSound) resolve

/-- Members of units are rewritten, whether names are bound or not. -/
theorem related {p p' : Program} (hsource : p.IsSource)
    (hrun : ((p.mapUp visitor).outcome ⟨[], ()⟩).1 = .ok p') :
    Items.Related IsUse (Item.Alike (Steady.Rewritten resolve)) p.items p'.items :=
  (mapUp_related (Q := fun _ => True) (fun _ _ => trivial) hsource trivial (fun _ _ => trivial) hrun).1.imp
    fun halike => halike.imp fun he => he.rewritten

/-- Units may be resolved when names are bound. -/
theorem bound {p p' : Program} {S : Symbols} (hsource : p.IsSource) (h : p.Bound S)
    (hrun : ((p.mapUp visitor).outcome ⟨[], ()⟩).1 = .ok p') : p'.IsSource ∧ p'.Bound S := by
  refine Program.Bound.of_related ((related hsource hrun).staysLinked resolve_staysLinked) ?_ hsource h
  rintro _ ⟨_, _, rfl⟩
  exact ⟨rfl, rfl⟩

end ResolveUnits

/-! ## 3. Written types -/

namespace ConstructTypes

/-- The name of a type, or a reference to a type that was read, is the type that it denotes. -/
def construct : TypeExpr → Except Error TypeExpr
  | .name n span =>
    match Ty.ofName? n with
    | some type => .ok (.info type span)
    | none => .error ⟨.unknownName n, some span⟩
  | .ref (.info type _) span => .ok (.info (.ref type) span)
  | t => .ok t

/-- What the pass does to the parts of a program. -/
def visitor : Visitor Unit where
  type t := liftM (construct t)

/-- The rules read the types that `construct` says. -/
theorem apply_type (t : TypeExpr) : (fun verdict => verdict.apply t.node) <$> rules.apply t.node =
    (fun t' => some t'.node) <$> construct t := by
  cases t with
  | name n span =>
    have hrule : rules.apply (TypeExpr.name n span).node =
        (match Ty.ofName? n with
          | some type => .ok (.replace (TypeExpr.info type span).node)
          | none => .error ⟨.unknownName n, none⟩ : Except Error Verdict).mapError
            (·.locate span) := rfl
    rw [hrule, construct]
    cases Ty.ofName? n <;> rfl
  | ref target span => cases target <;> rfl
  | info type span => rfl

theorem rewrites : Rewrites id rules.hooks (pure : Expr → Walk Unit Expr) :=
  .of_keep fun ⟨tag, _, _⟩ htag => by cases tag <;> cases htag <;> exact ⟨rfl, rfl⟩

theorem visitsParts : VisitsParts id rules.hooks visitor where
  pass part _ := by cases part <;> rfl
  enterScope _ _ _ _ := .of_eq rfl
  enterFunction _ := .of_eq rfl
  enterUnit _ := .of_eq rfl
  exit part := by
    refine .of_eq ?_
    cases part with
    | type t =>
      refine Walk.ext fun s => ?_
      change (settle rules.hooks.exit t.node).outcome s = _
      simp only [settle, Walk.outcome_map, Visitor.exit, visitor, Walk.outcome_lift]
      exact congrArg (·, s) (apply_type t)
    | stmt s h =>
      cases s with
      | expr e => simp [Stmt.isPlain] at h
      | _ => rfl
    | _ => rfl

/-- **The pass is the visitor.** -/
theorem visits : Visits id rules.hooks visitor :=
  .ascending visitsParts rewrites (funext fun e => (Expr.mapUp_pure e).symm)

theorem runPass (unit : String) (p : Program) :
    Compiler.runPass unit p.node pass = Program.node <$> ((p.mapUp visitor).outcome ()).1 :=
  runPass_of_rules (fun _ => rfl) visits rfl p

/-- A type that is read is the one that is written. -/
theorem construct_same {t t' : TypeExpr} (h : construct t = .ok t') : t.Same t' := by
  cases t with
  | name n span =>
    simp only [construct] at h
    split at h
    · rename_i htype
      obtain rfl := Except.ok.inj h
      exact ⟨fun ht => (by cases ht), htype.symm⟩
    · cases h
  | ref target span =>
    cases target with
    | info type place =>
      obtain rfl := Except.ok.inj h
      exact ⟨fun ht => (by cases ht), rfl⟩
    | _ => exact Except.ok.inj h ▸ .refl _
  | info type span => exact Except.ok.inj h ▸ .refl _

/-- The pass leaves expressions, declarations and statements, apart from their types. -/
theorem steady : Steady visitor (fun _ e => .ok e) (fun _ d => .ok d) (fun _ st => .ok st)
    (fun _ s => s) where
  type _ _ := rfl
  expr := funext fun e => (Expr.mapUp_pure e).symm
  decl _ _ := rfl
  stmt _ _ := rfl
  enterScope _ _ _ _ _ := rfl
  exitScope _ _ _ _ _ := rfl
  cell := rfl
  itemCell := rfl

/-- No property of frames is needed. -/
theorem keeps (Rel : Expr → Expr → Prop) (hrefl : ∀ e, Rel e e) :
    Steady.Keeps visitor (fun _ e => .ok e) (fun _ d => .ok d) (fun _ st => .ok st) (fun _ s => s) Rel
      (fun _ : Unit => True) (fun _ => True) where
  type h := construct_same (Prod.mk.inj h).1
  expr {_ e _} _ h := Except.ok.inj ((Expr.mapUp_pure (m := Except Error) e).symm.trans h) ▸ hrefl e
  decl h := Except.ok.inj h ▸ ⟨rfl, .refl _⟩
  set h := ⟨_, (Except.ok.inj h).symm⟩
  ret h := ⟨_, (Except.ok.inj h).symm⟩
  push _ _ := trivial

/-- Expressions are left as they are. -/
theorem related {p p' : Program} (hsource : p.IsSource) (hrun : ((p.mapUp visitor).outcome ()).1 = .ok p') :
    Items.Related (fun _ => False) (Item.Alike Eq) p.items p'.items ∧ p'.frame = p.frame :=
  steady.mapUp_program (keeps Eq fun _ => rfl) (Steady.keepsFunctions_pure rfl rfl) rfl rfl rfl hsource hrun

/-- **Written types.**  They mention nothing. -/
theorem unbound {p p' : Program} (h : p.Unbound) (hrun : ((p.mapUp visitor).outcome ()).1 = .ok p') :
    p'.Unbound := by
  obtain ⟨hrelated, hframe⟩ := related h.source hrun
  exact .of_related (hrelated.imp fun halike => halike.imp fun he => he ▸ .refl _) h (hframe ▸ h.frame)

end ConstructTypes

end Lode
