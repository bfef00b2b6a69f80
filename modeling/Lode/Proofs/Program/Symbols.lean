/-
# The symbols of programs

A program declares symbols: its functions, its variables, and the parameters and variables of its functions.
It also mentions symbols: in bindings, in memory cells, in jumps, in the holes of code.  `Linked S` says
that everything a part of a program mentions is among the symbols `S`, in the section that the mention
implies.

Linking is a matter of expressions alone: statements and items that are alike, with linked expressions, are
linked (`Stmts.Alike.linked`, `Item.Alike.linked`), and they declare the same functions and variables
(`Items.Related.functions`, `Items.Related.vars`).

The invariant of the passes is `Program.Bound`: a program declares the symbols `S`, in every function
different ones and altogether no more than these, and mentions no others.  It is established when names are
bound and kept by every pass behind, through all the forms that a program takes: the variables of a function
are declarations first, then entries of its table, then the symbols of data.  That the declarations are no
more than the symbols is a count, and it is there to turn an inclusion into an equality at the end: if all
of `S` is declared and nothing is declared twice, then what is declared is `S`.

Before names are bound a program mentions nothing, which is the same notion with no symbols
(`Program.Unbound`).
-/
import Lode.Proofs.Machine.Code
import Lode.Proofs.Program.Alike
import Mathlib.Algebra.GroupWithZero.Nat

namespace Lode.Program

/-! ## 1. Declared symbols -/

/-- A variable with its section and its type. -/
structure Variable where
  symbol : String
  place : Section
  type : Ty

/-- Symbols: those of functions, of constants and of variables. -/
structure Symbols where
  functions : List String := []
  constants : List String := []
  vars : List Variable := []

/-- All symbols of one collection are among those of another. -/
structure Symbols.Within (S T : Symbols) : Prop where
  functions : S.functions ⊆ T.functions
  constants : S.constants ⊆ T.constants
  vars : S.vars ⊆ T.vars

namespace Symbols.Within

theorem refl (S : Symbols) : S.Within S :=
  ⟨List.Subset.refl _, List.Subset.refl _, List.Subset.refl _⟩

theorem trans {S T U : Symbols} (h : S.Within T) (h' : T.Within U) : S.Within U :=
  ⟨List.Subset.trans h.functions h'.functions, List.Subset.trans h.constants h'.constants,
    List.Subset.trans h.vars h'.vars⟩

theorem empty (S : Symbols) : ({} : Symbols).Within S :=
  ⟨List.nil_subset _, List.nil_subset _, List.nil_subset _⟩

end Symbols.Within

/-- The variable of a declaration, once its names are bound. -/
def Let.toVariable? (d : Let) : Option Variable :=
  d.symbol.bind fun symbol => d.place.bind fun place => d.ty.type?.map fun type =>
    ⟨symbol, place, type⟩

/-- The variable of a parameter, once its names are bound. -/
def Param.toVariable? (p : Param) : Option Variable :=
  p.symbol.bind fun symbol => p.ty.type?.map fun type => ⟨symbol, .bss, type⟩

theorem Let.symbol_of_toVariable? {d : Let} {v : Variable} (h : d.toVariable? = some v) :
    d.symbol = some v.symbol := by
  obtain ⟨symbol, hsymbol, h⟩ := Option.bind_eq_some_iff.mp h
  obtain ⟨place, -, h⟩ := Option.bind_eq_some_iff.mp h
  obtain ⟨type, -, rfl⟩ := Option.map_eq_some_iff.mp h
  exact hsymbol

theorem Param.symbol_of_toVariable? {p : Param} {v : Variable} (h : p.toVariable? = some v) :
    p.symbol = some v.symbol := by
  obtain ⟨symbol, hsymbol, h⟩ := Option.bind_eq_some_iff.mp h
  obtain ⟨type, -, rfl⟩ := Option.map_eq_some_iff.mp h
  exact hsymbol

/-- The variable that bytes are for. -/
def Data.toVariable (d : Data) : Variable := ⟨d.symbol, d.place, d.type⟩

mutual

/-- The declarations in a statement. -/
def Stmt.lets : Stmt → List Let
  | .decl d => [d]
  | .scope decl body _ _ => decl.lets ++ body.lets
  | _ => []

/-- The declarations in statements. -/
def Stmts.lets : Stmts → List Let
  | .nil => []
  | .cons stmt rest _ => stmt.lets ++ rest.lets

end

/-- The variables in a table of locals. -/
def Locals.vars (locals : Option Locals) : List Variable :=
  (locals.getD []).map fun entry => entry.2.toVariable

/-- The variables of a function. -/
def Function.vars (f : Function) : List Variable :=
  (f.params.map Prod.fst).filterMap Param.toVariable? ++ f.body.lets.filterMap Let.toVariable? ++
    Locals.vars f.locals

/-- The functions that an item declares. -/
def Item.functions : Item → List String
  | .function f => f.symbol.toList
  | .compiled symbol _ _ _ _ => [symbol]
  | _ => []

/-- The variables that an item declares. -/
def Item.vars : Item → List Variable
  | .global (.decl d) => d.toVariable?.toList
  | .global (.data d) => [d.toVariable]
  | .function f => f.vars
  | .compiled _ _ _ locals _ => Locals.vars locals
  | _ => []

/-- The constants that an item declares. -/
def Item.constants : Item → List String
  | .constant _ _ _ symbol _ => symbol.toList
  | _ => []

/-- The symbols that items declare. -/
def Items.symbols (items : Items) : Symbols :=
  ⟨items.flatMap fun entry => entry.1.functions, items.flatMap fun entry => entry.1.constants,
    items.flatMap fun entry => entry.1.vars⟩

/-- How many functions and variables an item declares. -/
def Item.count : Item → Nat
  | .global _ => 1
  | .function f => 1 + f.params.length + f.body.lets.length + (f.locals.getD []).length
  | .compiled _ _ _ locals _ => 1 + (locals.getD []).length
  | _ => 0

/-- How many functions and variables items declare. -/
def Items.count (items : Items) : Nat := (items.map fun entry => entry.1.count).sum

/-- The symbols of the parameters and variables that are written in a function. -/
def Function.locallyDeclared (f : Function) : List String :=
  (f.params.map Prod.fst).filterMap Param.symbol ++ f.body.lets.filterMap Let.symbol

/-- No two parameters or variables of a function have the same symbol, and its variables are among
the symbols. -/
def Item.Declared (S : Symbols) : Item → Prop
  | .function f => f.locallyDeclared.Nodup ∧ ∀ d ∈ f.body.lets, ∃ v ∈ S.vars, d.toVariable? = some v
  | _ => True

/-! ## 2. Mentioned symbols -/

/-- A binding of a function or variable is one to a symbol. -/
def Binding.Linked (S : Symbols) (b : Binding) : Prop :=
  match b.declaration.kind with
  | .function => b.declaration.symbol ∈ S.functions ∧
      ∀ symbol ∈ b.params.getD [], ∃ type, ⟨symbol, .bss, type⟩ ∈ S.vars
  | .constant => b.declaration.symbol ∈ S.constants
  | .global | .param | .localVar => ∃ place, b.declaration.storage = some place ∧
      ⟨b.declaration.symbol, place, b.declaration.type⟩ ∈ S.vars

mutual

/-- What an expression mentions is a symbol. -/
def Expr.Linked (S : Symbols) : Expr → Prop
  | .ident _ binding type _ => (∀ b ∈ binding, b.Linked S) ∧
      ∀ t ∈ type, ∃ b ∈ binding, t = b.declaration.type
  | .member target _ _ => target.Linked S
  | .call target args callee _ _ => target.Linked S ∧ args.Linked S ∧
      ∀ b ∈ callee, b.Linked S ∧ b.declaration.kind = .function
  | .binop _ lhs rhs _ _ => lhs.Linked S ∧ rhs.Linked S
  | .neg operand _ _ => operand.Linked S
  | .deref target _ _ => target.Linked S
  | .paren inner _ => inner.Linked S
  | .cell (.symbol name) zeroPage type _ => ∃ place type', ⟨name, place, type'⟩ ∈ S.vars ∧
      (zeroPage = true ↔ place = .zp) ∧ (zeroPage = true → type' = type)
  | .number _ _ _ | .string _ _ _ | .intrinsic _ _ _ | .cell (.address _) _ _ _
  | .immediate _ _ _ | .returned _ _ => True

/-- What arguments mention is a symbol. -/
def Args.Linked (S : Symbols) : Args → Prop
  | .nil => True
  | .cons arg rest _ => arg.Linked S ∧ rest.Linked S

end

/-- A memory cell has the width of an operation. -/
def Expr.HasWidth (width : Nat) : Expr → Prop
  | .cell _ _ type _ => type.width = width
  | _ => True

/-- What a relocation mentions is a symbol: one in the zero page, with a byte at least, or one that is
not in it. -/
def HoleLinked (S : Symbols) (r : Relocation) : Prop :=
  match r.kind with
  | .zeroPage8 => ∃ type, ⟨r.symbol, .zp, type⟩ ∈ S.vars ∧ 0 < type.width
  | .absolute16 => r.symbol ∈ S.functions ∨
      ∃ place type, ⟨r.symbol, place, type⟩ ∈ S.vars ∧ place ≠ .zp

/-- Code is made of instructions whose holes are for symbols. -/
def CodeLinked (S : Symbols) (code : MachineCode) : Prop :=
  (∃ instructions, code = Machine.Instruction.codeOf instructions) ∧ ∀ r ∈ code.relocations, HoleLinked S r

/-- A variable has bytes if its type has values. -/
def Data.Filled (d : Data) : Prop := 0 < d.type.width → d.bytes ≠ []

/-- The type of a declaration, if it was computed, is the one that is written in it. -/
def Let.Typed (d : Let) : Prop := ∀ {type : Ty}, d.type = some type → d.ty.type? = some type

mutual

/-- What a statement mentions is a symbol. -/
def Stmt.Linked (S : Symbols) : Stmt → Prop
  | .decl d => d.value.Linked S ∧ d.Typed
  | .set lvalue rvalue _ _ => lvalue.Linked S ∧ rvalue.Linked S
  | .ret value _ _ => ∀ e ∈ value, e.Linked S
  | .expr e => e.Linked S
  | .scope decl body _ _ => decl.Linked S ∧ body.Linked S
  | .data d => d.Filled
  | .load operand width _ | .store operand width _ | .arith _ operand width _ =>
    operand.Linked S ∧ operand.HasWidth width
  | .jump symbol _ => symbol ∈ S.functions
  | .rts _ => True
  | .code code _ => CodeLinked S code

/-- What statements mention is a symbol. -/
def Stmts.Linked (S : Symbols) : Stmts → Prop
  | .nil => True
  | .cons stmt rest _ => stmt.Linked S ∧ rest.Linked S

end

/-- The variables of a table have bytes. -/
def Locals.Filled (locals : Option Locals) : Prop := ∀ entry ∈ locals.getD [], entry.2.Filled

/-- What an item mentions is a symbol. -/
def Item.Linked (S : Symbols) : Item → Prop
  | .use _ _ => True
  | .constant _ _ value _ _ => value.Linked S
  | .global s => s.Linked S
  | .function f => f.body.Linked S ∧ Locals.Filled f.locals
  | .compiled _ code _ locals _ => CodeLinked S code ∧ Locals.Filled locals

/-- The bindings of a frame are to symbols. -/
def Frame.Linked (S : Symbols) (frame : Frame) : Prop :=
  ∀ entry ∈ frame.names, ∀ b, entry.2 = .binding b → b.Linked S

theorem Frame.linked_empty (S : Symbols) : ({} : Frame).Linked S := fun _ h => by cases h

/-! ## 3. More symbols -/

section Within

variable {S T : Symbols}

/-- A binding to a symbol is one among more symbols. -/
theorem Binding.Linked.mono (hST : S.Within T) {b : Binding} (h : b.Linked S) : b.Linked T := by
  unfold Binding.Linked at h ⊢
  cases hkind : b.declaration.kind with
  | function =>
    rw [hkind] at h
    exact ⟨hST.functions h.1, fun symbol hs => (h.2 symbol hs).imp fun _ hv => hST.vars hv⟩
  | constant =>
    rw [hkind] at h
    exact hST.constants h
  | global | param | localVar =>
    rw [hkind] at h
    exact h.imp fun _ hv => ⟨hv.1, hST.vars hv.2⟩

mutual

/-- **Linking is monotone** in the symbols: for expressions. -/
theorem Expr.Linked.mono (hST : S.Within T) : ∀ {e : Expr}, e.Linked S → e.Linked T
  | .ident _ _ _ _, h => ⟨fun b hb => (h.1 b hb).mono hST, h.2⟩
  | .member target _ _, h => Expr.Linked.mono hST (e := target) h
  | .call _ _ _ _ _, h => ⟨Expr.Linked.mono hST h.1, Args.Linked.mono hST h.2.1,
      fun b hb => ⟨(h.2.2 b hb).1.mono hST, (h.2.2 b hb).2⟩⟩
  | .binop _ _ _ _ _, h => ⟨Expr.Linked.mono hST h.1, Expr.Linked.mono hST h.2⟩
  | .neg operand _ _, h => Expr.Linked.mono hST (e := operand) h
  | .deref target _ _, h => Expr.Linked.mono hST (e := target) h
  | .paren inner _, h => Expr.Linked.mono hST (e := inner) h
  | .cell (.symbol _) _ _ _, ⟨place, type, hv, h⟩ => ⟨place, type, hST.vars hv, h⟩
  | .number _ _ _, _ | .string _ _ _, _ | .intrinsic _ _ _, _ | .cell (.address _) _ _ _, _
  | .immediate _ _ _, _ | .returned _ _, _ => trivial

theorem Args.Linked.mono (hST : S.Within T) : ∀ {args : Args}, args.Linked S → args.Linked T
  | .nil, _ => trivial
  | .cons _ _ _, h => ⟨Expr.Linked.mono hST h.1, Args.Linked.mono hST h.2⟩

end

theorem CodeLinked.mono (hST : S.Within T) {code : MachineCode} (h : CodeLinked S code) :
    CodeLinked T code := by
  refine ⟨h.1, fun r hr => ?_⟩
  have hhole := h.2 r hr
  unfold HoleLinked at hhole ⊢
  cases hkind : r.kind with
  | zeroPage8 =>
    rw [hkind] at hhole
    exact hhole.imp fun _ hv => ⟨hST.vars hv.1, hv.2⟩
  | absolute16 =>
    rw [hkind] at hhole
    exact hhole.imp (fun hf => hST.functions hf)
      fun ⟨place, type, hv, hp⟩ => ⟨place, type, hST.vars hv, hp⟩

mutual

/-- Linking is monotone in the symbols: for statements. -/
theorem Stmt.Linked.mono (hST : S.Within T) : ∀ {s : Stmt}, s.Linked S → s.Linked T
  | .decl _, h => ⟨Expr.Linked.mono hST h.1, h.2⟩
  | .set _ _ _ _, h => ⟨Expr.Linked.mono hST h.1, Expr.Linked.mono hST h.2⟩
  | .ret _ _ _, h => fun e he => Expr.Linked.mono hST (h e he)
  | .expr _, h => Expr.Linked.mono hST h
  | .scope _ _ _ _, h => ⟨Stmt.Linked.mono hST h.1, Stmts.Linked.mono hST h.2⟩
  | .data _, h => h
  | .load _ _ _, h | .store _ _ _, h | .arith _ _ _ _, h => ⟨Expr.Linked.mono hST h.1, h.2⟩
  | .jump _ _, h => hST.functions h
  | .rts _, _ => trivial
  | .code _ _, h => CodeLinked.mono hST h

theorem Stmts.Linked.mono (hST : S.Within T) : ∀ {stmts : Stmts}, stmts.Linked S → stmts.Linked T
  | .nil, _ => trivial
  | .cons _ _ _, h => ⟨Stmt.Linked.mono hST h.1, Stmts.Linked.mono hST h.2⟩

end

/-- Linking is monotone in the symbols: for items. -/
theorem Item.Linked.mono (hST : S.Within T) : ∀ {i : Item}, i.Linked S → i.Linked T
  | .use _ _, _ => trivial
  | .constant _ _ _ _ _, h => Expr.Linked.mono hST h
  | .global _, h => Stmt.Linked.mono hST h
  | .function _, h => ⟨Stmts.Linked.mono hST h.1, h.2⟩
  | .compiled _ _ _ _ _, h => ⟨CodeLinked.mono hST h.1, h.2⟩

theorem Frame.Linked.mono (hST : S.Within T) {frame : Frame} (h : frame.Linked S) :
    frame.Linked T := fun entry hentry b hb => (h entry hentry b hb).mono hST

end Within

/-! ## 4. Parts that stay linked -/

/-- An expression mentions nothing new. -/
def Expr.StaysLinked (e e' : Expr) : Prop := ∀ S, e.Linked S → e'.Linked S

theorem Expr.StaysLinked.refl (e : Expr) : e.StaysLinked e := fun _ h => h

theorem Expr.StaysLinked.trans {e e' e'' : Expr} (h : e.StaysLinked e') (h' : e'.StaysLinked e'') :
    e.StaysLinked e'' := fun S hS => h' S (h S hS)

theorem Args.Alike.linked {S T : Symbols} {args args' : Args}
    (h : args.Alike (fun e e' => e.Linked S → e'.Linked T) args') (hS : args.Linked S) :
    args'.Linked T := by
  induction h with
  | nil => trivial
  | cons harg _ ih => exact ⟨harg hS.1, ih hS.2⟩

/-- Expressions of one form are linked part by part. -/
theorem Expr.Alike.linked {S T : Symbols} (hST : S.Within T) {e e' : Expr}
    (h : e.Alike (fun e e' => e.Linked S → e'.Linked T) e') (hS : e.Linked S) : e'.Linked T := by
  cases h with
  | leaf _ => exact hS.mono hST
  | member ht => exact ht hS
  | call ht hargs =>
    exact ⟨ht hS.1, hargs.linked hS.2.1, fun b hb => ⟨(hS.2.2 b hb).1.mono hST, (hS.2.2 b hb).2⟩⟩
  | binop hl hr => exact ⟨hl hS.1, hr hS.2⟩
  | neg ho => exact ho hS
  | deref ht => exact ht hS
  | paren hi => exact hi hS

theorem Expr.Alike.staysLinked {e e' : Expr} (h : e.Alike Expr.StaysLinked e') :
    e.StaysLinked e' := fun S => Expr.Alike.linked (.refl S) (h.imp fun hstays => hstays S)

/-- A rewriting of nodes that mentions nothing new. -/
theorem Expr.staysLinked_of_mapUp {f : Expr → Except Error Expr}
    (hf : ∀ {e e' : Expr}, f e = .ok e' → e.StaysLinked e') {e e' : Expr}
    (h : e.mapUp f = .ok e') : e.StaysLinked e' :=
  Expr.mapUp_rel (fun halike hstep => halike.staysLinked.trans (hf hstep)) h

/-- A visitor that rewrites expressions, mentions nothing new and does nothing else. -/
theorem Steady.keeps_staysLinked {σ : Type} {v : Visitor σ} {expr : σ → Expr → Except Error Expr}
    {push : Frame → σ → σ} (htype : v.type = pure)
    (hexpr : ∀ {s : σ} {e e' : Expr}, expr s e = .ok e' → e.StaysLinked e') :
    Steady.Keeps v expr (fun _ d => .ok d) (fun _ st => .ok st) push Expr.StaysLinked
      (fun _ => True) (fun _ => True) where
  type h := by
    rw [htype] at h
    obtain ⟨rfl, -⟩ := Walk.outcome_pure_eq_ok.mp h
    exact .refl _
  expr _ h := Expr.staysLinked_of_mapUp hexpr h
  decl h := Except.ok.inj h ▸ ⟨rfl, .refl _⟩
  set h := ⟨_, (Except.ok.inj h).symm⟩
  ret h := ⟨_, (Except.ok.inj h).symm⟩
  push _ _ := trivial

theorem Let.Same.typed_of {d d' : Let} (h : d.Same d') (hd : d.Typed) : d'.Typed := fun ht =>
  (h.typed ht).elim (fun ht => h.ty.type (hd ht)) id

mutual

/-- Statements alike mention nothing new. -/
theorem Stmt.Alike.linked {S : Symbols} : ∀ {s s' : Stmt}, s.Alike Expr.StaysLinked s' →
    s.Linked S → s'.Linked S
  | _, _, .decl hv hsame, h => ⟨hv S h.1, hsame.typed_of h.2⟩
  | _, _, .set hl hr, h => ⟨hl S h.1, hr S h.2⟩
  | _, _, .ret hv, h => by
    cases hv with
    | none => exact h
    | some hv =>
      rintro _ ⟨⟩
      exact hv S (h _ rfl)
  | _, _, .expr he, h => he S h
  | _, _, .scope hdecl hbody, h => ⟨Stmt.Alike.linked hdecl h.1, Stmts.Alike.linked hbody h.2⟩

theorem Stmts.Alike.linked {S : Symbols} : ∀ {s s' : Stmts}, s.Alike Expr.StaysLinked s' →
    s.Linked S → s'.Linked S
  | _, _, .nil, _ => trivial
  | _, _, .cons hstmt hrest, h => ⟨Stmt.Alike.linked hstmt h.1, Stmts.Alike.linked hrest h.2⟩

end

/-- Items alike mention nothing new. -/
theorem Item.Alike.linked {S : Symbols} {i i' : Item} (h : i.Alike Expr.StaysLinked i')
    (hS : i.Linked S) : i'.Linked S := by
  cases h with
  | use => trivial
  | constant hv => exact hv S hS
  | global hv hsame => exact ⟨hv S hS.1, hsame.typed_of hS.2⟩
  | function hf => exact ⟨hf.body.linked hS.1, hf.locals ▸ hS.2⟩

/-- Rewritten expressions in items mention nothing new, if no node does. -/
theorem Items.Related.staysLinked {σ : Type} {expr : σ → Expr → Except Error Expr}
    (hexpr : ∀ {s : σ} {e e' : Expr}, expr s e = .ok e' → e.StaysLinked e') {drops : Item → Prop}
    {items items' : Items} (h : Items.Related drops (Item.Alike (Steady.Rewritten expr)) items items') :
    Items.Related drops (Item.Alike Expr.StaysLinked) items items' := by
  refine h.imp fun halike => halike.imp fun hrewritten => ?_
  obtain ⟨s, hs⟩ := hrewritten
  exact Expr.staysLinked_of_mapUp hexpr hs

/-! ## 5. Declarations that stay -/

variable {Rel : Expr → Expr → Prop}

/-- A declaration of the same variable has the same symbol, section and type. -/
theorem Let.Same.toVariable? {d d' : Let} (h : d.Same d') {v : Variable} (hv : d.toVariable? = some v) :
    d'.toVariable? = some v := by
  obtain ⟨symbol, hsymbol, hv⟩ := Option.bind_eq_some_iff.mp hv
  obtain ⟨place, hplace, hv⟩ := Option.bind_eq_some_iff.mp hv
  obtain ⟨type, htype, rfl⟩ := Option.map_eq_some_iff.mp hv
  simp [Let.toVariable?, h.symbol, h.place, hsymbol, hplace, h.ty.type htype]

theorem Param.Same.toVariable? {p p' : Param} (h : p.Same p') {v : Variable}
    (hv : p.toVariable? = some v) : p'.toVariable? = some v := by
  obtain ⟨symbol, hsymbol, hv⟩ := Option.bind_eq_some_iff.mp hv
  obtain ⟨type, htype, rfl⟩ := Option.map_eq_some_iff.mp hv
  simp [Param.toVariable?, h.symbol, hsymbol, h.ty.type htype]

/-- What is found in a list is found in a related one. -/
theorem filterMap_subset {α β : Type} {R : α → α → Prop} {f : α → Option β}
    (hR : ∀ a a' : α, R a a' → ∀ b : β, f a = some b → f a' = some b) {as as' : List α}
    (h : List.Forall₂ R as as') : as.filterMap f ⊆ as'.filterMap f := by
  induction h with
  | nil => exact List.Subset.refl _
  | @cons a a' as as' hhead _ ih =>
    intro b hb
    obtain ⟨c, hc, hcb⟩ := List.mem_filterMap.mp hb
    rcases List.mem_cons.mp hc with rfl | hc
    · exact List.mem_filterMap.mpr ⟨a', List.mem_cons_self, hR _ _ hhead _ hcb⟩
    · obtain ⟨c', hc', hb'⟩ := List.mem_filterMap.mp (ih (List.mem_filterMap.mpr ⟨c, hc, hcb⟩))
      exact List.mem_filterMap.mpr ⟨c', List.mem_cons_of_mem _ hc', hb'⟩

theorem append_subset_append {α : Type} {as as' bs bs' : List α} (h : as ⊆ as') (h' : bs ⊆ bs') :
    as ++ bs ⊆ as' ++ bs' :=
  List.append_subset.mpr ⟨List.subset_append_of_subset_left _ h, List.subset_append_of_subset_right _ h'⟩

mutual

/-- Statements alike declare the same variables. -/
theorem Stmt.Alike.lets : ∀ {s s' : Stmt}, s.Alike Rel s' → List.Forall₂ Let.Same s.lets s'.lets
  | _, _, .decl _ hsame => .cons hsame .nil
  | _, _, .set _ _ => .nil
  | _, _, .ret _ => .nil
  | _, _, .expr _ => .nil
  | _, _, .scope hdecl hbody => List.rel_append (Stmt.Alike.lets hdecl) (Stmts.Alike.lets hbody)

theorem Stmts.Alike.lets : ∀ {s s' : Stmts}, s.Alike Rel s' →
    List.Forall₂ Let.Same s.lets s'.lets
  | _, _, .nil => .nil
  | _, _, .cons hstmt hrest => List.rel_append (Stmt.Alike.lets hstmt) (Stmts.Alike.lets hrest)

end

theorem Function.Alike.vars {f f' : Function} (h : f.Alike Rel f') : f.vars ⊆ f'.vars := by
  have hparams := filterMap_subset (fun _ _ h _ => h.toVariable?) h.params
  have hlets := filterMap_subset (fun _ _ h _ => h.toVariable?) h.body.lets
  rw [Function.vars, Function.vars, h.locals]
  exact append_subset_append (append_subset_append hparams hlets) (List.Subset.refl _)

theorem Item.Alike.functions {i i' : Item} (h : i.Alike Rel i') : i'.functions = i.functions := by
  cases h with
  | function hf => rw [Item.functions, Item.functions, hf.symbol]
  | _ => rfl

/-- The variables of an item are those of one that is alike. -/
theorem Item.Alike.vars {i i' : Item} (h : i.Alike Rel i') : i.vars ⊆ i'.vars := by
  cases h with
  | function hf => exact hf.vars
  | global _ hsame =>
    intro v hv
    exact Option.mem_toList.mpr (hsame.toVariable? (Option.mem_toList.mp hv))
  | _ => exact List.Subset.refl _

/-- An item alike declares different symbols, as the item does. -/
theorem Item.Alike.declared {S : Symbols} {i i' : Item} (h : i.Alike Rel i') (hi : i.Declared S) :
    i'.Declared S := by
  cases h with
  | @function f f' hf =>
    have hparams : (f'.params.map Prod.fst).filterMap Param.symbol =
        (f.params.map Prod.fst).filterMap Param.symbol := by
      have hsame := hf.params
      generalize f.params.map Prod.fst = params at hsame ⊢
      generalize f'.params.map Prod.fst = params' at hsame ⊢
      induction hsame with
      | nil => rfl
      | cons hp _ ih => rw [List.filterMap_cons, List.filterMap_cons, hp.symbol, ih]
    have hlets : f'.body.lets.filterMap Let.symbol = f.body.lets.filterMap Let.symbol := by
      have hsame := hf.body.lets
      generalize f.body.lets = lets at hsame ⊢
      generalize f'.body.lets = lets' at hsame ⊢
      induction hsame with
      | nil => rfl
      | cons hd _ ih => rw [List.filterMap_cons, List.filterMap_cons, hd.symbol, ih]
    refine ⟨?_, fun d' hd' => ?_⟩
    · rw [Function.locallyDeclared, hparams, hlets]
      exact hi.1
    · obtain ⟨d, hd, hsame⟩ := exists_of_mem_right hf.body.lets hd'
      obtain ⟨v, hv, hvar⟩ := hi.2 d hd
      exact ⟨v, hv, hsame.toVariable? hvar⟩
  | _ => trivial

theorem Item.Alike.count {i i' : Item} (h : i.Alike Rel i') : i'.count = i.count := by
  cases h with
  | function hf =>
    have hparams := hf.params.length_eq
    simp only [List.length_map] at hparams
    rw [Item.count, Item.count, hparams, hf.body.lets.length_eq, hf.locals]
  | _ => rfl

/-- An item that declares no function and no variable. -/
def Item.Mute (i : Item) : Prop := i.functions = [] ∧ i.vars = []

section Stay

variable {drops : Item → Prop} (hdrops : ∀ {i : Item}, drops i → i.Mute) {items items' : Items}
  (h : Items.Related drops (Item.Alike Rel) items items')
include hdrops h

/-- **Functions stay.**  Items that are alike declare the same functions. -/
theorem Items.Related.functions : (Items.symbols items).functions ⊆ (Items.symbols items').functions := by
  induction h with
  | nil => exact List.Subset.refl _
  | cons hitem _ ih =>
    simp only [Items.symbols, List.flatMap_cons, hitem.functions]
    exact append_subset_append (List.Subset.refl _) ih
  | drop hdrop _ ih =>
    simp only [Items.symbols, List.flatMap_cons, (hdrops hdrop).1]
    exact ih

/-- **Variables stay.** -/
theorem Items.Related.vars : (Items.symbols items).vars ⊆ (Items.symbols items').vars := by
  induction h with
  | nil => exact List.Subset.refl _
  | cons hitem _ ih =>
    simp only [Items.symbols, List.flatMap_cons]
    exact append_subset_append hitem.vars ih
  | drop hdrop _ ih =>
    simp only [Items.symbols, List.flatMap_cons, (hdrops hdrop).2]
    exact ih

end Stay

/-- Items of which some are dropped declare no more. -/
theorem Items.Related.count {drops : Item → Prop} {items items' : Items}
    (h : Items.Related drops (Item.Alike Rel) items items') : Items.count items' ≤ Items.count items := by
  induction h with
  | nil => exact Nat.le_refl _
  | cons hitem _ ih =>
    simp only [Items.count, List.map_cons, List.sum_cons, hitem.count] at ih ⊢
    exact Nat.add_le_add_left ih _
  | drop _ _ ih =>
    simp only [Items.count, List.map_cons, List.sum_cons] at ih ⊢
    exact Nat.le_trans ih (Nat.le_add_left _ _)

/-- Items that declare more, one by one, declare more. -/
theorem Items.symbols_subset {items items' : Items}
    (h : List.Forall₂ (fun entry entry' => entry.1.functions ⊆ entry'.1.functions ∧
      entry.1.vars ⊆ entry'.1.vars) items items') :
    (Items.symbols items).functions ⊆ (Items.symbols items').functions ∧
      (Items.symbols items).vars ⊆ (Items.symbols items').vars := by
  induction h with
  | nil => exact ⟨List.Subset.refl _, List.Subset.refl _⟩
  | cons hitem _ ih =>
    simp only [Items.symbols, List.flatMap_cons]
    exact ⟨append_subset_append hitem.1 ih.1, append_subset_append hitem.2 ih.2⟩

/-- Items that declare fewer functions and variables, one by one. -/
theorem Items.count_le {items items' : Items}
    (h : List.Forall₂ (fun entry entry' => entry'.1.count ≤ entry.1.count) items items') :
    Items.count items' ≤ Items.count items := by
  induction h with
  | nil => exact Nat.le_refl _
  | cons hitem _ ih =>
    simp only [Items.count, List.map_cons, List.sum_cons] at ih ⊢
    exact Nat.add_le_add hitem ih

theorem Items.Related.frames {drops : Item → Prop} {items items' : Items}
    (h : Items.Related drops (Item.Alike Rel) items items') :
    Items.frames items' ⊆ Items.frames items := by
  induction h with
  | nil => exact List.Subset.refl _
  | cons hitem _ ih =>
    simp only [Items.frames, List.flatMap_cons, hitem.frames_eq]
    exact append_subset_append (List.Subset.refl _) ih
  | drop _ _ ih => exact List.subset_append_of_subset_right _ ih

end Lode.Program

namespace Lode

open Program

/-- A program in the form of a written one. -/
def Program.IsSource (p : Program) : Prop := ∀ entry ∈ p.items, entry.1.isSource = true

/-- A program whose symbols are not yet bound: it mentions none. -/
structure Program.Unbound (p : Program) : Prop where
  source : p.IsSource
  linked : ∀ entry ∈ p.items, entry.1.Linked {}
  frame : p.frame.Linked {}
  frames : ∀ frame ∈ Items.frames p.items, frame.Linked {}

/-- A program whose symbols are bound: it declares the symbols `S`, in every function different ones
and altogether no more than these, and mentions no others. -/
structure Program.Bound (p : Program) (S : Symbols) : Prop where
  linked : ∀ entry ∈ p.items, entry.1.Linked S
  functions : S.functions ⊆ (Items.symbols p.items).functions
  vars : S.vars ⊆ (Items.symbols p.items).vars
  declared : ∀ entry ∈ p.items, entry.1.Declared S
  count : Items.count p.items ≤ S.functions.length + S.vars.length

section Related

variable {p p' : Program} {drops : Program.Item → Prop}
  (h : Items.Related drops (Item.Alike Expr.StaysLinked) p.items p'.items)
include h

/-- An item that is left was alike before. -/
theorem Program.exists_alike {entry : Program.Item × Span} (hentry : entry ∈ p'.items) :
    ∃ entry' ∈ p.items, entry'.1.Alike Expr.StaysLinked entry.1 := by
  obtain ⟨i, hi, halike⟩ := h.exists_of_mem_left (List.mem_map_of_mem hentry)
  obtain ⟨entry', hentry', rfl⟩ := List.mem_map.mp hi
  exact ⟨entry', hentry', halike⟩

theorem Program.isSource_of_related (hp : p.IsSource) : p'.IsSource := fun _ hentry =>
  let ⟨entry', hentry', halike⟩ := exists_alike h hentry
  halike.isSource (hp entry' hentry')

/-- Items alike mention no symbols if there were none. -/
theorem Program.Unbound.of_related (hp : p.Unbound) (hframe : p'.frame.Linked {}) : p'.Unbound where
  source := isSource_of_related h hp.source
  linked entry hentry := by
    obtain ⟨entry', hentry', halike⟩ := exists_alike h hentry
    exact halike.linked (hp.linked entry' hentry')
  frame := hframe
  frames frame hmem := hp.frames frame (h.frames hmem)

/-- **Items alike are bound to the same symbols.** -/
theorem Program.Bound.of_related (hdrops : ∀ {i : Program.Item}, drops i → i.Mute) {S : Symbols}
    (hsource : p.IsSource) (hp : p.Bound S) : p'.IsSource ∧ p'.Bound S := by
  refine ⟨isSource_of_related h hsource, fun entry hentry => ?_,
    List.Subset.trans hp.functions (h.functions hdrops), List.Subset.trans hp.vars (h.vars hdrops),
    fun entry hentry => ?_, Nat.le_trans h.count hp.count⟩
  · obtain ⟨entry', hentry', halike⟩ := exists_alike h hentry
    exact halike.linked (hp.linked entry' hentry')
  · obtain ⟨entry', hentry', halike⟩ := exists_alike h hentry
    exact halike.declared (hp.declared entry' hentry')

end Related

end Lode
