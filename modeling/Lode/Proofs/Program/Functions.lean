/-
# Functions of a program

The passes change the functions of a program one by one: what holds between a function and what a pass
leaves of it holds, position by position, between the functions of the program and of what the pass leaves
of that.  It is the same with the variables that a program declares.  Passes that run one after the other
leave items that are still alike (`Items.Alike.comp`), and so the functions and variables among these are.

Positions are what makes this work.  A pass may drop items, so the items before and after do not correspond
by number; but what is dropped is neither a function nor a variable (`Item.isWhole`), and the list of the
functions alone stays aligned (`Items.Related.picked`).  A property that is shown for one function and the
one it became can then be chained through all passes, up to the code in an archive.

Section 3 is about what visitors leave in bodies: a property of single statements that the visitor
establishes holds of every statement that is left, through all scopes (`leaves_items`).
-/
import Lode.Proofs.Program.Straight
import Mathlib.Logic.Relation

namespace Lode.Program

/-! ## 1. The functions and the variables among items -/

/-- The function that an item is. -/
def Item.function? : Item → Option Function
  | .function f => some f
  | _ => none

/-- The functions among items. -/
def Items.functions (items : Items) : List Function := (items.map (·.1)).filterMap Item.function?

/-- A function among items is one of them. -/
theorem Items.mem_functions {items : Items} {f : Function} :
    f ∈ functions items ↔ .function f ∈ items.map (·.1) := by
  rw [functions, List.mem_filterMap]
  constructor
  · rintro ⟨i, hi, hf⟩
    cases i with
    | function g =>
      obtain rfl := Option.some.inj hf
      exact hi
    | _ => cases hf
  · exact fun h => ⟨_, h, rfl⟩

/-- Items related one by one, of which functions are related to functions only, have related
functions. -/
theorem Items.functions_forall₂ {R : Item → Item → Prop} {F : Function → Function → Prop}
    (hfunction : ∀ {f : Function} {i' : Item}, R (.function f) i' → ∃ f', i' = .function f' ∧ F f f')
    (hother : ∀ {i i' : Item}, R i i' → i.function? = none → i'.function? = none) {items items' : Items}
    (h : List.Forall₂ (fun entry entry' => R entry.1 entry'.1) items items') :
    List.Forall₂ F (functions items) (functions items') := by
  induction h with
  | nil => exact .nil
  | @cons entry entry' _ _ hitem _ ih =>
    simp only [functions, List.map_cons, List.filterMap_cons]
    cases hi : entry.1 with
    | function f =>
      rw [hi] at hitem
      obtain ⟨f', hf', hF⟩ := hfunction hitem
      rw [hf']
      exact .cons hF ih
    | _ =>
      rw [hi] at hitem
      rw [hother hitem rfl]
      exact ih

/-- The variable that an item declares. -/
def Item.let? : Item → Option Let
  | .global (.decl d) => some d
  | _ => none

/-- The variables among items. -/
def Items.lets (items : Items) : List Let := (items.map (·.1)).filterMap Item.let?

/-- A variable among items is one of them. -/
theorem Items.mem_lets {items : Items} {d : Let} :
    d ∈ lets items ↔ .global (.decl d) ∈ items.map (·.1) := by
  rw [lets, List.mem_filterMap]
  constructor
  · rintro ⟨i, hi, hd⟩
    cases i with
    | global s =>
      cases s with
      | decl d' =>
        obtain rfl := Option.some.inj hd
        exact hi
      | _ => cases hd
    | _ => cases hd
  · exact fun h => ⟨_, h, rfl⟩

end Lode.Program

namespace Lode

/-- The functions of a unit. -/
def Program.functions (p : Program) : List Program.Function := Program.Items.functions p.items

/-- The variables of a unit. -/
def Program.lets (p : Program) : List Program.Let := Program.Items.lets p.items

end Lode

namespace Lode.Program

/-! ## 2. Functions that passes leave -/

section Alike

variable {Rel Rel' : Expr → Expr → Prop} {items items' items'' : Items}

mutual

/-- Statements alike have leaves alike. -/
theorem Stmt.Alike.leaves : ∀ {s s' : Stmt}, s.Alike Rel s' →
    List.Forall₂ (Stmt.Alike Rel) s.leaves s'.leaves
  | _, _, .decl hv hsame => .cons (.decl hv hsame) .nil
  | _, _, .set hl hr => .cons (.set hl hr) .nil
  | _, _, .ret hv => .cons (.ret hv) .nil
  | _, _, .expr he => .cons (.expr he) .nil
  | _, _, .scope hd hb => List.rel_append (Stmt.Alike.leaves hd) (Stmts.Alike.leaves hb)

theorem Stmts.Alike.leaves : ∀ {s s' : Stmts}, s.Alike Rel s' →
    List.Forall₂ (Stmt.Alike Rel) s.leaves s'.leaves
  | _, _, .nil => .nil
  | _, _, .cons hs hr => List.rel_append (Stmt.Alike.leaves hs) (Stmts.Alike.leaves hr)

end

/-- Items of which those that are neither variables nor functions may be dropped, and the others stay alike. -/
def Items.Alike (Rel : Expr → Expr → Prop) : Items → Items → Prop :=
  Items.Related (fun i => i.isWhole = true) (Item.Alike Rel)

/-- Items of which only those without variables and functions are dropped stay alike. -/
theorem Items.Related.alike {drops : Item → Prop} (hdrops : ∀ {i : Item}, drops i → i.isWhole = true)
    (h : Items.Related drops (Item.Alike Rel) items items') : Items.Alike Rel items items' := by
  induction h with
  | nil => exact .nil
  | cons hitem _ ih => exact .cons hitem ih
  | drop hdrop _ ih => exact .drop (hdrops hdrop) ih

theorem Items.Alike.refl (hRel : ∀ e : Expr, Rel e e) : ∀ {items : Items},
    (∀ entry ∈ items, entry.1.isSource = true) → Items.Alike Rel items items
  | [], _ => .nil
  | _ :: _, h =>
    have ⟨hitem, hrest⟩ := List.forall_mem_cons.mp h
    .cons (.refl hRel hitem) (Items.Alike.refl hRel hrest)

theorem Items.Alike.imp (hRel : ∀ {e e' : Expr}, Rel e e' → Rel' e e') (h : Items.Alike Rel items items') :
    Items.Alike Rel' items items' :=
  Items.Related.imp (fun hitem => hitem.imp hRel) h

/-- **Items of two passes**, one after the other. -/
theorem Items.Alike.comp (h : Items.Alike Rel items items') (h' : Items.Alike Rel' items' items'') :
    Items.Alike (Relation.Comp Rel Rel') items items'' := by
  induction h generalizing items'' with
  | nil => cases h' with
    | nil => exact .nil
  | cons hitem _ ih =>
    cases h' with
    | cons hitem' hrest' => exact .cons (hitem.trans (fun h h' => ⟨_, h, h'⟩) hitem') (ih hrest')
    | drop hdrop hrest' => exact .drop (hitem.isWhole_eq ▸ hdrop) (ih hrest')
  | drop hdrop _ ih => exact .drop hdrop (ih h')

/-- **What is picked from related items** is related, if nothing that is dropped would be picked. -/
theorem Items.Related.picked {α : Type} {P : α → α → Prop} {R : Item → Item → Prop} {pick : Item → Option α}
    {drops : Item → Prop} (hdrops : ∀ {i : Item}, drops i → pick i = none)
    (hR : ∀ {i i' : Item}, R i i' → Option.Rel P (pick i) (pick i'))
    (h : Items.Related drops R items items') :
    List.Forall₂ P ((items.map (·.1)).filterMap pick) ((items'.map (·.1)).filterMap pick) := by
  induction h with
  | nil => exact .nil
  | @cons i i' _ _ _ hitem _ ih =>
    have hpicked := hR hitem
    rw [List.map_cons, List.map_cons, List.filterMap_cons, List.filterMap_cons]
    generalize pick i = a at hpicked
    generalize pick i' = a' at hpicked
    cases hpicked with
    | some hP => exact .cons hP ih
    | none => exact ih
  | drop hdrop _ ih => rwa [List.map_cons, List.filterMap_cons_none (hdrops hdrop)]

/-- **Functions of items alike.** -/
theorem Items.Alike.functions (h : Items.Alike Rel items items') :
    List.Forall₂ (Function.Alike Rel) (Items.functions items) (Items.functions items') := by
  refine Items.Related.picked (fun {i} hwhole => ?_) (fun {i i'} hitem => ?_) h
  · cases i with
    | function _ => cases hwhole
    | _ => rfl
  · cases hitem with
    | function hf => exact .some hf
    | _ => exact .none

/-- **Variables of items alike.** -/
theorem Items.Alike.lets (h : Items.Alike Rel items items') :
    List.Forall₂ (Let.Alike Rel) (Items.lets items) (Items.lets items') := by
  refine Items.Related.picked (fun {i} hwhole => ?_) (fun {i i'} hitem => ?_) h
  · cases i with
    | global _ => cases hwhole
    | _ => rfl
  · cases hitem with
    | global hv hsame => exact .some ⟨hv, hsame⟩
    | _ => exact .none

theorem Items.rebodied_trans {R R' : Stmts → Stmts → Prop} {items items' items'' : Items}
    (h : List.Forall₂ (fun entry entry' => entry.1.Rebodied R entry'.1) items items')
    (h' : List.Forall₂ (fun entry entry' => entry.1.Rebodied R' entry'.1) items' items'') :
    List.Forall₂ (fun entry entry' => entry.1.Rebodied
      (fun body body'' => ∃ body', R body body' ∧ R' body' body'') entry'.1) items items'' :=
  forall₂_trans (fun hitem hitem' => hitem.trans hitem') h h'

/-- **New bodies.**  Functions that differ in their bodies. -/
theorem Items.functions_rebodied {R : Stmts → Stmts → Prop} {items items' : Items}
    (h : List.Forall₂ (fun entry entry' => entry.1.Rebodied R entry'.1) items items') :
    List.Forall₂ (fun f f' => R f.body f'.body ∧ f' = { f with body := f'.body })
      (Items.functions items) (Items.functions items') := by
  refine Items.functions_forall₂ (R := Item.Rebodied R) (fun hitem => ?_) (fun hitem hnone => ?_) h
  · cases hitem with
    | function hbody => exact ⟨_, rfl, hbody, rfl⟩
    | other hne => exact absurd rfl (hne _)
  · cases hitem with
    | function _ => cases hnone
    | other _ => exact hnone

end Alike

/-! ## 3. Statements that visitors leave -/

namespace Steady

variable {σ : Type} {v : Visitor σ} {expr : σ → Expr → Except Error Expr} {decl : σ → Let → Except Error Let}
  {stmt : σ → Stmt → Except Error Stmt} {push : Frame → σ → σ} {Rel : Expr → Expr → Prop}
  {P : Stmt → Prop}

/-- What a visitor has to do to statements, so that `P` holds of all that it leaves. -/
structure Leaves (decl : σ → Let → Except Error Let) (stmt : σ → Stmt → Except Error Stmt)
    (P : Stmt → Prop) : Prop where
  expr : ∀ e : Expr, P (.expr e)
  decl : ∀ {s : σ} {d d' : Let}, decl s d = .ok d' → P (.decl d')
  set : ∀ {s : σ} {lvalue rvalue : Expr} {type : Option Ty} {span : Span} {st' : Stmt},
    stmt s (.set lvalue rvalue type span) = .ok st' → P st'
  ret : ∀ {s : σ} {value : Option Expr} {type : Option Ty} {span : Span} {st' : Stmt},
    stmt s (.ret value type span) = .ok st' → P st'

mutual

/-- What a visitor leaves of a statement has the property, leaf by leaf. -/
theorem leaves_stmt (h : Steady v expr decl stmt push)
    (hk : Keeps v expr decl stmt push Rel (fun _ => True) (fun _ => True)) (hP : Leaves decl stmt P) :
    ∀ {st st' : Stmt} {s s' : σ}, st.isSource = true →
    (st.mapUp v).outcome s = (.ok st', s') → ∀ leaf ∈ st'.leaves, P leaf
  | .decl d, st', s, s', _, hrun => by
    obtain ⟨ty, _, _, hrest⟩ := Walk.outcome_bind_eq_ok.mp hrun
    obtain ⟨value, _, _, hleft⟩ := Walk.outcome_bind_eq_ok.mp hrest
    rw [h.decl, Prod.mk.injEq] at hleft
    obtain ⟨d', hd', rfl⟩ := map_eq_ok.mp hleft.1
    exact List.forall_mem_singleton.mpr (hP.decl hd')
  | .set lvalue rvalue type span, st', s, s', _, hrun => by
    obtain ⟨lvalue', _, _, hrest⟩ := Walk.outcome_bind_eq_ok.mp hrun
    obtain ⟨rvalue', _, _, hleft⟩ := Walk.outcome_bind_eq_ok.mp hrest
    rw [h.stmt, Prod.mk.injEq] at hleft
    obtain ⟨type', rfl⟩ := hk.set hleft.1
    exact List.forall_mem_singleton.mpr (hP.set hleft.1)
  | .ret none type span, st', s, s', _, hrun => by
    change (v.stmt (.ret none type span)).outcome s = _ at hrun
    rw [h.stmt, Prod.mk.injEq] at hrun
    obtain ⟨type', rfl⟩ := hk.ret hrun.1
    exact List.forall_mem_singleton.mpr (hP.ret hrun.1)
  | .ret (some value) type span, st', s, s', _, hrun => by
    obtain ⟨value', _, _, hleft⟩ := Walk.outcome_bind_eq_ok.mp hrun
    rw [h.stmt, Prod.mk.injEq] at hleft
    obtain ⟨type', rfl⟩ := hk.ret hleft.1
    exact List.forall_mem_singleton.mpr (hP.ret hleft.1)
  | .expr e, st', s, s', _, hrun => by
    rw [Stmt.mapUp, Walk.outcome_map, Prod.mk.injEq] at hrun
    obtain ⟨e', _, rfl⟩ := map_eq_ok.mp hrun.1
    exact List.forall_mem_singleton.mpr (hP.expr e')
  | .scope d body frame span, st', s, s', hsource, hrun => by
    obtain ⟨hsd, hsb⟩ := Bool.and_eq_true_iff.mp hsource
    rw [Stmt.mapUp, Walk.outcome_bind_of_ok (h.enterScope d body frame span s)] at hrun
    obtain ⟨d', _, hd, hrest⟩ := Walk.outcome_bind_eq_ok.mp hrun
    obtain ⟨rfl, -⟩ := h.mapUp_stmt hk trivial (Stmt.isSource_of_isDecl hsd) (fun _ _ => trivial) hd
    obtain ⟨body', _, hbody, hleft⟩ := Walk.outcome_bind_eq_ok.mp hrest
    obtain ⟨rfl, -⟩ := h.mapUp_stmts hk trivial hsb (fun _ _ => trivial) hbody
    rw [h.exitScope, Prod.mk.injEq, Except.ok.injEq] at hleft
    obtain ⟨rfl, -⟩ := hleft
    exact List.forall_mem_append.mpr ⟨leaves_stmt h hk hP (Stmt.isSource_of_isDecl hsd) hd,
      leaves_stmts h hk hP hsb hbody⟩
  | .data _, _, _, _, hsource, _ | .load _ _ _, _, _, _, hsource, _ | .store _ _ _, _, _, _, hsource, _
  | .arith _ _ _ _, _, _, _, hsource, _ | .jump _ _, _, _, _, hsource, _ | .rts _, _, _, _, hsource, _
  | .code _ _, _, _, _, hsource, _ => by simp [Stmt.isSource] at hsource

theorem leaves_stmts (h : Steady v expr decl stmt push)
    (hk : Keeps v expr decl stmt push Rel (fun _ => True) (fun _ => True)) (hP : Leaves decl stmt P) :
    ∀ {stmts stmts' : Stmts} {s s' : σ}, stmts.isSource = true →
    (stmts.mapUp v).outcome s = (.ok stmts', s') → ∀ leaf ∈ stmts'.leaves, P leaf
  | .nil, stmts', s, s', _, hrun => by
    obtain ⟨rfl, -⟩ := Walk.outcome_pure_eq_ok.mp hrun
    exact List.forall_mem_nil P
  | .cons stmt rest span, stmts', s, s', hsource, hrun => by
    obtain ⟨hss, hsr⟩ := Bool.and_eq_true_iff.mp hsource
    obtain ⟨stmt', _, hstmt, hrun1⟩ := Walk.outcome_bind_eq_ok.mp hrun
    obtain ⟨rest', _, hrest, hleft⟩ := Walk.outcome_bind_eq_ok.mp hrun1
    rw [h.cell] at hleft
    obtain ⟨rfl, -⟩ := Walk.outcome_pure_eq_ok.mp hleft
    exact List.forall_mem_append.mpr ⟨leaves_stmt h hk hP hss hstmt, leaves_stmts h hk hP hsr hrest⟩

end

/-- **Visiting items** leaves functions of which `P` holds, statement by statement. -/
theorem leaves_items (h : Steady v expr decl stmt push)
    (hk : Keeps v expr decl stmt push Rel (fun _ => True) (fun _ => True)) (hP : Leaves decl stmt P)
    (hf : KeepsFunctions v (fun _ => True) (fun _ => True)) (hitem : v.item = fun i => pure (some i)) :
    ∀ {items items' : Items} {s s' : σ}, (∀ entry ∈ items, entry.1.isSource = true) →
    (Items.mapUp v items).outcome s = (.ok items', s') → ∀ f ∈ Items.functions items', ∀ leaf ∈ f.body.leaves, P leaf
  | [], items', s, s', _, hrun => by
    obtain ⟨rfl, -⟩ := Walk.outcome_pure_eq_ok.mp hrun
    exact List.forall_mem_nil _
  | (item, span) :: rest, items', s, s', hsource, hrun => by
    obtain ⟨hitemSource, hrestSource⟩ := List.forall_mem_cons.mp hsource
    obtain ⟨left, s1, hleft, hrun1⟩ := Walk.outcome_bind_eq_ok.mp hrun
    obtain ⟨rest', s2, hrest, hcell⟩ := Walk.outcome_bind_eq_ok.mp hrun1
    rw [h.leaveItemCell_eq] at hcell
    obtain ⟨rfl, -⟩ := Walk.outcome_pure_eq_ok.mp hcell
    have ih := leaves_items h hk hP hf hitem hrestSource hrest
    obtain ⟨item', halike, hcases⟩ := h.mapUp_item hk hf trivial hitemSource (fun _ _ => trivial) hleft
    obtain rfl : left = some item' := by
      rcases hcases with ⟨hsome, -⟩ | ⟨-, hrunItem⟩
      · exact hsome
      · rw [hitem] at hrunItem
        exact (Walk.outcome_pure_eq_ok.mp hrunItem).1.symm
    intro g hg
    rcases List.mem_cons.mp (Items.mem_functions.mp hg) with rfl | hg
    · cases halike with
      | @function f =>
        rw [Item.mapUp, Walk.outcome_map, Prod.mk.injEq] at hleft
        obtain ⟨i, hi, hsome⟩ := map_eq_ok.mp hleft.1
        obtain rfl := Option.some.inj hsome
        obtain ⟨-, f', hf', -, s3, hbody⟩ := h.mapUp_function hk hf trivial
          (Bool.and_eq_true_iff.mp hitemSource).1 (fun _ _ => trivial) (Prod.ext hi hleft.2)
        obtain rfl := Item.function.inj hf'
        exact leaves_stmts h hk hP (Bool.and_eq_true_iff.mp hitemSource).1 hbody
    · exact ih g (Items.mem_functions.mpr hg)

end Steady

end Lode.Program
