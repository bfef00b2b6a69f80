/-
# Stages of the compiler

A program before its names are bound is still the written one: its items are alike, no symbol is mentioned,
and the bodies of its functions are flat or, once scopes are explicit, layered.  This is so in whichever
order the first passes run (`Unnamed`), and it is what binding names needs (`Unnamed.ready`).

A stage says which of the passes have run.  Each of them keeps what the others have made: reading types and
resolving units leave bodies flat or layered, as they were (`Stmts.Alike.flat`, `Stmts.Alike.layered`),
explicit scopes declare the same variables as before (`ExplicitScopes.lets_nest`), and a type that was read
stays read.  So there is one lemma for each pass, at any stage where it has not run.

Binding names needs three things of a program: layers to walk through, types to declare variables with, and
no name among those of units that the unit declares itself.  The last one is not for sure, and is exactly
the case in which a name is declared twice (`unused_iff_nodup`).
-/
import Lode.Proofs.Language.Trees
import Lode.Proofs.Pass.Front
import Lode.Proofs.Pass.Order
import Lode.Proofs.Pass.Scoping
import Lode.Proofs.Pass.Simplification
import Lode.Proofs.Program.Declarations

namespace Lode.Program

variable {Rel : Expr → Expr → Prop}

/-! ## 1. Flat and layered bodies -/

/-- Statements one after the other, without scopes. -/
def Stmts.Flat (stmts : Stmts) : Prop := ∀ s ∈ stmts.toList, s.isAction = true ∨ s.isDecl = true

/-- Written statements are flat. -/
theorem Stmts.Written.flat {stmts : Stmts} (h : stmts.Written) : stmts.Flat := by
  intro s hs
  have hwritten := h s hs
  cases s with
  | decl _ => exact .inr rfl
  | set _ _ _ _ | ret _ _ _ | expr _ => exact .inl rfl
  | _ => cases hwritten

theorem Stmt.Alike.isAction {s s' : Stmt} (h : s.Alike Rel s') : s'.isAction = s.isAction := by
  cases h <;> rfl

theorem Stmt.Alike.isDecl_eq {s s' : Stmt} (h : s.Alike Rel s') : s'.isDecl = s.isDecl := by
  cases h <;> rfl

/-- Statements that are alike to flat ones are flat. -/
theorem Stmts.Alike.flat : ∀ {stmts stmts' : Stmts}, stmts.Alike Rel stmts' → stmts.Flat → stmts'.Flat
  | _, _, .nil, h => h
  | _, _, .cons hstmt hrest, h => by
    obtain ⟨hs, hr⟩ := List.forall_mem_cons.mp h
    refine List.forall_mem_cons.mpr ⟨?_, Stmts.Alike.flat hrest hr⟩
    rwa [hstmt.isAction, hstmt.isDecl_eq]

mutual

theorem Stmt.Alike.layered : ∀ {s s' : Stmt}, s.Alike Rel s' → s.Layered → s'.Layered
  | _, _, .set _ _, _ | _, _, .ret _, _ | _, _, .expr _, _ => trivial
  | _, _, .decl _ _, h => h
  | _, _, .scope hdecl hbody, h => by
    cases hdecl with
    | decl _ _ => exact ⟨h.1, Stmts.Alike.layered hbody h.2⟩
    | _ => cases h

/-- Statements that are alike to layered ones are layered. -/
theorem Stmts.Alike.layered : ∀ {stmts stmts' : Stmts}, stmts.Alike Rel stmts' → stmts.Layered →
    stmts'.Layered
  | _, _, .nil, _ => trivial
  | _, _, .cons hstmt hrest, ⟨hs, hr, hlast⟩ => by
    refine ⟨Stmt.Alike.layered hstmt hs, Stmts.Alike.layered hrest hr, ?_⟩
    refine hlast.imp (fun haction => hstmt.isAction.trans haction) fun hnil => ?_
    subst hnil
    cases hrest
    rfl

end

/-- **Explicit scopes** make layers of flat statements. -/
theorem Stmts.Flat.layered_nest : ∀ {stmts : Stmts}, stmts.Flat → (ExplicitScopes.nest stmts).Layered
  | .nil, _ => trivial
  | .cons s rest span, h => by
    obtain ⟨hs, hr⟩ := List.forall_mem_cons.mp h
    have hrest := Stmts.Flat.layered_nest hr
    cases s with
    | decl d => exact ⟨⟨rfl, hrest⟩, trivial, .inr rfl⟩
    | set _ _ _ _ | ret _ _ _ | expr _ => exact ⟨trivial, hrest, .inl rfl⟩
    | _ => rcases hs with hs | hs <;> cases hs

theorem ExplicitScopes.lets_explicit (s : Stmt) (rest : Stmts) (span : Span) :
    (ExplicitScopes.explicit s rest span).lets = s.lets ++ rest.lets := by
  cases s with
  | decl d => exact List.append_nil _
  | _ => rfl

mutual

theorem ExplicitScopes.lets_nestStmt : ∀ s : Stmt, (ExplicitScopes.nestStmt s).lets = s.lets
  | .scope decl body _ _ => by
    rw [ExplicitScopes.nestStmt, Stmt.lets, Stmt.lets, lets_nestStmt decl, lets_nest body]
  | .decl _ | .set _ _ _ _ | .ret _ _ _ | .expr _ | .data _ | .load _ _ _ | .store _ _ _
  | .arith _ _ _ _ | .jump _ _ | .rts _ | .code _ _ => rfl

/-- Explicit scopes declare the same variables. -/
theorem ExplicitScopes.lets_nest : ∀ stmts : Stmts, (ExplicitScopes.nest stmts).lets = stmts.lets
  | .nil => rfl
  | .cons stmt rest span => by
    rw [ExplicitScopes.nest, ExplicitScopes.lets_explicit, Stmts.lets, lets_nestStmt stmt,
      lets_nest rest]

end

/-! ## 2. Items before names are bound -/

/-- A function has no names of its own yet, and its body is flat, or layered. -/
def Item.Shaped (nested : Bool) : Item → Prop
  | .function f => f.frame = {} ∧ if nested then f.body.Layered else f.body.Flat
  | _ => True

/-- The types of an item are read. -/
def Item.TypesRead : Item → Prop
  | .constant _ ty _ _ _ => ty.type?.isSome = true
  | .global (.decl d) => d.ty.type?.isSome = true
  | .function f => (∀ p ∈ f.params.map Prod.fst, p.ty.type?.isSome = true) ∧
      ∀ d ∈ f.body.lets, d.ty.type?.isSome = true
  | _ => True

/-- Items that are alike have bodies of one shape. -/
theorem Item.Alike.shaped {nested : Bool} {i i' : Item} (h : i.Alike Rel i') (hi : i.Shaped nested) :
    i'.Shaped nested := by
  cases h with
  | function hf =>
    refine ⟨hf.frame.trans hi.1, ?_⟩
    cases nested with
    | false => exact hf.body.flat hi.2
    | true => exact hf.body.layered hi.2
  | _ => trivial

theorem isSome_of_imp {t t' : TypeExpr}
    (h : ∀ {type : Ty}, t.type? = some type → t'.type? = some type) (ht : t.type?.isSome = true) :
    t'.type?.isSome = true := by
  obtain ⟨type, htype⟩ := Option.isSome_iff_exists.mp ht
  exact Option.isSome_iff_exists.mpr ⟨type, h htype⟩

/-- Items that are alike have their types read if one has. -/
theorem Item.Alike.typesRead {i i' : Item} (h : i.Alike Rel i') (hi : i.TypesRead) : i'.TypesRead := by
  cases h with
  | use => trivial
  | constant _ hty => exact isSome_of_imp hty.type hi
  | global _ hsame => exact isSome_of_imp hsame.ty.type hi
  | function hf =>
    refine ⟨fun p' hp' => ?_, fun d' hd' => ?_⟩
    · obtain ⟨p, hp, hsame⟩ := exists_of_mem_right hf.params hp'
      exact isSome_of_imp hsame.ty.type (hi.1 p hp)
    · obtain ⟨d, hd, hsame⟩ := exists_of_mem_right hf.body.lets hd'
      exact isSome_of_imp hsame.ty.type (hi.2 d hd)

/-- Explicit scopes keep what an item declares. -/
theorem nestItem_keepsDeclarations (i : Item) :
    (ExplicitScopes.nestItem i).declarations = i.declarations := by
  cases i with
  | global s => cases s <;> rfl
  | function f =>
    simp only [ExplicitScopes.nestItem, Item.declarations, Function.paramNames,
      ExplicitScopes.lets_nest]
  | _ => rfl

theorem nestItem_outline (i : Item) : (ExplicitScopes.nestItem i).outline? = i.outline? := by
  cases i with
  | global s => cases s <;> rfl
  | function f =>
    simp only [ExplicitScopes.nestItem, Item.outline?, Function.outline, ExplicitScopes.lets_nest]
  | _ => rfl

theorem nestItem_typesRead {i : Item} (h : i.TypesRead) : (ExplicitScopes.nestItem i).TypesRead := by
  cases i with
  | global s =>
    cases s with
    | decl d => exact h
    | _ => trivial
  | function f => exact ⟨h.1, by simpa only [ExplicitScopes.lets_nest] using h.2⟩
  | _ => exact h

/-- **Explicit scopes** make layers of a flat body. -/
theorem nestItem_shaped {i : Item} (h : i.Shaped false) : (ExplicitScopes.nestItem i).Shaped true := by
  cases i with
  | function f => exact ⟨h.1, Stmts.Flat.layered_nest (by simpa using h.2)⟩
  | _ => trivial

theorem nestItem_name (i : Item) : (ExplicitScopes.nestItem i).name? = i.name? ∧
    ((ExplicitScopes.nestItem i).ParamsDiffer ↔ i.ParamsDiffer) := by
  cases i with
  | global s => cases s <;> exact ⟨rfl, .rfl⟩
  | _ => exact ⟨rfl, .rfl⟩

end Lode.Program

namespace Lode.ConstructTypes

open Program

/-! ## 3. Types are read -/

/-- A type is read, or refused. -/
theorem mapUp_type_read : ∀ {t t' : TypeExpr}, (t.mapUp visitor.type).outcome () = (.ok t', ()) →
    t'.type?.isSome = true
  | .name n span, t', h => by
    have h : construct (.name n span) = .ok t' := (Prod.mk.inj h).1
    simp only [construct] at h
    split at h
    · exact Except.ok.inj h ▸ rfl
    · cases h
  | .info type span, t', h => by
    have h : construct (.info type span) = .ok t' := (Prod.mk.inj h).1
    exact Except.ok.inj h ▸ rfl
  | .ref target span, t', h => by
    obtain ⟨target', ⟨⟩, htarget, h⟩ := Walk.outcome_bind_eq_ok.mp h
    have hread := mapUp_type_read htarget
    have h : construct (.ref target' span) = .ok t' := (Prod.mk.inj h).1
    cases target' with
    | info type place => exact Except.ok.inj h ▸ rfl
    | _ => cases hread

theorem mapUp_let_read {d : Let} {s : Stmt} (h : (d.mapUp visitor).outcome () = (.ok s, ())) :
    ∃ d', s = .decl d' ∧ d'.ty.type?.isSome = true := by
  obtain ⟨ty, ⟨⟩, hty, h⟩ := Walk.outcome_bind_eq_ok.mp h
  obtain ⟨value, ⟨⟩, -, h⟩ := Walk.outcome_bind_eq_ok.mp h
  obtain ⟨rfl, -⟩ := Walk.outcome_pure_eq_ok.mp h
  exact ⟨_, rfl, mapUp_type_read hty⟩

mutual

theorem mapUp_stmt_read : ∀ {s s' : Stmt}, s.isSource = true →
    (s.mapUp visitor).outcome () = (.ok s', ()) → ∀ d ∈ s'.lets, d.ty.type?.isSome = true
  | .decl d, s', _, h => by
    obtain ⟨d', rfl, hread⟩ := mapUp_let_read h
    simpa [Stmt.lets] using hread
  | .scope decl body frame span, s', hsource, h => by
    obtain ⟨hsd, hsb⟩ := Bool.and_eq_true_iff.mp hsource
    obtain ⟨⟨⟩, ⟨⟩, -, h⟩ := Walk.outcome_bind_eq_ok.mp h
    obtain ⟨decl', ⟨⟩, hdecl, h⟩ := Walk.outcome_bind_eq_ok.mp h
    obtain ⟨body', ⟨⟩, hbody, h⟩ := Walk.outcome_bind_eq_ok.mp h
    obtain ⟨rfl, -⟩ := Walk.outcome_pure_eq_ok.mp h
    exact List.forall_mem_append.mpr
      ⟨mapUp_stmt_read (Stmt.isSource_of_isDecl hsd) hdecl, mapUp_stmts_read hsb hbody⟩
  | .set _ _ _ _, s', _, h | .ret none _ _, s', _, h | .ret (some _) _ _, s', _, h
  | .expr _, s', _, h => by
    obtain ⟨rfl, -⟩ := Walk.outcome_pure_eq_ok.mp h
    simp [Stmt.lets]
  | .data _, _, hsource, _ | .load _ _ _, _, hsource, _ | .store _ _ _, _, hsource, _
  | .arith _ _ _ _, _, hsource, _ | .jump _ _, _, hsource, _ | .rts _, _, hsource, _
  | .code _ _, _, hsource, _ => by simp [Stmt.isSource] at hsource

/-- All types of statements are read. -/
theorem mapUp_stmts_read : ∀ {stmts stmts' : Stmts}, stmts.isSource = true →
    (stmts.mapUp visitor).outcome () = (.ok stmts', ()) → ∀ d ∈ stmts'.lets, d.ty.type?.isSome = true
  | .nil, stmts', _, h => by
    obtain ⟨rfl, -⟩ := Walk.outcome_pure_eq_ok.mp h
    simp [Stmts.lets]
  | .cons stmt rest span, stmts', hsource, h => by
    obtain ⟨hss, hsr⟩ := Bool.and_eq_true_iff.mp hsource
    obtain ⟨stmt', ⟨⟩, hstmt, h⟩ := Walk.outcome_bind_eq_ok.mp h
    obtain ⟨rest', ⟨⟩, hrest, h⟩ := Walk.outcome_bind_eq_ok.mp h
    obtain ⟨rfl, -⟩ := Walk.outcome_pure_eq_ok.mp h
    exact List.forall_mem_append.mpr ⟨mapUp_stmt_read hss hstmt, mapUp_stmts_read hsr hrest⟩

end

/-- All types of parameters are read. -/
theorem mapUp_params_read : ∀ {params params' : Params},
    (Params.mapUp visitor params).outcome () = (.ok params', ()) →
      ∀ p ∈ params'.map Prod.fst, p.ty.type?.isSome = true
  | [], params', h => by
    obtain ⟨rfl, -⟩ := Walk.outcome_pure_eq_ok.mp h
    simp
  | entry :: rest, params', h => by
    obtain ⟨param, ⟨⟩, hparam, h⟩ := Walk.outcome_bind_eq_ok.mp h
    obtain ⟨rest', ⟨⟩, hrest, h⟩ := Walk.outcome_bind_eq_ok.mp h
    obtain ⟨ty, ⟨⟩, hty, hparam⟩ := Walk.outcome_bind_eq_ok.mp hparam
    obtain ⟨rfl, -⟩ := Walk.outcome_pure_eq_ok.mp hparam
    obtain ⟨rfl, -⟩ := Walk.outcome_pure_eq_ok.mp h
    exact List.forall_mem_cons.mpr ⟨mapUp_type_read hty, mapUp_params_read hrest⟩

/-- All types of an item are read. -/
theorem mapUp_item_read {i : Program.Item} {left : Option Program.Item} (hsource : i.isSource = true)
    (h : (i.mapUp visitor).outcome () = (.ok left, ())) : ∃ i', left = some i' ∧ i'.TypesRead := by
  cases i with
  | use name span =>
    obtain ⟨rfl, -⟩ := Walk.outcome_pure_eq_ok.mp h
    exact ⟨_, rfl, trivial⟩
  | constant name ty value symbol span =>
    obtain ⟨ty', ⟨⟩, hty, h⟩ := Walk.outcome_bind_eq_ok.mp h
    obtain ⟨value', ⟨⟩, -, h⟩ := Walk.outcome_bind_eq_ok.mp h
    obtain ⟨rfl, -⟩ := Walk.outcome_pure_eq_ok.mp h
    exact ⟨_, rfl, mapUp_type_read hty⟩
  | global st =>
    cases st with
    | decl d =>
      rw [Item.mapUp, Walk.outcome_map, Prod.mk.injEq] at h
      obtain ⟨st', hst, rfl⟩ := map_eq_ok.mp h.1
      obtain ⟨d', rfl, hread⟩ := mapUp_let_read
        (Prod.ext hst rfl : (d.mapUp visitor).outcome () = (.ok st', ()))
      exact ⟨_, rfl, hread⟩
    | _ => simp [Item.isSource] at hsource
  | function f =>
    rw [Item.mapUp, Walk.outcome_map, Prod.mk.injEq] at h
    obtain ⟨i', hi', rfl⟩ := map_eq_ok.mp h.1
    obtain ⟨⟨⟩, ⟨⟩, -, h⟩ := Walk.outcome_bind_eq_ok.mp
      (Prod.ext hi' rfl : (f.mapUp visitor).outcome () = (.ok i', ()))
    obtain ⟨params, ⟨⟩, hparams, h⟩ := Walk.outcome_bind_eq_ok.mp h
    obtain ⟨result, ⟨⟩, -, h⟩ := Walk.outcome_bind_eq_ok.mp h
    obtain ⟨body, ⟨⟩, hbody, h⟩ := Walk.outcome_bind_eq_ok.mp h
    obtain ⟨rfl, -⟩ := Walk.outcome_pure_eq_ok.mp h
    exact ⟨_, rfl, mapUp_params_read hparams,
      mapUp_stmts_read (Bool.and_eq_true_iff.mp hsource).1 hbody⟩
  | compiled _ _ _ _ _ => simp [Item.isSource] at hsource

theorem mapUp_items_read : ∀ {items items' : Items}, (∀ entry ∈ items, entry.1.isSource = true) →
    (Items.mapUp visitor items).outcome () = (.ok items', ()) → ∀ entry ∈ items', entry.1.TypesRead
  | [], items', _, h => by
    obtain ⟨rfl, -⟩ := Walk.outcome_pure_eq_ok.mp h
    simp
  | entry :: rest, items', hsource, h => by
    obtain ⟨hs, hsrest⟩ := List.forall_mem_cons.mp hsource
    obtain ⟨left, ⟨⟩, hitem, h⟩ := Walk.outcome_bind_eq_ok.mp h
    obtain ⟨rest', ⟨⟩, hrest, h⟩ := Walk.outcome_bind_eq_ok.mp h
    obtain ⟨i', rfl, hread⟩ := mapUp_item_read hs hitem
    obtain ⟨rfl, -⟩ := Walk.outcome_pure_eq_ok.mp h
    exact List.forall_mem_cons.mpr ⟨hread, mapUp_items_read hsrest hrest⟩

/-- **All types are read.** -/
theorem typesRead {p p' : Program} (hsource : p.IsSource)
    (hrun : ((p.mapUp visitor).outcome ()).1 = .ok p') : ∀ entry ∈ p'.items, entry.1.TypesRead := by
  have hrun : (p.mapUp visitor).outcome () = (.ok p', ()) := Prod.ext hrun rfl
  rw [Program.mapUp, show visitor.enterUnit = pure from rfl, pure_bind] at hrun
  obtain ⟨items, ⟨⟩, hitems, hexit⟩ := Walk.outcome_bind_eq_ok.mp hrun
  obtain ⟨rfl, -⟩ := Walk.outcome_pure_eq_ok.mp hexit
  exact mapUp_items_read hsource hitems

end Lode.ConstructTypes

namespace Lode.ResolveUnits

open Program
open BindNames (Unused declares?)

/-! ## 4. Units in use -/

/-- The units that items use. -/
def uses (items : Items) : List String := items.filterMap fun entry =>
  match entry.1 with
  | .use name _ => some name
  | _ => none

/-- The names of a frame stand for units. -/
def UnitsOnly (frame : Frame) : Prop :=
  ∀ entry ∈ frame.names, ∃ u, entry.2 = .unit u ∧ IntrinsicUnit.ofName? entry.1 = some u

/-- The names of a frame are those of another one and some more. -/
def Extends (names : List String) (frame frame' : Frame) : Prop :=
  ∀ name, (Sorted.find? name frame'.names).isSome = true ↔
    (Sorted.find? name frame.names).isSome = true ∨ name ∈ names

/-- The units in use become the names of a frame, if no two are the same. -/
theorem mapUp_uses : ∀ {items items' : Items} {frame : Frame} {s' : Nested Unit},
    (∀ entry ∈ items, entry.1.isSource = true) → UnitsOnly frame →
    (Items.mapUp visitor items).outcome ⟨[frame], ()⟩ = (.ok items', s') →
      ∃ frame', s' = ⟨[frame'], ()⟩ ∧ frame'.constants = frame.constants ∧ UnitsOnly frame' ∧
        Unused (uses items) frame ∧ Extends (uses items) frame frame'
  | [], items', frame, s', _, hunits, h => by
    obtain ⟨rfl, rfl⟩ := Walk.outcome_pure_eq_ok.mp h
    exact ⟨frame, rfl, rfl, hunits, ⟨List.nodup_nil, by simp [uses]⟩, by simp [Extends, uses]⟩
  | (item, span) :: rest, items', frame, s', hsource, hunits, h => by
    obtain ⟨hs, hsrest⟩ := List.forall_mem_cons.mp hsource
    obtain ⟨left, s1, hitem, h⟩ := Walk.outcome_bind_eq_ok.mp h
    obtain ⟨rest', s2, hrest, h⟩ := Walk.outcome_bind_eq_ok.mp h
    rw [steady.leaveItemCell_eq] at h
    obtain ⟨-, rfl⟩ := Walk.outcome_pure_eq_ok.mp h
    -- an item that is no use leaves the frame, and brings no unit into it
    have hcases : (∃ name place, item = .use name place) ∨ (s1 = ⟨[frame], ()⟩ ∧
        uses ((item, span) :: rest) = uses rest) := by
      obtain ⟨item', halike, hleft⟩ := steady.mapUp_item (keeps fun _ => True) (keepsFunctions fun _ => True)
        (fun _ _ => trivial) hs (fun _ _ => trivial) hitem
      cases halike with
      | use => exact .inl ⟨_, _, rfl⟩
      | constant _ _ =>
        rcases hleft with ⟨-, -, hwhole⟩ | ⟨-, hrun⟩
        · cases hwhole
        · exact .inr ⟨(Walk.outcome_pure_eq_ok.mp hrun).2.symm, rfl⟩
      | global _ _ | function _ =>
        rcases hleft with ⟨-, hs1, -⟩ | ⟨hwhole, -⟩
        · exact .inr ⟨hs1, rfl⟩
        · cases hwhole
    rcases hcases with ⟨name, place, rfl⟩ | ⟨rfl, huses⟩
    -- a unit in use is bound in the frame, if its name is not taken there
    · change (resolveUse (.use name place)).outcome ⟨[frame], ()⟩ = _ at hitem
      simp only [resolveUse] at hitem
      cases hu : IntrinsicUnit.ofName? name with
      | none => simp [hu] at hitem
      | some u =>
        simp only [hu, Walk.outcome_bind, Walk.outcome_get, Walk.andThen_ok, Frames.bind?] at hitem
        cases hfind : Sorted.find? name frame.names with
        | some _ => simp [hfind] at hitem
        | none =>
          simp only [hfind, Option.isSome_none, Bool.false_eq_true, if_false, Walk.outcome_bind,
            Walk.outcome_set, Walk.andThen_ok, Walk.outcome_pure, Prod.mk.injEq,
            Except.ok.injEq] at hitem
          obtain ⟨rfl, rfl⟩ := hitem
          obtain ⟨frame', rfl, hconstants, hunits', hunused, hextends⟩ :=
            mapUp_uses hsrest (fun entry hentry => by
              rcases Sorted.mem_set hentry with rfl | hentry
              · exact ⟨u, rfl, hu⟩
              · exact hunits entry hentry) hrest
          refine ⟨frame', rfl, hconstants, hunits', (Unused.cons _).mpr ⟨hfind, hunused⟩, fun other => ?_⟩
          rw [hextends other, Sorted.find?_isSome_iff, Sorted.set, Sorted.mem_keys_alter,
            Sorted.find?_isSome_iff]
          simp only [uses, List.filterMap_cons, List.mem_cons]
          tauto
    · rw [huses]
      exact mapUp_uses hsrest hunits hrest

end Lode.ResolveUnits

namespace Lode

open Program
open BindNames (Unused declares? declaredNames ProgramReady)

/-! ## 5. Programs before names are bound -/

/-- A program before names are bound, at some stage, next to the written one. -/
structure Unnamed (p : Program) (stage : Stage) (q : Program) : Prop where
  unbound : q.Unbound
  declarations : q.declarations = p.declarations
  outline : q.outline = p.outline
  declared : declaredNames q = declaredNames p
  differ : (∀ i ∈ q.items.map (·.1), i.ParamsDiffer) ↔ ∀ i ∈ p.items.map (·.1), i.ParamsDiffer
  shaped : ∀ i ∈ q.items.map (·.1), i.Shaped stage.nested
  typesRead : stage.typed = true → ∀ i ∈ q.items.map (·.1), i.TypesRead
  constants : q.frame.constants = []
  units : ResolveUnits.UnitsOnly q.frame
  unresolved : stage.resolved = false → q.unitNames = p.unitNames ∧ q.frame = {}
  resolved : stage.resolved = true → (Unused (declaredNames p) q.frame ↔ p.unitNames.Nodup)

theorem Program.Item.Alike.declares? {Rel : Expr → Expr → Prop} {i i' : Program.Item}
    (h : i.Alike Rel i') : declares? i' = declares? i := by
  cases h with
  | use | constant _ _ => rfl
  | global _ hsame => exact congrArg some hsame.name
  | function hf => exact congrArg some hf.name

/-- What related items have in common. -/
structure Agree (items items' : Items) : Prop where
  declarations : (items'.map (·.1)).flatMap Item.declarations = (items.map (·.1)).flatMap Item.declarations
  outline : (items'.map (·.1)).filterMap Item.outline? = (items.map (·.1)).filterMap Item.outline?
  declared : (items'.map (·.1)).filterMap declares? = (items.map (·.1)).filterMap declares?
  differ : (∀ i ∈ items'.map (·.1), i.ParamsDiffer) ↔ ∀ i ∈ items.map (·.1), i.ParamsDiffer

/-- Related items declare the same names and variables. -/
theorem Agree.of_related {Rel : Expr → Expr → Prop} {drops : Program.Item → Prop}
    (hdrops : ∀ {i : Program.Item}, drops i → ResolveUnits.IsUse i) {items items' : Items}
    (h : Items.Related drops (Item.Alike Rel) items items') : Agree items items' := by
  induction h with
  | nil => exact ⟨rfl, rfl, rfl, .rfl⟩
  | cons hitem _ ih =>
    refine ⟨?_, ?_, ?_, ?_⟩
    · rw [List.map_cons, List.map_cons, List.flatMap_cons, List.flatMap_cons, hitem.declarations,
        ih.declarations]
    · rw [List.map_cons, List.map_cons, List.filterMap_cons, List.filterMap_cons, hitem.outline?,
        ih.outline]
    · rw [List.map_cons, List.map_cons, List.filterMap_cons, List.filterMap_cons, hitem.declares?,
        ih.declared]
    · simp only [List.map_cons, List.forall_mem_cons, hitem.paramsDiffer, ih.differ]
  | drop hdrop _ ih =>
    obtain ⟨name, place, rfl⟩ := hdrops hdrop
    refine ⟨ih.declarations, ih.outline, ih.declared, ?_⟩
    rw [List.map_cons, List.forall_mem_cons, ih.differ]
    exact ⟨fun h => ⟨trivial, h⟩, fun h => h.2⟩

/-- The names that items bring into a unit are those of the units in use and the declared ones. -/
theorem unitNames_perm : ∀ items : Items, ((items.map (·.1)).filterMap Item.name?).Perm
    (ResolveUnits.uses items ++ (items.map (·.1)).filterMap declares?)
  | [] => .refl _
  | (i, span) :: rest => by
    have ih := unitNames_perm rest
    cases i with
    | use name place => exact ih.cons name
    | constant name _ _ _ _ => exact (ih.cons name).trans List.perm_middle.symm
    | global st =>
      cases st with
      | decl d => exact (ih.cons d.name).trans List.perm_middle.symm
      | _ => exact ih
    | function f => exact (ih.cons f.name).trans List.perm_middle.symm
    | compiled _ _ _ _ _ => exact ih

/-- Names that a frame of units does not have are not those of units in use. -/
theorem unused_iff_nodup {items : Items} {frame : Frame}
    (huses : (ResolveUnits.uses items).Nodup)
    (hextends : ResolveUnits.Extends (ResolveUnits.uses items) {} frame) :
    Unused ((items.map (·.1)).filterMap declares?) frame ↔
      ((items.map (·.1)).filterMap Item.name?).Nodup := by
  rw [(unitNames_perm items).nodup_iff, List.nodup_append]
  have hfind : ∀ name, Sorted.find? name frame.names = none ↔ name ∉ ResolveUnits.uses items := by
    intro name
    have h := hextends name
    rw [← Option.not_isSome_iff_eq_none, h]
    simp [Sorted.find?]
  constructor
  · rintro ⟨hnodup, hnone⟩
    refine ⟨huses, hnodup, fun a ha b hb hab => ?_⟩
    exact (hfind b).mp (hnone b hb) (hab ▸ ha)
  · rintro ⟨-, hnodup, hapart⟩
    exact ⟨hnodup, fun name hname => (hfind name).mpr fun hmem => hapart name hmem name hname rfl⟩

namespace Unnamed

variable {p q q' : Program} {stage : Stage}

/-- **Names can be bound** once scopes are explicit and types are read. -/
theorem ready (h : Unnamed p stage q) (hnested : stage.nested = true) (htyped : stage.typed = true) :
    ProgramReady q := by
  intro i hi
  have hshaped := h.shaped i hi
  have htypes := h.typesRead htyped i hi
  obtain ⟨entry, hentry, rfl⟩ := List.mem_map.mp hi
  have hlinked := h.unbound.linked entry hentry
  have hsource := h.unbound.source entry hentry
  rw [hnested] at hshaped
  cases hi' : entry.1 with
  | use name span => trivial
  | constant name ty value symbol span =>
    simp only [hi'] at htypes hlinked
    exact ⟨htypes, hlinked⟩
  | global st =>
    simp only [hi'] at htypes hlinked hsource
    cases st with
    | decl d => exact ⟨htypes, hlinked.1⟩
    | _ => simp [Item.isSource] at hsource
  | function f =>
    simp only [hi'] at htypes hlinked hshaped
    exact ⟨htypes.1, hshaped.1, by simpa using hshaped.2, hlinked.1, htypes.2⟩
  | compiled _ _ _ _ _ =>
    simp only [hi'] at hsource
    simp [Item.isSource] at hsource

theorem forall_alike {Rel : Expr → Expr → Prop} {drops : Program.Item → Prop} {P : Program.Item → Prop}
    (hP : ∀ {i i' : Program.Item}, i.Alike Rel i' → P i → P i')
    (hrelated : Items.Related drops (Item.Alike Rel) q.items q'.items)
    (h : ∀ i ∈ q.items.map (·.1), P i) : ∀ i ∈ q'.items.map (·.1), P i := by
  intro i' hi'
  obtain ⟨i, hi, halike⟩ := hrelated.exists_of_mem_left hi'
  exact hP halike (h i hi)

/-- **Explicit scopes.** -/
theorem scopes (h : Unnamed p stage q) (hnested : stage.nested = false) :
    Unnamed p { stage with nested := true } (ExplicitScopes.nested q) := by
  have hitems : (ExplicitScopes.nested q).items.map (·.1) =
      (q.items.map (·.1)).map ExplicitScopes.nestItem := by
    simp [ExplicitScopes.nested]
  have hforall : ∀ {P : Program.Item → Prop}, (∀ i ∈ (ExplicitScopes.nested q).items.map (·.1), P i) ↔
      ∀ i ∈ q.items.map (·.1), P (ExplicitScopes.nestItem i) := by
    intro P
    rw [hitems, List.forall_mem_map]
  have hdeclares : ∀ i, declares? (ExplicitScopes.nestItem i) = declares? i := fun i => by
    cases i with
    | global s => cases s <;> rfl
    | _ => rfl
  exact
    { unbound := ExplicitScopes.nested_unbound h.unbound
      declarations := by
        rw [← h.declarations, Program.declarations, Program.declarations, hitems, List.flatMap_map]
        exact congrArg (List.flatMap · _) (funext nestItem_keepsDeclarations)
      outline := by
        rw [← h.outline, Program.outline, Program.outline, hitems, List.filterMap_map]
        exact congrArg (List.filterMap · _) (funext nestItem_outline)
      declared := by
        rw [← h.declared, declaredNames, declaredNames, hitems, List.filterMap_map]
        exact congrArg (List.filterMap · _) (funext hdeclares)
      differ := by
        rw [← h.differ, hforall]
        exact forall₂_congr fun i _ => (nestItem_name i).2
      shaped := hforall.mpr fun i hi => nestItem_shaped (hnested ▸ h.shaped i hi)
      typesRead := fun htyped => hforall.mpr fun i hi => nestItem_typesRead (h.typesRead htyped i hi)
      constants := h.constants
      units := h.units
      unresolved := fun hresolved => by
        refine ⟨?_, (h.unresolved hresolved).2⟩
        rw [← (h.unresolved hresolved).1, Program.unitNames, Program.unitNames, hitems,
          List.filterMap_map]
        exact congrArg (List.filterMap · _) (funext fun i => (nestItem_name i).1)
      resolved := h.resolved }

/-- Related items bring the same names into a unit. -/
theorem names_of_related {Rel : Expr → Expr → Prop}
    (h : Items.Related (fun _ => False) (Item.Alike Rel) q.items q'.items) :
    q'.unitNames = q.unitNames := by
  unfold Program.unitNames
  generalize q.items = items at h ⊢
  generalize q'.items = items' at h ⊢
  induction h with
  | nil => rfl
  | cons hitem _ ih =>
    rw [List.map_cons, List.map_cons, List.filterMap_cons, List.filterMap_cons, hitem.name?, ih]
  | drop hdrop _ _ => exact hdrop.elim

/-- **Types that are read.** -/
theorem types (h : Unnamed p stage q)
    (hrun : ((q.mapUp ConstructTypes.visitor).outcome ()).1 = .ok q') :
    Unnamed p { stage with typed := true } q' := by
  obtain ⟨hrelated, hframe⟩ := ConstructTypes.related h.unbound.source hrun
  have hagree := Agree.of_related (fun h => h.elim) hrelated
  have hread := ConstructTypes.typesRead h.unbound.source hrun
  exact
    { unbound := ConstructTypes.unbound h.unbound hrun
      declarations := hagree.declarations.trans h.declarations
      outline := hagree.outline.trans h.outline
      declared := hagree.declared.trans h.declared
      differ := hagree.differ.trans h.differ
      shaped := forall_alike (fun halike => halike.shaped) hrelated h.shaped
      typesRead := fun _ i hi => by
        obtain ⟨entry, hentry, rfl⟩ := List.mem_map.mp hi
        exact hread entry hentry
      constants := hframe ▸ h.constants
      units := hframe ▸ h.units
      unresolved := fun hresolved => by
        refine ⟨?_, hframe ▸ (h.unresolved hresolved).2⟩
        rw [← (h.unresolved hresolved).1]
        exact names_of_related hrelated
      resolved := fun hresolved => by
        rw [hframe]
        exact h.resolved hresolved }

theorem above_empty (frame : Frame) : frame.above {} = frame := by
  obtain ⟨names, constants⟩ := frame
  cases names <;> cases constants <;> rfl

/-- **Units that are resolved.** -/
theorem resolve (h : Unnamed p stage q) (hresolved : stage.resolved = false)
    (hrun : ((q.mapUp ResolveUnits.visitor).outcome ⟨[], ()⟩).1 = .ok q') :
    Unnamed p { stage with resolved := true } q' := by
  obtain ⟨hnames, hframe⟩ := h.unresolved hresolved
  have hrelated := ResolveUnits.related h.unbound.source hrun
  have hagree := Agree.of_related id hrelated
  obtain ⟨items, s1, hitems, hq'⟩ := Visitor.scoped_program rfl rfl
    (Prod.ext hrun rfl : (q.mapUp ResolveUnits.visitor).outcome ⟨[], ()⟩ = (.ok q', _))
  rw [hframe] at hitems
  obtain ⟨frame, rfl, hconstants, hunits, hunused, hextends⟩ :=
    ResolveUnits.mapUp_uses h.unbound.source (fun _ hentry => by cases hentry) hitems
  have hframe' : q'.frame = frame := by
    rw [hq', hframe]
    exact above_empty frame
  exact
    { unbound := ResolveUnits.unbound h.unbound hrun
      declarations := hagree.declarations.trans h.declarations
      outline := hagree.outline.trans h.outline
      declared := hagree.declared.trans h.declared
      differ := hagree.differ.trans h.differ
      shaped := forall_alike (fun halike => halike.shaped) hrelated h.shaped
      typesRead := fun htyped =>
        forall_alike (fun halike => halike.typesRead) hrelated (h.typesRead htyped)
      constants := hframe' ▸ hconstants
      units := hframe' ▸ hunits
      unresolved := fun hfalse => by cases hfalse
      resolved := fun _ => by
        rw [hframe', ← h.declared, ← hnames]
        exact unused_iff_nodup hunused.1 hextends }

end Unnamed

/-! ## 6. Written programs -/

/-- Simplified statements are alike to what they were. -/
theorem Simplify.alike_stmts : ∀ {stmts : Stmts}, stmts.Flat →
    stmts.Alike (fun _ _ => True) (Simplify.simpleStmts stmts)
  | .nil, _ => .nil
  | .cons s rest span, h => by
    obtain ⟨hs, hr⟩ := List.forall_mem_cons.mp h
    refine .cons ?_ (Simplify.alike_stmts hr)
    cases s with
    | decl d => exact .decl trivial ⟨rfl, rfl, rfl, rfl, .refl _, .inl⟩
    | set _ _ _ _ => exact .set trivial trivial
    | ret value _ _ =>
      cases value with
      | none => exact .ret .none
      | some _ => exact .ret (.some trivial)
    | expr _ => exact .expr trivial
    | _ => rcases hs with hs | hs <;> cases hs

theorem forall₂_paramSame : ∀ params : List Param, List.Forall₂ Param.Same params params
  | [] => .nil
  | _ :: rest => .cons ⟨rfl, rfl, .refl _⟩ (forall₂_paramSame rest)

/-- A simplified item is alike to what it was. -/
theorem Simplify.alike_item {i : Program.Item} (h : i.Written) :
    i.Alike (fun _ _ => True) (Simplify.simpleItem i) := by
  cases i with
  | use _ _ => exact .use
  | constant _ _ _ _ _ => exact .constant trivial (.refl _)
  | global s =>
    cases s with
    | decl d => exact .global trivial ⟨rfl, rfl, rfl, rfl, .refl _, .inl⟩
    | _ => cases h
  | function f =>
    exact .function ⟨rfl, rfl, forall₂_paramSame _, Simplify.alike_stmts h.body.flat, rfl, rfl⟩
  | compiled _ _ _ _ _ => cases h

theorem Simplify.related : ∀ {items : Items}, (∀ i ∈ items.map (·.1), i.Written) →
    Items.Related (fun _ => False) (Item.Alike fun _ _ => True) items
      (items.map fun entry => (Simplify.simpleItem entry.1, entry.2))
  | [], _ => .nil
  | (_, _) :: _, h => by
    obtain ⟨hi, hrest⟩ := List.forall_mem_cons.mp h
    exact .cons (Simplify.alike_item hi) (Simplify.related hrest)

theorem Program.Item.Written.shaped {i : Program.Item} (h : i.Written) : i.Shaped false := by
  cases i with
  | function f => exact ⟨h.frame, by simpa using h.body.flat⟩
  | _ => trivial

/-- **Written programs** have no names bound, simplified or not. -/
theorem Unnamed.of_written {p : Program} (h : p.Written) : Unnamed p {} (Simplify.program p) := by
  have hwritten := Simplify.written_program h
  have hrelated := Simplify.related h.items
  have hagree := Agree.of_related (fun h => h.elim) hrelated
  exact
    { unbound := hwritten.unbound
      declarations := hagree.declarations
      outline := hagree.outline
      declared := hagree.declared
      differ := hagree.differ
      shaped := fun i hi => (hwritten.items i hi).shaped
      typesRead := fun hfalse => by cases hfalse
      constants := by rw [hwritten.frame]
      units := fun entry hentry => by
        rw [hwritten.frame] at hentry
        cases hentry
      unresolved := fun _ => ⟨Unnamed.names_of_related hrelated, hwritten.frame⟩
      resolved := fun hfalse => by cases hfalse }

end Lode
