/-
# Declarations

What a unit declares, as it is written: its functions, its variables, and the parameters and variables of
its functions, each with the path of names that leads to it and the section it is for.  Items that are alike
declare the same.

An outline says of the declarations of a unit what does not depend on their values: the variables of the
unit, and the parameters and variables of its functions, in their order.  It has nothing to do with symbols,
bindings and scopes, so that it is the same when names are bound.

The two serve different ends.  The declarations are compared with the symbols of an archive, so they come
with their sections and in the order in which the symbols are made.  The outline is compared between
programs before and after a pass, so it also tells how a variable is stored and what type it has.  Both are
read off the leaves of statements, that is through the scopes: making scopes explicit does not change them.
-/
import Lode.Proofs.Pass.Names
import Lode.Proofs.Program.Functions
import Lode.Proofs.Program.Lexical

namespace Lode.Program

open BindNames (placeOf)

/-! ## 1. Declarations of items -/

/-- Where something is declared: the names that lead to it, and its section. -/
abbrev Site := List String × Section

/-- The declarations of an item. -/
def Item.declarations : Item → List Site
  | .global (.decl d) => [([d.name], placeOf d.storage .data)]
  | .function f => ([f.name], .text) :: (f.paramNames.map fun name => ([f.name, name], .bss)) ++
      f.body.lets.map fun d => ([f.name, d.name], placeOf d.storage .bss)
  | _ => []

/-- The name that an item brings into its unit: that of a declaration, or of a unit in use. -/
def Item.name? : Item → Option String
  | .use name _ | .constant name _ _ _ _ => some name
  | .global (.decl d) => some d.name
  | .function f => some f.name
  | _ => none

/-- Items in which every function has parameters of different names. -/
def Item.ParamsDiffer : Item → Prop
  | .function f => f.paramNames.Nodup
  | _ => True

section Alike

variable {Rel : Expr → Expr → Prop}

/-- Functions alike have parameters of the same names. -/
theorem Function.Alike.paramNames {f f' : Function} (h : f.Alike Rel f') :
    f'.paramNames = f.paramNames := by
  have hparams := h.params
  unfold Function.paramNames
  generalize f.params.map Prod.fst = params at hparams ⊢
  generalize f'.params.map Prod.fst = params' at hparams ⊢
  induction hparams with
  | nil => rfl
  | cons hp _ ih => rw [List.map_cons, List.map_cons, hp.name, ih]

theorem map_eq_of_forall₂ {α β γ : Type} {R : α → β → Prop} {f : α → γ} {g : β → γ}
    (hR : ∀ a b, R a b → g b = f a) {as : List α} {bs : List β} (h : List.Forall₂ R as bs) :
    bs.map g = as.map f := by
  induction h with
  | nil => rfl
  | cons hab _ ih => rw [List.map_cons, List.map_cons, hR _ _ hab, ih]

theorem forall₂_of_map_eq {α β γ : Type} {f : α → γ} {g : β → γ} {as : List α} {bs : List β}
    (h : bs.map g = as.map f) : List.Forall₂ (fun a b => g b = f a) as bs := by
  have hsame : List.Forall₂ Eq (as.map f) (bs.map g) := by
    rw [List.forall₂_eq_eq_eq, h]
  exact (List.forall₂_map_right_iff.mp (List.forall₂_map_left_iff.mp hsame)).imp fun _ _ heq => heq.symm

/-- **Items alike declare the same.** -/
theorem Item.Alike.declarations {i i' : Item} (h : i.Alike Rel i') :
    i'.declarations = i.declarations := by
  cases h with
  | use | constant _ => rfl
  | global _ hsame => rw [Item.declarations, Item.declarations, hsame.name, hsame.storage]
  | @function f f' hf =>
    have hlets : (f'.body.lets.map fun d => ([f'.name, d.name], placeOf d.storage .bss)) =
        f.body.lets.map fun d => ([f.name, d.name], placeOf d.storage .bss) :=
      map_eq_of_forall₂ (fun d d' hsame => by rw [hf.name, hsame.name, hsame.storage]) hf.body.lets
    rw [Item.declarations, Item.declarations, hlets, hf.paramNames, hf.name]

theorem Item.Alike.name? {i i' : Item} (h : i.Alike Rel i') : i'.name? = i.name? := by
  cases h with
  | use | constant _ => rfl
  | global _ hsame => rw [Item.name?, Item.name?, hsame.name]
  | function hf => rw [Item.name?, Item.name?, hf.name]

theorem Item.Alike.paramsDiffer {i i' : Item} (h : i.Alike Rel i') :
    i'.ParamsDiffer ↔ i.ParamsDiffer := by
  cases h with
  | function hf => rw [Item.ParamsDiffer, Item.ParamsDiffer, hf.paramNames]
  | _ => exact .rfl

end Alike

end Lode.Program

namespace Lode

open Program

/-! ## 2. Declarations of units -/

/-- The declarations of a unit. -/
def Program.declarations (p : Program) : List Site := (p.items.map (·.1)).flatMap Item.declarations

/-- The names that the items of a unit bring into it. -/
def Program.unitNames (p : Program) : List String := (p.items.map (·.1)).filterMap Item.name?

end Lode

namespace Lode.Program

/-! ## 3. Outlines -/

/-- What an item declares. -/
inductive Outlined where
  | variable (name : String) (storage : Option String)
  | function (name : String) (params : List (String × Option Ty)) (lets : List (String × Option String))
deriving DecidableEq

/-- The outline of a function: its parameters with their types, and its variables with their storage. -/
def Function.outline (f : Function) : Outlined :=
  .function f.name ((f.params.map Prod.fst).map fun p => (p.name, p.ty.denotes))
    (f.body.lets.map fun d => (d.name, d.storage))

/-- The outline of an item. -/
def Item.outline? : Item → Option Outlined
  | .global (.decl d) => some (.variable d.name d.storage)
  | .function f => some f.outline
  | _ => none

section Alike

variable {Rel : Expr → Expr → Prop}

theorem Function.Alike.outline {f f' : Function} (h : f.Alike Rel f') : f'.outline = f.outline := by
  have hparams : (f'.params.map Prod.fst).map (fun p => (p.name, p.ty.denotes)) =
      (f.params.map Prod.fst).map fun p => (p.name, p.ty.denotes) :=
    map_eq_of_forall₂ (fun p p' hsame => by rw [hsame.name, hsame.ty.denotes]) h.params
  have hlets : f'.body.lets.map (fun d => (d.name, d.storage)) =
      f.body.lets.map fun d => (d.name, d.storage) :=
    map_eq_of_forall₂ (fun d d' hsame => by rw [hsame.name, hsame.storage]) h.body.lets
  rw [Function.outline, Function.outline, hparams, hlets, h.name]

/-- **Items alike have the same outline.** -/
theorem Item.Alike.outline? {i i' : Item} (h : i.Alike Rel i') : i'.outline? = i.outline? := by
  cases h with
  | use | constant _ _ => rfl
  | global _ hsame => rw [Item.outline?, Item.outline?, hsame.name, hsame.storage]
  | function hf => rw [Item.outline?, Item.outline?, hf.outline]

end Alike

/-! ## 4. Outlines without bindings and symbols -/

mutual

/-- The declarations in a statement without bindings are those in the statement, without theirs. -/
theorem Stmt.lets_erase : ∀ s : Stmt, s.erase.lets = s.lets.map Let.erase
  | .decl _ => rfl
  | .scope decl body _ _ => by
    rw [Stmt.erase, Stmt.lets, Stmt.lets, Stmt.lets_erase decl, Stmts.lets_erase body, List.map_append]
  | .set _ _ _ _ | .ret _ _ _ | .expr _ | .data _ | .load _ _ _ | .store _ _ _ | .arith _ _ _ _
  | .jump _ _ | .rts _ | .code _ _ => rfl

theorem Stmts.lets_erase : ∀ stmts : Stmts, stmts.erase.lets = stmts.lets.map Let.erase
  | .nil => rfl
  | .cons stmt rest _ => by
    rw [Stmts.erase, Stmts.lets, Stmts.lets, Stmt.lets_erase stmt, Stmts.lets_erase rest, List.map_append]

end

mutual

theorem Stmt.leaves_erase : ∀ s : Stmt, s.erase.leaves = s.leaves.map Stmt.erase
  | .scope decl body _ _ => by
    rw [Stmt.erase, Stmt.leaves, Stmt.leaves, Stmt.leaves_erase decl, Stmts.leaves_erase body, List.map_append]
  | .decl _ | .set _ _ _ _ | .ret _ _ _ | .expr _ | .data _ | .load _ _ _ | .store _ _ _ | .arith _ _ _ _
  | .jump _ _ | .rts _ | .code _ _ => rfl

theorem Stmts.leaves_erase : ∀ stmts : Stmts, stmts.erase.leaves = stmts.leaves.map Stmt.erase
  | .nil => rfl
  | .cons stmt rest _ => by
    rw [Stmts.erase, Stmts.leaves, Stmts.leaves, Stmt.leaves_erase stmt, Stmts.leaves_erase rest,
      List.map_append]

end

theorem Function.outline_erase (f : Function) : f.erase.outline = f.outline := by
  simp only [Function.outline, Function.erase, Params.map_fst_ofList, Stmts.lets_erase, List.map_map]
  rfl

theorem Item.outline?_erase (i : Item) : i.erase.outline? = i.outline? := by
  cases i with
  | global s => cases s <;> rfl
  | function f => exact congrArg some f.outline_erase
  | _ => rfl

end Lode.Program

namespace Lode

open Program

/-- What the declarations of a unit say. -/
def Program.outline (p : Program) : List Outlined := (p.items.map (·.1)).filterMap Item.outline?

theorem Program.outline_erase (p : Program) : p.erase.outline = p.outline := by
  rw [Program.outline, Program.erase, Items.map_fst_ofList, List.filterMap_map]
  exact congrArg (List.filterMap · _) (funext Item.outline?_erase)

end Lode
