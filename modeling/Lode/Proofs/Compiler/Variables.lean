/-
# Variables of a unit

The variables of a unit and of its functions, once names are bound.  Each has a symbol that no other has
(`Named.variable_symbols_nodup`), so that what is known of a symbol, such as whether it may be assigned, can
be read off the variable.

Variables are listed by what their names are bound to: the variables of the unit, and for each function its
parameters and what is declared in it, at any depth.  An identifier that is bound to a variable is bound to
a member of this list (`Program.Declares.mem_variableBindings`), and the symbols of the list are some of
those that were given out, of which no two are the same.

With this a symbol can be counted: among the symbols of the declarations of all functions it occurs once if
its variable is declared in one of them, and otherwise never (`Named.count_symbol`).
-/
import Lode.Proofs.Compiler.Archives

namespace Lode

open Program

/-! ## 1. The variables of items -/

namespace Program

/-- The variables of a function: what its parameters and its declarations bind their names to. -/
def Function.variableBindings (f : Function) : List Binding :=
  (f.params.map Prod.fst).map Param.binding ++ f.body.lets.map (·.binding .localVar)

/-- The variables that an item declares. -/
def Item.variableBindings : Item → List Binding
  | .global (.decl d) => [d.binding .global]
  | .function f => f.variableBindings
  | _ => []

end Program

/-- The variables that a unit declares. -/
def Program.variableBindings (q : Program) : List Binding := (q.items.map (·.1)).flatMap Item.variableBindings

/-- The variables that are declared in the functions of a unit. -/
def Program.localBindings (q : Program) : List Binding :=
  q.functions.flatMap fun f => f.body.lets.map (·.binding .localVar)

variable {unit : String} {p q : Program} {S : Symbols}

/-- What functions declare is part of what the unit declares. -/
theorem Program.localBindings_sublist (q : Program) : q.localBindings.Sublist q.variableBindings := by
  rw [localBindings, functions, Items.functions, variableBindings]
  generalize q.items.map (·.1) = items
  induction items with
  | nil => exact .slnil
  | cons i rest ih =>
    rw [List.flatMap_cons]
    cases i with
    | function f =>
      rw [List.filterMap_cons_some (show (Item.function f).function? = some f from rfl), List.flatMap_cons]
      exact (List.sublist_append_right _ _).append ih
    | _ => exact ih.trans (List.sublist_append_right _ _)

theorem Program.mem_variableBindings {f : Function} (hf : f ∈ q.functions) {b : Binding} (hb : b ∈ f.variableBindings) :
    b ∈ q.variableBindings :=
  List.mem_flatMap.mpr ⟨_, Items.mem_functions.mp hf, hb⟩

/-- **A name of a variable** is bound to one that is declared. -/
theorem Program.Declares.mem_variableBindings {b : Binding} (h : q.Declares b)
    (hvariable : ResolveStorage.isVariable b = true) : b ∈ q.variableBindings := by
  cases h with
  | constant hkind =>
    rw [ResolveStorage.isVariable, hkind] at hvariable
    cases hvariable
  | global hd => exact List.mem_flatMap.mpr ⟨_, hd, List.mem_singleton_self _⟩
  | function hf => cases hvariable
  | param hf hx => exact q.mem_variableBindings hf (List.mem_append_left _ (List.mem_map_of_mem hx))
  | localVar hf hd => exact q.mem_variableBindings hf (List.mem_append_right _ (List.mem_map_of_mem hd))

/-! ## 2. Their symbols -/

/-- Mapping what a partial function finds is mapping what it is found for, if it is found for all. -/
theorem map_filterMap_eq {α β γ : Type} {f : α → Option β} {g : β → γ} {h : α → γ} {as : List α}
    (hf : ∀ a ∈ as, ∃ b, f a = some b ∧ g b = h a) : (as.filterMap f).map g = as.map h := by
  rw [List.map_filterMap, ← List.filterMap_eq_map]
  refine List.filterMap_congr fun a ha => ?_
  obtain ⟨b, hb, hg⟩ := hf a ha
  rw [hb, Option.map_some, hg]
  rfl

/-- The symbols of the variables of an item that has symbols. -/
theorem BindNames.ItemLabelled.variable_symbols {i : Program.Item} (h : ItemLabelled unit i) (hsource : i.isSource = true) :
    i.vars.map Variable.symbol = i.variableBindings.map (·.declaration.symbol) := by
  have hlet : ∀ {d : Let} (kind : BindingKind), d.toVariable?.isSome = true →
      ∃ v, d.toVariable? = some v ∧ v.symbol = (d.binding kind).declaration.symbol := fun {d} kind hd => by
    obtain ⟨v, hv⟩ := Option.isSome_iff_exists.mp hd
    exact ⟨v, hv, by rw [Let.binding, Let.symbol_of_toVariable? hv]; rfl⟩
  cases i with
  | global s =>
    cases s with
    | decl d =>
      obtain ⟨v, hv, hsymbol⟩ := hlet .global h.2
      rw [Item.vars, hv, Item.variableBindings, List.map_singleton, ← hsymbol]
      rfl
    | _ => cases hsource
  | function f =>
    obtain ⟨-, hparams, hlets⟩ := h
    have hlocals : f.locals = none := Option.isNone_iff_eq_none.mp (Bool.and_eq_true_iff.mp hsource).2
    have hnamed : ((f.params.map Prod.fst).filterMap Param.toVariable?).map Variable.symbol =
        ((f.params.map Prod.fst).map Param.binding).map (·.declaration.symbol) := by
      rw [List.map_map]
      refine map_filterMap_eq fun x hx => ?_
      obtain ⟨hsymbol, htype⟩ := hparams x hx
      obtain ⟨type, htype⟩ := Option.isSome_iff_exists.mp htype
      exact ⟨⟨_, .bss, type⟩, by rw [Param.toVariable?, hsymbol, htype]; rfl, by simp [Param.binding, hsymbol]⟩
    have hdeclared : (f.body.lets.filterMap Let.toVariable?).map Variable.symbol =
        (f.body.lets.map (·.binding .localVar)).map (·.declaration.symbol) := by
      rw [List.map_map]
      exact map_filterMap_eq fun d hd => hlet .localVar (hlets d hd)
    rw [Item.vars, Function.vars, Locals.vars, hlocals, Option.getD_none, List.map_nil, List.append_nil,
      List.map_append, hnamed, hdeclared, Item.variableBindings, Function.variableBindings, List.map_append]
  | compiled _ _ _ _ _ => cases hsource
  | _ => rfl

/-- **No two variables have one symbol.** -/
theorem Named.variable_symbols_nodup (h : Named unit p q S) : (q.variableBindings.map (·.declaration.symbol)).Nodup := by
  have hvars := (h.bound.symbols_perm (h.tabled.nodup.of_map _)).2
  have hsymbols := Symbols.vars_nodup h.tabled.nodup
  have heq : (Items.symbols q.items).vars.map Variable.symbol = q.variableBindings.map (·.declaration.symbol) := by
    rw [Items.symbols, variableBindings, List.flatMap_map, List.map_flatMap, List.map_flatMap]
    exact List.flatMap_congr fun entry hentry =>
      (h.labelled _ (List.mem_map_of_mem hentry)).variable_symbols (h.source entry hentry)
  rw [← heq]
  exact (hvars.map _).nodup_iff.mpr hsymbols

/-- A symbol tells the variable. -/
theorem Named.variable_eq (h : Named unit p q S) {b b' : Binding} (hb : b ∈ q.variableBindings)
    (hb' : b' ∈ q.variableBindings) (hsymbol : b.declaration.symbol = b'.declaration.symbol) : b = b' :=
  List.inj_on_of_nodup_map h.variable_symbols_nodup hb hb' hsymbol

/-- The symbols of the declarations in a function. -/
theorem Named.lets_symbols (h : Named unit p q S) {f : Function} (hf : f ∈ q.functions) :
    f.body.lets.filterMap Let.symbol = (f.body.lets.map (·.binding .localVar)).map (·.declaration.symbol) := by
  obtain ⟨-, -, hlets⟩ := h.labelled _ (Items.mem_functions.mp hf)
  rw [List.map_map, ← List.filterMap_eq_map]
  refine List.filterMap_congr fun d hd => ?_
  obtain ⟨v, hv⟩ := Option.isSome_iff_exists.mp (hlets d hd)
  simp [Let.binding, Let.symbol_of_toVariable? hv]

/-- How often the symbol of a variable is one of a declaration in a function: once if the variable is
declared there, and else never. -/
theorem Named.count_symbol (h : Named unit p q S) {x : Binding} (hx : x ∈ q.variableBindings) :
    (x ∈ q.localBindings →
      (q.localBindings.map (·.declaration.symbol)).count x.declaration.symbol = 1) ∧
    (x ∉ q.localBindings →
      (q.localBindings.map (·.declaration.symbol)).count x.declaration.symbol = 0) := by
  have hnodup := h.variable_symbols_nodup.sublist (q.localBindings_sublist.map _)
  refine ⟨fun hmem => List.count_eq_one_of_mem hnodup (List.mem_map_of_mem hmem), fun hnot => ?_⟩
  refine List.count_eq_zero.mpr fun hmem => hnot ?_
  obtain ⟨y, hy, hsymbol⟩ := List.mem_map.mp hmem
  exact h.variable_eq (q.localBindings_sublist.subset hy) hx hsymbol ▸ hy

end Lode
