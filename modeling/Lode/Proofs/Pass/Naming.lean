/-
# The symbols of declarations

Binding names calls a declaration of the unit after its name, and one in a function after the function and
itself, with a number behind it if need be (`Names`).  No two declarations get the same symbol (`tabled`).

Two reasons come together.  The symbols of one function differ because they are taken fresh.  This says
nothing about two functions: the symbols of parameters are put together without a search, so one of them
might be what another function already calls a variable.  But the symbols of two items part at the first dot
behind the unit, because names hold no dots (`Names.headOf`), and the items of a unit have different names.

The other half of a table of symbols is that it has nothing else.  The entries of an item (`Item.entries`)
are what it declares, in this order and with these sections, and the entries of a unit are those of its
items put together (`Items.entries_perm`); so the symbols that stand for declarations are all symbols, each
once (`Tabled`).
-/
import Lode.Proofs.Language.Names
import Lode.Proofs.Pass.Scoping
import Mathlib.Data.List.Perm.Basic

namespace Lode.Program

/-! ## 1. Entries -/

/-- The functions and variables of an item, with their sections. -/
def Item.entries (i : Item) : List (String × Section) :=
  i.functions.map (·, .text) ++ i.vars.map fun v => (v.symbol, v.place)

/-- The functions and variables among symbols, with their sections. -/
def Symbols.entries (S : Symbols) : List (String × Section) :=
  S.functions.map (·, .text) ++ S.vars.map fun v => (v.symbol, v.place)

/-- If no two entries have one name, no two variables have one symbol. -/
theorem Symbols.vars_nodup {S : Symbols} (h : (S.entries.map (·.1)).Nodup) :
    (S.vars.map Variable.symbol).Nodup := by
  rw [Symbols.entries, List.map_append, List.map_map, List.map_map] at h
  exact h.of_append_right

theorem Items.entries_perm (items : Items) :
    (Items.symbols items).entries.Perm ((items.map (·.1)).flatMap Item.entries) := by
  rw [List.flatMap_map, Symbols.entries, Items.symbols, List.map_flatMap, List.map_flatMap]
  exact List.flatMap_append_perm items _ _

/-- An item has no more entries than it declares. -/
theorem Item.length_entries_le (i : Item) : i.entries.length ≤ i.count := by
  rw [Item.entries, List.length_append, List.length_map, List.length_map]
  cases i with
  | use _ _ | constant _ _ _ _ _ => exact Nat.le_refl _
  | global s =>
    cases s with
    | decl d =>
      simp only [Item.functions, Item.vars, Item.count, List.length_nil]
      cases d.toVariable? <;> simp
    | data d => exact Nat.le_refl _
    | _ => simp [Item.functions, Item.vars, Item.count]
  | function f =>
    have hparams := List.length_filterMap_le Param.toVariable? (f.params.map Prod.fst)
    have hlets := List.length_filterMap_le Let.toVariable? f.body.lets
    have hsymbol : f.symbol.toList.length ≤ 1 := by cases f.symbol <;> simp
    rw [List.length_map] at hparams
    simp only [Item.functions, Item.vars, Item.count, Function.vars, Locals.vars, List.length_append,
      List.length_map]
    omega
  | compiled _ _ _ locals _ => simp [Item.functions, Item.vars, Item.count, Locals.vars]

theorem Items.length_entries_le : ∀ items : Items,
    ((items.map (·.1)).flatMap Item.entries).length ≤ Items.count items
  | [] => Nat.le_refl _
  | entry :: rest => by
    have hrest := length_entries_le rest
    have hentry := entry.1.length_entries_le
    simp only [Items.count, List.map_cons, List.flatMap_cons, List.length_append,
      List.sum_cons] at hrest ⊢
    omega

end Lode.Program

namespace Lode.BindNames

open Program
open Lode.Language (dotless)

variable {unit : String}

/-! ## 2. Symbols -/

/-- What declarations are called: those of the unit after their names, those in functions after the
function and their names, with a number behind it if need be. -/
inductive Names (unit : String) : Site → String × Section → Prop
  | item {name : String} {place : Section} :
      Names unit ([name], place) (unit ++ "." ++ name, place)
  | inner {function name : String} {place : Section} (n : Nat) :
      Names unit ([function, name], place) (candidate (unit ++ "." ++ function ++ "." ++ name) n, place)

theorem Names.place {site : Site} {entry : String × Section} (h : Names unit site entry) :
    entry.2 = site.2 := by
  cases h <;> rfl

/-- A candidate begins with what is declared. -/
theorem exists_candidate (base : String) (n : Nat) : ∃ suffix, candidate base n = base ++ suffix := by
  unfold candidate
  split
  · exact ⟨"", String.append_empty.symm⟩
  · exact ⟨"_" ++ toString n, String.append_assoc⟩

/-- The part of a symbol between the unit and the next dot. -/
def headOf (unit symbol : String) : List Char :=
  (symbol.toList.drop (unit.length + 1)).takeWhile (· != '.')

/-- A name without dots is read up to the first dot behind it. -/
theorem takeWhile_dotless {name : String} (h : dotless name = true) (rest : List Char) :
    (name.toList ++ rest).takeWhile (· != '.') = name.toList ++ rest.takeWhile (· != '.') := by
  refine List.takeWhile_append_of_pos fun c hc => ?_
  have hdot : '.' ∉ name.toList := by simpa [dotless] using h
  simp only [bne_iff_ne]
  rintro rfl
  exact hdot hc

/-- The name of the item can be read off a symbol. -/
theorem headOf_append (unit : String) {name : String} (h : dotless name = true) (rest : String) :
    headOf unit (unit ++ "." ++ name ++ rest) = name.toList ++ rest.toList.takeWhile (· != '.') := by
  have hdrop : (unit ++ "." ++ name ++ rest).toList.drop (unit.length + 1) =
      name.toList ++ rest.toList := by
    have hfront : (unit ++ ".").toList.length = unit.length + 1 := by
      simp [String.length_toList]
    rw [String.append_assoc, String.toList_append, ← hfront, List.drop_left, String.toList_append]
  rw [headOf, hdrop, takeWhile_dotless h]

/-- **A symbol tells which item it belongs to.** -/
theorem Names.headOf {site : Site} {entry : String × Section} (h : Names unit site entry) {name : String}
    (hname : site.1.head? = some name) (hdotless : dotless name = true) :
    headOf unit entry.1 = name.toList := by
  cases h with
  | item =>
    obtain rfl := Option.some.inj hname
    simpa using headOf_append unit hdotless ""
  | @inner function inside place n =>
    obtain rfl := Option.some.inj hname
    obtain ⟨suffix, hsuffix⟩ := exists_candidate (unit ++ "." ++ function ++ "." ++ inside) n
    have hsplit : unit ++ "." ++ function ++ "." ++ inside ++ suffix =
        unit ++ "." ++ function ++ ("." ++ inside ++ suffix) := by
      simp only [String.append_assoc]
    rw [hsuffix, hsplit, headOf_append unit hdotless]
    simp

/-- The symbol of a function is not one of something in it. -/
theorem Names.ne_function {function name : String} {place : Section} {entry : String × Section}
    (h : Names unit ([function, name], place) entry) : entry.1 ≠ unit ++ "." ++ function := by
  cases h with
  | inner n =>
    obtain ⟨suffix, hsuffix⟩ := exists_candidate (unit ++ "." ++ function ++ "." ++ name) n
    intro heq
    have hlength := congrArg String.length (hsuffix.symm.trans heq)
    simp only [String.length_append] at hlength
    have : (".": String).length = 1 := rfl
    omega

/-! ## 3. The symbols of an item -/

/-- The parameters of a function are called after it and themselves. -/
theorem params_names {function : String} : ∀ {params : List Param},
    (∀ p ∈ params, p.ty.type?.isSome = true) →
    List.Forall₂ (Names unit) ((params.map Param.name).map fun name => ([function, name], .bss))
      (((params.map fun p => { p with symbol := some (unit ++ "." ++ function ++ "." ++ p.name) }).filterMap
        Param.toVariable?).map fun v => (v.symbol, v.place))
  | [], _ => .nil
  | p :: rest, h => by
    obtain ⟨hp, hrest⟩ := List.forall_mem_cons.mp h
    obtain ⟨type, htype⟩ := Option.isSome_iff_exists.mp hp
    have hvariable : Param.toVariable?
        { p with symbol := some (unit ++ "." ++ function ++ "." ++ p.name) } =
          some ⟨unit ++ "." ++ function ++ "." ++ p.name, .bss, type⟩ := by
      simp [Param.toVariable?, htype]
    rw [List.map_cons, List.map_cons, List.map_cons, List.filterMap_cons_some hvariable]
    exact .cons (.inner 0) (params_names hrest)

theorem lets_names {function : String} {lets lets' : List Let}
    (h : List.Forall₂ (LocalLet (unit ++ "." ++ function)) lets lets') :
    List.Forall₂ (Names unit) (lets.map fun d => ([function, d.name], placeOf d.storage .bss))
      ((lets'.filterMap Let.toVariable?).map fun v => (v.symbol, v.place)) := by
  induction h with
  | nil => exact .nil
  | @cons d d' _ _ hd _ ih =>
    obtain ⟨n, hsymbol⟩ := hd.symbol
    obtain ⟨type, htype⟩ := Option.isSome_iff_exists.mp hd.type
    have hvariable : d'.toVariable? = some ⟨candidate (unit ++ "." ++ function ++ "." ++ d.name) n,
        placeOf d.storage .bss, type⟩ := by
      simp [Let.toVariable?, hsymbol, hd.place, htype]
    rw [List.map_cons, List.filterMap_cons_some hvariable]
    exact .cons (.inner n) ih

/-- **The symbols of an item** are those of its declarations. -/
theorem item_names {env : Env} {i i' : Program.Item} (hsource : i.isSource = true)
    (hready : ItemReady i) (h : ResolvedItem env (nameItem unit i) i') :
    List.Forall₂ (Names unit) i.declarations i'.entries := by
  cases i with
  | use name span =>
    cases h
    exact .nil
  | constant name ty value symbol span =>
    cases h
    exact .nil
  | global s =>
    cases s with
    | decl d =>
      cases h
      obtain ⟨type, htype⟩ := Option.isSome_iff_exists.mp hready.1
      simp only [Item.entries, Item.functions, Item.vars, Let.toVariable?, Option.bind_some, htype,
        Option.map_some, Option.toList_some, List.map_nil, List.map_cons, List.nil_append]
      exact .cons .item .nil
    | _ => cases hready
  | function f =>
    have hlocals : f.locals = none := by
      rw [Item.isSource, Bool.and_eq_true, Option.isNone_iff_eq_none] at hsource
      exact hsource.2
    cases h with
    | @function _ symbol body frame hsymbol hbody _ =>
      obtain rfl := Option.some.inj hsymbol
      simp only [Item.entries, Item.functions, Item.vars, Function.vars, nameFunction, Locals.vars,
        hlocals, Params.map_fst_ofList, Option.toList_some, Option.getD_none, List.map_cons,
        List.map_nil, List.append_nil, List.map_append, List.singleton_append]
      exact .cons .item (List.rel_append (params_names hready.params) (lets_names hbody.lets))
  | compiled _ _ _ _ _ => cases hready

theorem placeOf_ne_text (storage : Option String) {place : Section} (h : place ≠ .text) :
    placeOf storage place ≠ .text := by
  unfold placeOf
  split
  · simp
  · exact h

/-- Variables are not among the code. -/
theorem item_places {env : Env} {i i' : Program.Item} (hsource : i.isSource = true)
    (hready : ItemReady i) (h : ResolvedItem env (nameItem unit i) i') :
    ∀ v ∈ i'.vars, v.place ≠ .text := by
  intro v hv
  have hnames := item_names hsource hready h
  cases i with
  | use name span | constant name ty value symbol span =>
    cases h
    cases hv
  | global s =>
    cases s with
    | decl d =>
      obtain ⟨site, hsite, hname⟩ := exists_of_mem_right hnames
        (List.mem_append_right _ (List.mem_map_of_mem hv))
      obtain rfl := List.mem_singleton.mp hsite
      exact hname.place.trans_ne (placeOf_ne_text d.storage (by decide))
    | _ => cases hready
  | function f =>
    cases h with
    | function hsymbol hbody _ =>
      cases hnames with
      | cons _ hrest =>
        obtain ⟨site, hsite, hname⟩ := exists_of_mem_right hrest (List.mem_map_of_mem hv)
        rcases List.mem_append.mp hsite with hsite | hsite
        · obtain ⟨name, -, rfl⟩ := List.mem_map.mp hsite
          exact hname.place.trans_ne (show Section.bss ≠ .text by decide)
        · obtain ⟨d, -, rfl⟩ := List.mem_map.mp hsite
          exact hname.place.trans_ne (placeOf_ne_text d.storage (by decide))
  | compiled _ _ _ _ _ => cases hready

/-- An item with symbols: it is called after its name, its parameters after it and their names, and its
variables have symbols, sections and types. -/
def ItemLabelled (unit : String) : Program.Item → Prop
  | .global (.decl d) => d.symbol = some (unit ++ "." ++ d.name) ∧ d.toVariable?.isSome = true
  | .function f => f.symbol = some (unit ++ "." ++ f.name) ∧
      (∀ p ∈ f.params.map Prod.fst, p.symbol = some (unit ++ "." ++ f.name ++ "." ++ p.name) ∧
        p.ty.type?.isSome = true) ∧
      ∀ d ∈ f.body.lets, d.toVariable?.isSome = true
  | _ => True

/-- An item has its symbols once names are bound. -/
theorem ResolvedItem.labelled {env : Env} {i i' : Program.Item} (hready : ItemReady i) (h : ResolvedItem env (nameItem unit i) i') :
    ItemLabelled unit i' := by
  cases i with
  | use name span | constant name ty value symbol span =>
    cases h
    trivial
  | global s =>
    cases s with
    | decl d =>
      cases h
      obtain ⟨type, htype⟩ := Option.isSome_iff_exists.mp hready.1
      exact ⟨rfl, by simp [Let.toVariable?, htype]⟩
    | _ => cases hready
  | function f =>
    cases h with
    | @function _ symbol body frame hsymbol hbody _ =>
      obtain rfl := Option.some.inj hsymbol
      refine ⟨rfl, fun p hp => ?_, fun d hd => ?_⟩
      · simp only [nameFunction, Params.map_fst_ofList] at hp
        obtain ⟨p', hp', rfl⟩ := List.mem_map.mp hp
        exact ⟨rfl, hready.params p' hp'⟩
      · obtain ⟨d', -, hlocal⟩ := exists_of_mem_right hbody.lets hd
        obtain ⟨n, hn⟩ := hlocal.symbol
        obtain ⟨type, htype⟩ := Option.isSome_iff_exists.mp hlocal.type
        simp [Let.toVariable?, hn, hlocal.place, htype]
  | compiled _ _ _ _ _ => cases hready

/-- What is kept of a list by a stricter test is among what is kept of it. -/
theorem filterMap_map_sublist {α β γ : Type} {f : α → Option β} {g : β → γ} {h : α → Option γ}
    (hfg : ∀ a b, f a = some b → h a = some (g b)) :
    ∀ as : List α, ((as.filterMap f).map g).Sublist (as.filterMap h)
  | [] => .slnil
  | a :: as => by
    have ih := filterMap_map_sublist hfg as
    cases hf : f a with
    | none =>
      rw [List.filterMap_cons_none hf]
      exact ih.trans ((List.sublist_cons_self a as).filterMap h)
    | some b =>
      rw [List.filterMap_cons_some hf, List.filterMap_cons_some (hfg a b hf)]
      exact ih.cons_cons _

/-- The symbols of the variables of a function are among those it declares. -/
theorem symbols_sublist {f : Function} (hlocals : f.locals = none) :
    (f.vars.map Variable.symbol).Sublist f.locallyDeclared := by
  rw [Function.vars, Function.locallyDeclared, Locals.vars, hlocals, Option.getD_none, List.map_nil,
    List.append_nil, List.map_append]
  exact (filterMap_map_sublist (fun _ _ => Param.symbol_of_toVariable?) _).append
    (filterMap_map_sublist (fun _ _ => Let.symbol_of_toVariable?) _)

/-- The symbols of a function and of what is declared in it differ. -/
theorem function_nodup {f g : Function} (hsymbol : g.symbol = some (unit ++ "." ++ f.name))
    (hlocals : g.locals = none) (hdeclared : g.locallyDeclared.Nodup)
    (hnames : List.Forall₂ (Names unit) (Item.function f).declarations (Item.function g).entries) :
    ((Item.function g).entries.map (·.1)).Nodup := by
  have hinner := hdeclared.sublist (symbols_sublist hlocals)
  simp only [Item.entries, Item.functions, Item.vars, hsymbol, Option.toList_some, List.map_cons,
    List.map_nil, List.nil_append, List.map_map, Item.declarations, List.cons_append] at hnames ⊢
  cases hnames with
  | cons _ hrest =>
    refine List.nodup_cons.mpr ⟨fun hmem => ?_, hinner⟩
    obtain ⟨v, hv, hsame⟩ := List.mem_map.mp hmem
    obtain ⟨site, hsite, hname⟩ := exists_of_mem_right hrest (List.mem_map_of_mem hv)
    rcases List.mem_append.mp hsite with hsite | hsite
    · obtain ⟨name, -, rfl⟩ := List.mem_map.mp hsite
      exact hname.ne_function hsame
    · obtain ⟨d, -, rfl⟩ := List.mem_map.mp hsite
      exact hname.ne_function hsame

/-- The symbols of one item differ. -/
theorem item_nodup {env : Env} {i i' : Program.Item} {S : Symbols} (hsource : i.isSource = true)
    (hready : ItemReady i) (h : ResolvedItem env (nameItem unit i) i') (hdeclared : i'.Declared S) :
    (i'.entries.map (·.1)).Nodup := by
  have hnames := item_names hsource hready h
  cases i with
  | use name span =>
    cases h
    exact List.nodup_nil
  | constant name ty value symbol span =>
    cases h
    exact List.nodup_nil
  | global s =>
    cases s with
    | decl d =>
      obtain ⟨entry, hentry⟩ := List.length_eq_one_iff.mp hnames.length_eq.symm
      rw [hentry]
      exact List.nodup_singleton _
    | _ => cases hready
  | function f =>
    rw [Item.isSource, Bool.and_eq_true, Option.isNone_iff_eq_none] at hsource
    cases h with
    | function hsymbol hbody _ => exact function_nodup rfl hsource.2 hdeclared.1 hnames
  | compiled _ _ _ _ _ => cases hready

/-! ## 4. The symbols of a unit -/

/-- Every declaration of an item is found under the name of the item. -/
theorem head_of_declaration {i : Program.Item} {site : Site} (h : site ∈ i.declarations) :
    ∃ name, declares? i = some name ∧ site.1.head? = some name := by
  cases i with
  | global s =>
    cases s with
    | decl d =>
      obtain rfl := List.mem_singleton.mp h
      exact ⟨d.name, rfl, rfl⟩
    | _ => cases h
  | function f =>
    refine ⟨f.name, rfl, ?_⟩
    rcases List.mem_append.mp h with h | h
    · rcases List.mem_cons.mp h with rfl | h
      · rfl
      · obtain ⟨name, -, rfl⟩ := List.mem_map.mp h
        rfl
    · obtain ⟨d, -, rfl⟩ := List.mem_map.mp h
      rfl
  | use _ _ | constant _ _ _ _ _ | compiled _ _ _ _ _ => cases h

/-- Two items that declare different names. -/
def Differ (i j : Program.Item) : Prop :=
  ∀ name ∈ declares? i, ∀ other ∈ declares? j, name ≠ other

/-- Names without dots lead to all declarations. -/
def Dotless (sites : List Site) : Prop := ∀ site ∈ sites, ∀ name ∈ site.1.head?, dotless name = true

/-- **Items of different names have no symbol in common.** -/
theorem disjoint_of_differ {i j : Program.Item} {entries entries' : List (String × Section)}
    (h : List.Forall₂ (Names unit) i.declarations entries)
    (h' : List.Forall₂ (Names unit) j.declarations entries') (hdiffer : Differ i j)
    (hi : Dotless i.declarations) (hj : Dotless j.declarations) :
    List.Disjoint (entries.map (·.1)) (entries'.map (·.1)) := by
  intro symbol hmem hmem'
  obtain ⟨entry, hentry, rfl⟩ := List.mem_map.mp hmem
  obtain ⟨entry', hentry', hsame⟩ := List.mem_map.mp hmem'
  obtain ⟨site, hsite, hname⟩ := exists_of_mem_right h hentry
  obtain ⟨site', hsite', hname'⟩ := exists_of_mem_right h' hentry'
  obtain ⟨name, hdeclares, hhead⟩ := head_of_declaration hsite
  obtain ⟨name', hdeclares', hhead'⟩ := head_of_declaration hsite'
  refine hdiffer name hdeclares name' hdeclares' (String.toList_injective ?_)
  rw [← hname.headOf hhead (hi site hsite name hhead),
    ← hname'.headOf hhead' (hj site' hsite' name' hhead'), hsame]

/-- **No symbol is taken twice.** -/
theorem entries_nodup {items items' : List Program.Item}
    (h : List.Forall₂ (fun i i' => List.Forall₂ (Names unit) i.declarations i'.entries ∧
      (i'.entries.map (·.1)).Nodup) items items')
    (hdiffer : items.Pairwise Differ) (hdotless : ∀ i ∈ items, Dotless i.declarations) :
    ((items'.flatMap Item.entries).map (·.1)).Nodup := by
  induction h with
  | nil => exact List.nodup_nil
  | @cons i i' rest rest' hi hrest ih =>
    obtain ⟨hfirst, hdiffer⟩ := List.pairwise_cons.mp hdiffer
    obtain ⟨hdot, hdots⟩ := List.forall_mem_cons.mp hdotless
    rw [List.flatMap_cons, List.map_append]
    refine List.Nodup.append hi.2 (ih hdiffer hdots) fun symbol hmem hmem' => ?_
    obtain ⟨entry, hentry, hsymbol⟩ := List.mem_map.mp hmem'
    obtain ⟨j', hj', hentry⟩ := List.mem_flatMap.mp hentry
    obtain ⟨j, hj, hnames⟩ := exists_of_mem_right hrest hj'
    exact disjoint_of_differ hi.1 hnames.1 (hfirst j hj) hdot (hdots j hj) hmem
      (List.mem_map.mpr ⟨entry, hentry, hsymbol⟩)

theorem flatMap_names {items items' : List Program.Item}
    (h : List.Forall₂ (fun i i' => List.Forall₂ (Names unit) i.declarations i'.entries ∧
      (i'.entries.map (·.1)).Nodup) items items') :
    List.Forall₂ (Names unit) (items.flatMap Item.declarations) (items'.flatMap Item.entries) := by
  induction h with
  | nil => exact .nil
  | cons hi _ ih => exact List.rel_append hi.1 ih

/-- Symbols that stand for declarations, one for each. -/
structure Tabled (unit : String) (sites : List Site) (S : Symbols) : Prop where
  entries : ∃ entries, List.Forall₂ (Names unit) sites entries ∧ (entries.map (·.1)).Nodup ∧
    S.entries.Perm entries
  places : ∀ v ∈ S.vars, v.place ≠ .text

theorem Tabled.nodup {sites : List Site} {S : Symbols} (h : Tabled unit sites S) :
    (S.entries.map (·.1)).Nodup := by
  obtain ⟨entries, -, hnodup, hperm⟩ := h.entries
  exact (hperm.map _).nodup_iff.mpr hnodup

/-- **Every declaration gets a symbol of its own.** -/
theorem tabled {p q : Program} (hp : p.Unbound) (hready : ProgramReady p) (h : Distinct p)
    (hdotless : Dotless p.declarations)
    (hrun : ((p.mapUp visitor).outcome ⟨[], unit, [], []⟩).1 = .ok q) :
    Tabled unit p.declarations (Items.symbols q.items) := by
  obtain ⟨q', hrun', -, hresolved⟩ := mapUp_resolved unit hp hready h
  obtain rfl := Except.ok.inj (hrun.symm.trans hrun')
  obtain ⟨-, hbound⟩ := bound hp hrun
  have hresolved := (List.forall₂_and_left _ _).mpr ⟨fun i hi => And.intro hi (hready i hi),
    List.forall₂_map_left_iff.mp hresolved⟩
  have hitems : List.Forall₂ (fun i i' => (List.Forall₂ (Names unit) i.declarations i'.entries ∧
      (i'.entries.map (·.1)).Nodup) ∧ ∀ v ∈ i'.vars, v.place ≠ .text)
      (p.items.map (·.1)) (q.items.map (·.1)) := by
    refine ((List.forall₂_and_left _ _).mpr ⟨fun i' hi' => hi', hresolved.flip⟩).flip.imp ?_
    rintro i i' ⟨hi', ⟨hi, hready⟩, hitem⟩
    obtain ⟨entry, hentry, rfl⟩ := List.mem_map.mp hi
    obtain ⟨entry', hentry', rfl⟩ := List.mem_map.mp hi'
    have hsource := hp.source entry hentry
    exact ⟨⟨item_names hsource hready hitem,
      item_nodup hsource hready hitem (hbound.declared entry' hentry')⟩, item_places hsource hready hitem⟩
  have hnames := hitems.imp fun _ _ hitem => hitem.1
  refine ⟨⟨_, flatMap_names hnames, entries_nodup hnames ?_ ?_, Items.entries_perm q.items⟩, ?_⟩
  · exact List.pairwise_filterMap.mp h.1.1
  · exact fun i hi site hsite => hdotless site (List.mem_flatMap.mpr ⟨i, hi, hsite⟩)
  · intro v hv
    obtain ⟨entry, hentry, hv⟩ := List.mem_flatMap.mp hv
    obtain ⟨_, -, -, hplaces⟩ := exists_of_mem_right hitems (List.mem_map_of_mem hentry)
    exact hplaces v hv

end Lode.BindNames
