/-
# Collected archives

The archive of a lowered program holds an object for every function and variable that the program declares,
and no other (`Lowered.collect`): the names are all different, so that none of them is refused.

Collecting walks over the items in their order, and adds the code of a function and then the variables that
it declares. An item is collected if it is lowered (`isLowered`), and the objects that it adds can be listed
without an archive (`objects`).  So the walk is the addition of a list of objects (`addItem_node`), and a
list with new names is added as a whole, in whatever order its members stand in the archive afterwards
(`addObjects_ok`).

That the names differ is known of the symbols of the program since names were bound.  The objects have the
names of what their items declare (`objects_entries`), and a bound program declares all its symbols and no
others (`Program.Bound.symbols_perm`).
-/
import Lode.Proofs.Compiler.Passes

namespace Lode

open Program
open FlattenSymbol (Finished)

namespace Compiler

/-! ## 1. Items -/

/-- The object of a variable. -/
def dataObject (d : Data) : String × ObjectSymbol := (d.symbol, ⟨d.place, d.bytes, d.type, []⟩)

/-- The objects of an item that is lowered: a variable, or code with the variables of its function. -/
def objects : Program.Item → List (String × ObjectSymbol)
  | .global (.data d) => [dataObject d]
  | .compiled symbol code type locals _ =>
    (symbol, ⟨.text, code.bytes, type, code.relocations⟩) ::
      (locals.getD []).map fun entry => dataObject entry.2
  | _ => []

/-- Whether an item is lowered. -/
def isLowered : Program.Item → Bool
  | .global _ | .compiled _ _ _ _ _ => true
  | _ => false

/-- Adds objects to an archive. -/
def addObjects (objects : List (String × ObjectSymbol)) (archive : Archive) : Except Error Archive :=
  objects.foldlM (fun archive object => archive.addSymbol object.1 object.2) archive

theorem ofName?_name (place : Section) : Section.ofName? place.name = some place := by
  cases place <;> decide

theorem addData_node (archive : Archive) (d : Data) :
    addData archive d.node = archive.addSymbol (dataObject d).1 (dataObject d).2 := by
  have hplace : (d.node.str? "section").bind Section.ofName? = some d.place := ofName?_name d.place
  rw [addData, dataSymbolOf, hplace]
  rfl

theorem nodes_row {α : Type} (node : α → Node) : ∀ entries : List (String × α),
    (row (fun a => .node (node a)) entries).nodes = entries.map fun entry => (entry.1, node entry.2)
  | [] => rfl
  | entry :: rest => congrArg ((entry.1, node entry.2) :: ·) (nodes_row node rest)

/-- Adding the variables of a function adds their objects. -/
theorem addLocals_node (locals : Locals) (archive : Archive) :
    (locals.raw.nodes.map (·.2)).foldlM addData archive =
      addObjects (locals.map fun entry => dataObject entry.2) archive := by
  rw [Locals.raw, nodes_row, List.map_map]
  induction locals generalizing archive with
  | nil => rfl
  | cons entry rest ih =>
    rw [List.map_cons, List.map_cons, addObjects, List.foldlM_cons, List.foldlM_cons]
    refine congrArg₂ _ (addData_node archive entry.2) (funext fun archive' => ?_)
    exact ih archive'

/-- **Collecting an item** adds its objects, or it is refused. -/
theorem addItem_node {i : Program.Item} (h : Finished i) (archive : Archive) :
    addItem archive i.node = if isLowered i then addObjects (objects i) archive
      else .error ((InternalProblem.notASymbol i.node.tag).atSpan i.node.span) := by
  cases i with
  | use _ _ | function _ | constant _ _ _ _ _ => rfl
  | global s =>
    obtain ⟨d, rfl⟩ := h
    change addData archive d.node = addObjects [dataObject d] archive
    rw [addData_node, addObjects, List.foldlM_cons]
    cases archive.addSymbol (dataObject d).1 (dataObject d).2 <;> rfl
  | compiled symbol code type locals span =>
    have hlocals : ((Item.compiled symbol code type locals span).node.table? "locals").getD .nil =
        (locals.getD []).raw := by cases locals <;> rfl
    have hsymbol : symbolOf (Item.compiled symbol code type locals span).node .text
        (((Item.compiled symbol code type locals span).node.relocations? "relocs").getD []) =
        .ok (symbol, ⟨.text, code.bytes, type, code.relocations⟩) := by cases locals <;> rfl
    rw [addItem]
    simp only [show (Item.compiled symbol code type locals span).node.tag = .funSymbol from rfl, hsymbol,
      hlocals, addLocals_node, ok_bind]
    rfl

/-- The objects of an item have the names and sections of what it declares. -/
theorem objects_entries {i : Program.Item} (h : Finished i) (hlowered : isLowered i = true) :
    (objects i).map (fun object => (object.1, object.2.place)) = i.entries := by
  cases i with
  | use _ _ | function _ | constant _ _ _ _ _ => cases hlowered
  | global s =>
    obtain ⟨d, rfl⟩ := h
    rfl
  | compiled symbol code type locals span =>
    simp [objects, Item.entries, Item.functions, Item.vars, Locals.vars, dataObject, Data.toVariable]

/-! ## 2. Archives -/

/-- **Objects with new names** are all added. -/
theorem addObjects_ok : ∀ {objects : List (String × ObjectSymbol)} (archive : Archive),
    (objects.map (·.1) ++ archive.symbols.map (·.1)).Nodup →
    ∃ symbols, addObjects objects archive = .ok { archive with symbols := symbols } ∧
      symbols.Perm (objects ++ archive.symbols)
  | [], archive, _ => ⟨archive.symbols, rfl, .refl _⟩
  | object :: rest, archive, h => by
    rw [List.map_cons, List.cons_append, List.nodup_cons] at h
    obtain ⟨hnew, hrest⟩ := h
    have hfresh : Sorted.find? object.1 archive.symbols = none :=
      Sorted.find?_eq_none_iff.mpr fun hmem => hnew (List.mem_append_right _ hmem)
    have hset := Sorted.set_perm object.2 hfresh
    have hadd : archive.addSymbol object.1 object.2 =
        .ok { archive with symbols := Sorted.set object.1 object.2 archive.symbols } := by
      rw [Archive.addSymbol, hfresh]
      rfl
    have hnodup : (rest.map (·.1) ++ (Sorted.set object.1 object.2 archive.symbols).map (·.1)).Nodup := by
      refine (List.Perm.nodup_iff ?_).mpr (List.nodup_cons.mpr ⟨hnew, hrest⟩)
      exact ((hset.map (·.1)).append_left _).trans List.perm_middle
    obtain ⟨symbols, hok, hperm⟩ := addObjects_ok
      { archive with symbols := Sorted.set object.1 object.2 archive.symbols } hnodup
    refine ⟨symbols, ?_, hperm.trans ((hset.append_left _).trans List.perm_middle)⟩
    rw [addObjects, List.foldlM_cons, hadd, ok_bind]
    exact hok

/-- **Items with new names** are collected, unless one of them is not lowered. -/
theorem addItems_cases : ∀ {items : List Program.Item} (archive : Archive),
    (∀ i ∈ items, Finished i) →
    ((items.flatMap Item.entries).map (·.1) ++ archive.symbols.map (·.1)).Nodup →
    ((∀ i ∈ items, isLowered i = true) ∧
      ∃ symbols, (items.map Item.node).foldlM addItem archive = .ok { archive with symbols := symbols } ∧
        symbols.Perm (items.flatMap objects ++ archive.symbols)) ∨
    ∃ tag span, (items.map Item.node).foldlM addItem archive =
      .error ((InternalProblem.notASymbol tag).atSpan span)
  | [], archive, _, _ => .inl ⟨fun _ h => (by cases h), archive.symbols, rfl, .refl _⟩
  | i :: rest, archive, hfinished, h => by
    obtain ⟨hi, hrest⟩ := List.forall_mem_cons.mp hfinished
    rw [List.map_cons, List.foldlM_cons, addItem_node hi]
    cases hlowered : isLowered i with
    | false => exact .inr ⟨i.node.tag, i.node.span, rfl⟩
    | true =>
      have hnames : i.entries.map (·.1) = (objects i).map (·.1) := by
        rw [← objects_entries hi hlowered, List.map_map]
        rfl
      rw [List.flatMap_cons, List.map_append, List.append_assoc, hnames] at h
      have hobjects : ((objects i).map (·.1) ++ archive.symbols.map (·.1)).Nodup :=
        h.sublist ((List.Sublist.refl _).append (List.sublist_append_right _ _))
      obtain ⟨symbols, hok, hperm⟩ := addObjects_ok archive hobjects
      have hnext : ((rest.flatMap Item.entries).map (·.1) ++ symbols.map (·.1)).Nodup := by
        refine (List.Perm.nodup_iff ?_).mpr h
        have hmap := hperm.map (·.1)
        rw [List.map_append] at hmap
        exact (hmap.append_left _).trans (List.perm_append_comm_assoc _ _ _)
      simp only [if_true, hok, ok_bind]
      rcases addItems_cases { archive with symbols := symbols } hrest hnext with
        ⟨hall, symbols', hok', hperm'⟩ | herror
      · refine .inl ⟨List.forall_mem_cons.mpr ⟨hlowered, hall⟩, symbols', hok', hperm'.trans ?_⟩
        rw [List.flatMap_cons, List.append_assoc]
        exact (hperm.append_left _).trans (List.perm_append_comm_assoc _ _ _)
      · exact .inr herror

/-- The items of a unit are found in its tree. -/
theorem select_items (t : Program) : t.node.select ["body", "item"] = t.items.map (·.1.node) := by
  have hbody : t.node.node? "body" = Items.node? t.items := by
    simp only [Node.node?, Node.get?, Program.node, Node.fields, Fields.get?_optional, Fields.get?]
    cases Items.node? t.items <;> simp [Value.node?]
  have hstep : t.node.selectStep "body" = (Items.node? t.items).toList := by
    rw [← hbody]
    rfl
  rw [Node.select, List.foldl_cons, List.foldl_cons, List.foldl_nil, List.flatMap_singleton, hstep]
  cases hitems : Items.node? t.items with
  | none => rw [Items.eq_nil_of_node? hitems]; rfl
  | some n =>
    have helement : n.selectStep "item" = n.elements := by
      rw [Node.selectStep, (Items.cells hitems).1]
      rfl
    rw [Option.toList_some, List.flatMap_singleton, helement, Items.elements hitems]

/-- A constant of a unit in an archive. -/
def exportedEntry (unit : String) (entry : String × Constant) : String × ObjectConstant :=
  (unit ++ "." ++ entry.1, ⟨entry.2.type, entry.2.value⟩)

/-- The constants of a unit in an archive. -/
def exported (unit : String) (constants : List (String × Constant)) : List (String × ObjectConstant) :=
  (constants.map (exportedEntry unit)).foldl (fun table entry => Sorted.set entry.1 entry.2 table) []

/-- The constants of a unit are found in its tree. -/
theorem constants_nodes (t : Program) : ((t.node.table? "constants").getD .nil).nodes =
    t.frame.constants.map fun entry => (entry.1, entry.2.node) := by
  have hget : t.node.get? "constants" = tableValue t.frame.raw.constants := by
    simp [Node.get?, Program.node, Node.fields, Fields.get?_optional, Fields.get?]
  rw [← nodes_row, Node.table?, hget, Frame.raw]
  cases t.frame.constants with
  | nil => rfl
  | cons entry rest => rfl

/-- Adding constants adds their entries. -/
theorem foldl_addConstant {unit : String} : ∀ (constants : List (String × Constant)) (archive : Archive),
    (constants.map fun entry => (entry.1, entry.2.node)).foldl (addConstant unit) archive =
      { archive with
        constants := (constants.map (exportedEntry unit)).foldl
          (fun table entry => Sorted.set entry.1 entry.2 table) archive.constants }
  | [], _ => rfl
  | entry :: rest, archive => by
    rw [List.map_cons, List.foldl_cons, List.map_cons, List.foldl_cons]
    exact foldl_addConstant rest (archive.setConstant (unit ++ "." ++ entry.1) ⟨entry.2.type, entry.2.value⟩)

end Compiler

open Compiler

/-! ## 3. Lowered programs -/

section Lowered

variable {unit : String} {p t : Program} {S : Symbols}

/-- **A bound program declares its symbols** and no others: it declares all of them, and altogether
no more. -/
theorem Program.Bound.symbols_perm (hS : t.Bound S) (hnodup : S.entries.Nodup) :
    (Items.symbols t.items).functions.Perm S.functions ∧ (Items.symbols t.items).vars.Perm S.vars := by
  have hfunctions := List.subperm_of_subset (hnodup.of_append_left.of_map _) hS.functions
  have hvars := List.subperm_of_subset (hnodup.of_append_right.of_map _) hS.vars
  have hlength : (Items.symbols t.items).functions.length + (Items.symbols t.items).vars.length ≤
      S.functions.length + S.vars.length := by
    refine Nat.le_trans (Nat.le_of_eq ?_) ((Items.length_entries_le t.items).trans hS.count)
    rw [← (Items.entries_perm t.items).length_eq]
    simp [Symbols.entries]
  have hfewer := hfunctions.length_le
  have hfewer' := hvars.length_le
  exact ⟨(hfunctions.perm_of_length_le (by omega)).symm, (hvars.perm_of_length_le (by omega)).symm⟩

/-- The entries of the items of a bound program are its symbols with their sections. -/
theorem Program.Bound.entries_perm (hS : t.Bound S) (hnodup : S.entries.Nodup) :
    ((t.items.map (·.1)).flatMap Item.entries).Perm S.entries := by
  obtain ⟨hfunctions, hvars⟩ := hS.symbols_perm hnodup
  exact (Items.entries_perm t.items).symm.trans ((hfunctions.map _).append (hvars.map _))

/-- **Collecting a lowered program** gives its objects and its constants, unless an item is not
lowered. -/
theorem Lowered.collect (h : Lowered unit p S t) (text : String) :
    ((∀ entry ∈ t.items, isLowered entry.1 = true) ∧
      ∃ symbols, collect t.node unit text = .ok { Archive.ofSource unit text with
          symbols := symbols
          constants := exported unit t.frame.constants } ∧
        symbols.Perm ((t.items.map (·.1)).flatMap objects)) ∨
    ∃ tag span, Compiler.collect t.node unit text =
      .error ((InternalProblem.notASymbol tag).atSpan span) := by
  have hnodup := h.tabled.nodup
  have hfinished : ∀ i ∈ t.items.map (·.1), FlattenSymbol.Finished i := by
    intro i hi
    obtain ⟨entry, hentry, rfl⟩ := List.mem_map.mp hi
    exact h.finished entry hentry
  have hnew : (((t.items.map (·.1)).flatMap Item.entries).map (·.1) ++
      (Archive.ofSource unit text).symbols.map (·.1)).Nodup := by
    rw [Archive.ofSource, List.map_nil, List.append_nil]
    exact ((h.bound.entries_perm (hnodup.of_map _)).map _).nodup_iff.mpr hnodup
  have hselect : t.node.select ["body", "item"] = (t.items.map (·.1)).map Item.node := by
    rw [select_items, List.map_map]
    rfl
  rw [Compiler.collect, hselect, constants_nodes]
  rcases addItems_cases _ hfinished hnew with ⟨hall, symbols, hok, hsymbols⟩ | ⟨tag, span, herror⟩
  · refine .inl ⟨fun entry hentry => hall _ (List.mem_map_of_mem hentry), symbols, ?_, ?_⟩
    · rw [hok, ok_bind, foldl_addConstant]
      rfl
    · simpa [Archive.ofSource] using hsymbols
  · exact .inr ⟨tag, span, by rw [herror]; rfl⟩

end Lowered

end Lode
