/-
# Straight programs

Once scopes are gone and variables have their data, the body of a function is a list of statements without
declarations (`Stmts.Straight`).  The passes that come after this change the lists and nothing else: the
functions and variables of the program stay.

All of them work in the same way, and this module says how.  Each statement is rewritten, or replaced by
several that are put in its place; the list that is left is the concatenation of these (`Expanded`).  A
visitor that does this is described by what it does to a single statement (`Expands`), and for it three
things are shown once: a list is expanded from its end, a function is left with an expanded body, and a
program with functions that differ in their bodies only (`Item.Rebodied`).  A pass then has to say what
stands in place of one statement, and that this is straight and linked if the statement is.

A program stays bound under new bodies (`Program.Bound.of_rebodied`), since declarations and symbols are not
in the bodies any more.
-/
import Lode.Proofs.Program.Sequence
import Lode.Proofs.Program.Symbols

namespace Lode.Program

/-! ## 1. Statements -/

/-- Whether a statement declares nothing and holds no other statements. -/
def Stmt.isStraight : Stmt → Bool
  | .decl _ | .scope _ _ _ _ | .data _ => false
  | _ => true

theorem Stmt.lets_of_isStraight {s : Stmt} (h : s.isStraight = true) : s.lets = [] := by
  cases s with
  | decl _ | scope _ _ _ _ | data _ => cases h
  | _ => rfl

/-- Statements that declare nothing and hold no others. -/
def Stmts.Straight (stmts : Stmts) : Prop := ∀ s ∈ stmts.toList, s.isStraight = true

theorem Stmts.lets_of_straight : ∀ {stmts : Stmts}, stmts.Straight → stmts.lets = []
  | .nil, _ => rfl
  | .cons stmt rest span, h => by
    obtain ⟨hs, hr⟩ := List.forall_mem_cons.mp h
    rw [Stmts.lets, Stmt.lets_of_isStraight hs, Stmts.lets_of_straight hr, List.append_nil]

theorem Stmts.linked_iff {S : Symbols} {stmts : Stmts} :
    stmts.Linked S ↔ ∀ s ∈ stmts.toList, s.Linked S := by
  cases stmts with
  | nil => simp [Stmts.Linked, Stmts.toList]
  | cons stmt rest span => rw [Stmts.Linked, Stmts.linked_iff, Stmts.toList, List.forall_mem_cons]

theorem Args.linked_iff {S : Symbols} {args : Args} :
    args.Linked S ↔ ∀ e ∈ args.toList, e.Linked S := by
  cases args with
  | nil => simp [Args.Linked, Args.toList]
  | cons arg rest span => rw [Args.Linked, Args.linked_iff, Args.toList, List.forall_mem_cons]

mutual

/-- The statements in a statement, without the scopes around them. -/
def Stmt.leaves : Stmt → List Stmt
  | .scope decl body _ _ => decl.leaves ++ body.leaves
  | s => [s]

/-- The statements in statements, without the scopes around them. -/
def Stmts.leaves : Stmts → List Stmt
  | .nil => []
  | .cons stmt rest _ => stmt.leaves ++ rest.leaves

end

mutual

theorem Stmt.linked_leaves {S : Symbols} : ∀ {s : Stmt}, s.Linked S → ∀ leaf ∈ s.leaves, leaf.Linked S
  | .scope _ _ _ _, h => List.forall_mem_append.mpr ⟨Stmt.linked_leaves h.1, Stmts.linked_leaves h.2⟩
  | .decl _, h | .set _ _ _ _, h | .ret _ _ _, h | .expr _, h | .data _, h | .load _ _ _, h
  | .store _ _ _, h | .arith _ _ _ _, h | .jump _ _, h | .rts _, h | .code _ _, h => by
    simpa only [Stmt.leaves, List.mem_singleton, forall_eq] using h

theorem Stmts.linked_leaves {S : Symbols} : ∀ {stmts : Stmts}, stmts.Linked S →
    ∀ leaf ∈ stmts.leaves, leaf.Linked S
  | .nil, _ => by simp [Stmts.leaves]
  | .cons _ _ _, h => List.forall_mem_append.mpr ⟨Stmt.linked_leaves h.1, Stmts.linked_leaves h.2⟩

end

mutual

/-- A declaration among the leaves is one of the statement. -/
theorem Stmt.mem_lets_of_leaf {d : Let} : ∀ {s : Stmt}, .decl d ∈ s.leaves → d ∈ s.lets
  | .scope _ _ _ _, h => List.mem_append.mpr
      ((List.mem_append.mp h).imp Stmt.mem_lets_of_leaf Stmts.mem_lets_of_leaf)
  | .decl _, h => by simpa [Stmt.leaves, Stmt.lets] using h
  | .set _ _ _ _, h | .ret _ _ _, h | .expr _, h | .data _, h | .load _ _ _, h
  | .store _ _ _, h | .arith _ _ _ _, h | .jump _ _, h | .rts _, h | .code _ _, h => by
    simp [Stmt.leaves] at h

theorem Stmts.mem_lets_of_leaf {d : Let} : ∀ {stmts : Stmts}, .decl d ∈ stmts.leaves → d ∈ stmts.lets
  | .nil, h => by simp [Stmts.leaves] at h
  | .cons _ _ _, h => List.mem_append.mpr
      ((List.mem_append.mp h).imp Stmt.mem_lets_of_leaf Stmts.mem_lets_of_leaf)

end

/-! ## 2. Items -/

/-- An item whose variables have their data. -/
def Item.Straight : Item → Prop
  | .global (.data _) | .use _ _ | .constant _ _ _ _ _ => True
  | .function f => f.body.Straight ∧ f.params = []
  | _ => False

/-- An item whose variables have their data declares nothing in its statements. -/
theorem Item.Straight.declared {S : Symbols} {i : Item} (h : i.Straight) : i.Declared S := by
  cases i with
  | function f =>
    obtain ⟨hbody, hparams⟩ := h
    simp [Item.Declared, Function.locallyDeclared, hparams, Stmts.lets_of_straight hbody]
  | _ => trivial

theorem Function.vars_of_straight {f : Function} (h : (Item.function f).Straight) :
    f.vars = Locals.vars f.locals := by
  simp [Function.vars, h.2, Stmts.lets_of_straight h.1]

/-- Items that differ in the bodies of functions. -/
inductive Item.Rebodied (R : Stmts → Stmts → Prop) : Item → Item → Prop
  | function {f : Function} {body : Stmts} : R f.body body →
      Item.Rebodied R (.function f) (.function { f with body := body })
  | other {i : Item} : (∀ f, i ≠ .function f) → Item.Rebodied R i i

/-- Two passes that change bodies, one after the other. -/
theorem Item.Rebodied.trans {R R' : Stmts → Stmts → Prop} {i i' i'' : Item} (h : i.Rebodied R i')
    (h' : i'.Rebodied R' i'') :
    i.Rebodied (fun body body'' => ∃ body', R body body' ∧ R' body' body'') i'' := by
  cases h with
  | function hbody =>
    cases h' with
    | function hbody' => exact .function ⟨_, hbody, hbody'⟩
    | other hne => exact absurd rfl (hne _)
  | other hne =>
    cases h' with
    | function _ => exact absurd rfl (hne _)
    | other _ => exact .other hne

end Lode.Program

namespace Lode

open Program

/-- A program whose variables have their data. -/
def Program.IsStraight (p : Program) : Prop := ∀ entry ∈ p.items, entry.1.Straight

section Rebodied

variable {S : Symbols} {R : Stmts → Stmts → Prop}
  (hR : ∀ {body body' : Stmts}, R body body' → body.Straight → body.Linked S →
    body'.Straight ∧ body'.Linked S)
include hR

/-- An item with another body declares what it declared, and is linked if the body is. -/
theorem Program.Item.Rebodied.keeps {i i' : Program.Item} (h : i.Rebodied R i') (hs : i.Straight)
    (hl : i.Linked S) :
    i'.Straight ∧ i'.Linked S ∧ i'.functions = i.functions ∧ i'.vars = i.vars ∧
      i'.count = i.count := by
  cases h with
  | @function f body hbody =>
    obtain ⟨hbs, hbl⟩ := hR hbody hs.1 hl.1
    have hs' : (Program.Item.function { f with body := body }).Straight := ⟨hbs, hs.2⟩
    refine ⟨hs', ⟨hbl, hl.2⟩, rfl, ?_, ?_⟩
    · rw [Item.vars, Item.vars, Function.vars_of_straight hs, Function.vars_of_straight hs']
    · rw [Item.count, Item.count, Stmts.lets_of_straight hs.1, Stmts.lets_of_straight hbs]
  | other _ => exact ⟨hs, hl, rfl, rfl, rfl⟩

/-- **New bodies.**  A program stays bound if the bodies of its functions stay straight and linked. -/
theorem Program.Bound.of_rebodied {p p' : Program}
    (h : List.Forall₂ (fun entry entry' => entry.1.Rebodied R entry'.1) p.items p'.items)
    (hstraight : p.IsStraight) (hp : p.Bound S) : p'.IsStraight ∧ p'.Bound S := by
  have hkeeps := ((List.forall₂_and_left _ _).mpr ⟨fun entry hentry =>
    And.intro (hstraight entry hentry) (hp.linked entry hentry), h⟩).imp
      fun entry entry' hitem => hitem.2.keeps hR hitem.1.1 hitem.1.2
  have hafter : ∀ entry ∈ p'.items, entry.1.Straight ∧ entry.1.Linked S := fun entry hentry => by
    obtain ⟨_, -, hs, hl, -⟩ := exists_of_mem_right hkeeps hentry
    exact ⟨hs, hl⟩
  obtain ⟨hfunctions, hvars⟩ := Items.symbols_subset (hkeeps.imp fun _ _ hitem =>
    And.intro (hitem.2.2.1 ▸ List.Subset.refl _) (hitem.2.2.2.1 ▸ List.Subset.refl _))
  have hcount := Items.count_le (hkeeps.imp fun _ _ hitem => Nat.le_of_eq hitem.2.2.2.2)
  exact ⟨fun entry hentry => (hafter entry hentry).1,
    { linked := fun entry hentry => (hafter entry hentry).2
      functions := List.Subset.trans hp.functions hfunctions
      vars := List.Subset.trans hp.vars hvars
      declared := fun entry hentry => (hafter entry hentry).1.declared
      count := Nat.le_trans hcount hp.count }⟩

end Rebodied

end Lode

namespace Lode.Program

/-! ## 4. Lists that are expanded -/

/-- A list in which every statement is replaced by the statements it is lowered to. -/
inductive Expanded (Step : Stmt → List Stmt → Prop) : List Stmt → List Stmt → Prop
  | nil : Expanded Step [] []
  | cons {s : Stmt} {front rest rest' : List Stmt} : Step s front →
      Expanded Step rest rest' → Expanded Step (s :: rest) (front ++ rest')

namespace Expanded

variable {Step : Stmt → List Stmt → Prop}

/-- What holds of all that stands in place of a statement holds of an expanded list. -/
theorem forall_mem {P Q : Stmt → Prop}
    (hstep : ∀ {s : Stmt} {front : List Stmt}, Step s front → P s → ∀ s' ∈ front, Q s')
    {stmts stmts' : List Stmt} (h : Expanded Step stmts stmts') (hP : ∀ s ∈ stmts, P s) :
    ∀ s ∈ stmts', Q s := by
  induction h with
  | nil => simp
  | cons hs _ ih =>
    obtain ⟨hhead, htail⟩ := List.forall_mem_cons.mp hP
    exact List.forall_mem_append.mpr ⟨hstep hs hhead, ih htail⟩

/-- An expanded list can be split where the list was. -/
theorem of_append {front back stmts' : List Stmt} (h : Expanded Step (front ++ back) stmts') :
    ∃ front' back', stmts' = front' ++ back' ∧ Expanded Step front front' ∧
      Expanded Step back back' := by
  induction front generalizing stmts' with
  | nil => exact ⟨[], stmts', rfl, .nil, h⟩
  | cons s more ih =>
    cases h with
    | @cons _ here _ rest' hs hrest =>
      obtain ⟨front', back', rfl, hfront, hback⟩ := ih hrest
      exact ⟨here ++ front', back', by simp, .cons hs hfront, hback⟩

theorem singleton {s : Stmt} {stmts' : List Stmt} (h : Expanded Step [s] stmts') : Step s stmts' := by
  cases h with
  | cons hs hrest =>
    cases hrest
    rwa [List.append_nil]

/-- What is counted of statements stays, if it does for those in place of one. -/
theorem flatMap_eq {α : Type} {f : Stmt → List α} {P : Stmt → Prop}
    (hstep : ∀ {s : Stmt} {front : List Stmt}, Step s front → P s → front.flatMap f = f s)
    {stmts stmts' : List Stmt} (h : Expanded Step stmts stmts') (hP : ∀ s ∈ stmts, P s) :
    stmts'.flatMap f = stmts.flatMap f := by
  induction h with
  | nil => rfl
  | cons hs _ ih =>
    obtain ⟨hPs, hPrest⟩ := List.forall_mem_cons.mp hP
    rw [List.flatMap_append, List.flatMap_cons, hstep hs hPs, ih hPrest]

/-- Statements that are lowered to straight and linked ones. -/
theorem keeps {S : Symbols}
    (hstep : ∀ {s : Stmt} {front : List Stmt}, Step s front →
      s.isStraight = true ∧ s.Linked S → ∀ s' ∈ front, s'.isStraight = true ∧ s'.Linked S)
    {body body' : Stmts} (h : Expanded Step body.toList body'.toList) (hs : body.Straight)
    (hl : body.Linked S) : body'.Straight ∧ body'.Linked S := by
  have hafter : ∀ s ∈ body'.toList, s.isStraight = true ∧ s.Linked S :=
    h.forall_mem (P := fun s => s.isStraight = true ∧ s.Linked S) hstep
      fun s hmem => ⟨hs s hmem, Stmts.linked_iff.mp hl s hmem⟩
  exact ⟨fun s hmem => (hafter s hmem).1, Stmts.linked_iff.mpr fun s hmem => (hafter s hmem).2⟩

end Expanded

/-- The statements in place of one, which stays if there are none. -/
def lowered (lower? : Stmt → Except Error (Option (List Stmt))) (s : Stmt) : Except Error (List Stmt) :=
  (·.getD [s]) <$> lower? s

/-- A cell in which a statement is lowered. -/
def expandCell (lower? : Stmt → Except Error (Option (List Stmt))) (s : Stmt) (rest : Stmts)
    (span : Span) : Except Error Stmts := do
  match ← lower? s with
  | some front => return rest.prepend front
  | none => return .cons s rest span

/-- A cell is left with the statements in place of its own, in front of the others. -/
theorem expandCell_ok {lower? : Stmt → Except Error (Option (List Stmt))} {s : Stmt}
    {rest stmts : Stmts} {span : Span} (h : expandCell lower? s rest span = .ok stmts) :
    ∃ front, lowered lower? s = .ok front ∧ stmts.toList = front ++ rest.toList := by
  obtain ⟨front, hfront, h⟩ := bind_eq_ok.mp h
  rw [lowered, hfront]
  cases front with
  | some front => exact ⟨front, rfl, Except.ok.inj h ▸ Stmts.toList_prepend rest front⟩
  | none => exact ⟨[s], rfl, Except.ok.inj h ▸ rfl⟩

/-- A visitor that rewrites statements and expands lists of them. -/
structure Expands (v : Visitor Unit) (change : Stmt → Except Error Stmt)
    (lower? : Stmt → Except Error (Option (List Stmt))) : Prop where
  type : v.type = pure
  expr : v.expr = pure
  stmt : ∀ s, v.stmt s = liftM (change s)
  call : ∀ e, change (.expr e) = .ok (.expr e)
  data : ∀ d, change (.data d) = .ok (.data d)
  cell : ∀ s rest span, v.cell s rest span = liftM (expandCell lower? s rest span)
  enterFunction : v.enterFunction = fun _ => pure ()
  item : v.item = fun i => pure (some i)
  itemCell : v.itemCell = fun i rest span => pure ((i, span) :: rest)
  enterUnit : v.enterUnit = pure
  exitUnit : v.exitUnit = pure

namespace Expands

variable {v : Visitor Unit} {change : Stmt → Except Error Stmt}
  {lower? : Stmt → Except Error (Option (List Stmt))}

/-- The statements in place of one. -/
def Step (change : Stmt → Except Error Stmt) (lower? : Stmt → Except Error (Option (List Stmt)))
    (s : Stmt) (front : List Stmt) : Prop :=
  change s >>= lowered lower? = .ok front

/-- A straight statement is rewritten. -/
theorem mapUp_stmt (h : Expands v change lower?) {s : Stmt} (hs : s.isStraight = true) :
    s.mapUp v = liftM (change s) := by
  cases s with
  | decl _ | scope _ _ _ _ | data _ => cases hs
  | ret value type span => cases value <;> simp [Stmt.mapUp, h.expr, h.stmt]
  | expr e => simp [Stmt.mapUp, h.expr, h.call, Walk.lift_ok]
  | _ => simp [Stmt.mapUp, h.expr, h.stmt]

/-- **A list is expanded** from its end: when a cell is left, the rest is expanded already. -/
theorem mapUp_stmts (h : Expands v change lower?) : ∀ {stmts stmts' : Stmts}, stmts.Straight →
    (stmts.mapUp v).outcome () = (.ok stmts', ()) →
      Expanded (Step change lower?) stmts.toList stmts'.toList
  | .nil, stmts', _, hrun => by
    obtain ⟨rfl, -⟩ := Walk.outcome_pure_eq_ok.mp hrun
    exact .nil
  | .cons s rest span, stmts', hstraight, hrun => by
    obtain ⟨hs, hr⟩ := List.forall_mem_cons.mp hstraight
    rw [Stmts.mapUp, h.mapUp_stmt hs] at hrun
    obtain ⟨s', hs', hrun⟩ := Walk.outcome_lift_bind_eq_ok.mp hrun
    obtain ⟨rest', ⟨⟩, hrest, hrun⟩ := Walk.outcome_bind_eq_ok.mp hrun
    rw [h.cell, Walk.outcome_lift, Prod.mk.injEq] at hrun
    obtain ⟨front, hfront, hlist⟩ := expandCell_ok hrun.1
    rw [hlist]
    refine .cons ?_ (mapUp_stmts h hr hrest)
    rw [Step, hs']
    exact hfront

variable {R : Stmts → Stmts → Prop}

/-- How a function is left, once its body is expanded. -/
def Leaves (v : Visitor Unit) (change : Stmt → Except Error Stmt)
    (lower? : Stmt → Except Error (Option (List Stmt))) (R : Stmts → Stmts → Prop) : Prop :=
  ∀ {f : Function} {body : Stmts} {i : Item}, Expanded (Step change lower?) f.body.toList body.toList →
    (v.exitFunction { f with body := body }).outcome () = (.ok i, ()) →
    ∃ body', i = .function { f with body := body' } ∧ R f.body body'

/-- A function that is left as it is. -/
theorem leaves_pure (hexit : v.exitFunction = fun f => pure (.function f)) :
    Leaves v change lower? fun body body' => Expanded (Step change lower?) body.toList body'.toList := by
  intro f body i hbody hrun
  rw [hexit] at hrun
  obtain ⟨rfl, -⟩ := Walk.outcome_pure_eq_ok.mp hrun
  exact ⟨body, rfl, hbody⟩

/-- An item is left with expanded bodies. -/
theorem mapUp_item (h : Expands v change lower?) (hleaves : Leaves v change lower? R) {i : Item} {left : Option Item} (hi : i.Straight)
    (hrun : (i.mapUp v).outcome () = (.ok left, ())) : ∃ i', left = some i' ∧ i.Rebodied R i' := by
  cases i with
  | use name span =>
    rw [Item.mapUp, h.item] at hrun
    obtain ⟨rfl, -⟩ := Walk.outcome_pure_eq_ok.mp hrun
    exact ⟨_, rfl, .other (by simp)⟩
  | constant name ty value symbol span =>
    rw [Item.mapUp, h.type, TypeExpr.mapUp_pure, pure_bind, h.expr, pure_bind, h.item] at hrun
    obtain ⟨rfl, -⟩ := Walk.outcome_pure_eq_ok.mp hrun
    exact ⟨_, rfl, .other (by simp)⟩
  | global s =>
    cases s with
    | data d =>
      rw [Item.mapUp, Stmt.mapUp, h.stmt, h.data, Walk.lift_ok, map_pure] at hrun
      obtain ⟨rfl, -⟩ := Walk.outcome_pure_eq_ok.mp hrun
      exact ⟨_, rfl, .other (by simp)⟩
    | _ => cases hi
  | function f =>
    rw [Item.mapUp, Function.mapUp, h.enterFunction, pure_bind, Params.mapUp_pure h.type, pure_bind,
      visitResult_pure h.type, pure_bind, Walk.outcome_map, Prod.mk.injEq] at hrun
    obtain ⟨i', hi', rfl⟩ := map_eq_ok.mp hrun.1
    obtain ⟨body, ⟨⟩, hbody, hexit⟩ := Walk.outcome_bind_eq_ok.mp
      (Prod.ext hi' rfl : Walk.outcome (f.body.mapUp v >>= _) () = (.ok i', ()))
    obtain ⟨body', rfl, hR⟩ := hleaves (h.mapUp_stmts hi.1 hbody) hexit
    exact ⟨_, rfl, .function hR⟩
  | compiled symbol code type locals span => cases hi

theorem mapUp_items (h : Expands v change lower?) (hleaves : Leaves v change lower? R) : ∀ {items items' : Items},
    (∀ entry ∈ items, entry.1.Straight) → (Items.mapUp v items).outcome () = (.ok items', ()) →
      List.Forall₂ (fun entry entry' => entry.1.Rebodied R entry'.1) items items'
  | [], items', _, hrun => by
    obtain ⟨rfl, -⟩ := Walk.outcome_pure_eq_ok.mp hrun
    exact .nil
  | entry :: rest, items', hstraight, hrun => by
    obtain ⟨hs, hsrest⟩ := List.forall_mem_cons.mp hstraight
    obtain ⟨left, ⟨⟩, hitem, hrun⟩ := Walk.outcome_bind_eq_ok.mp hrun
    obtain ⟨i', rfl, hrebodied⟩ := h.mapUp_item hleaves hs hitem
    obtain ⟨rest', ⟨⟩, hrest, hrun⟩ := Walk.outcome_bind_eq_ok.mp hrun
    rw [leaveItemCell, h.itemCell] at hrun
    obtain ⟨rfl, -⟩ := Walk.outcome_pure_eq_ok.mp hrun
    exact .cons hrebodied (mapUp_items h hleaves hsrest hrest)

/-- **Expanded programs.**  A visitor that expands lists of statements leaves everything but the
bodies of functions. -/
theorem mapUp_program (h : Expands v change lower?) (hleaves : Leaves v change lower? R) {p p' : Program} (hstraight : p.IsStraight)
    (hrun : ((p.mapUp v).outcome ()).1 = .ok p') :
    List.Forall₂ (fun entry entry' => entry.1.Rebodied R entry'.1) p.items p'.items := by
  have hrun : (p.mapUp v).outcome () = (.ok p', ()) := Prod.ext hrun rfl
  rw [Program.mapUp, h.enterUnit, pure_bind, h.exitUnit] at hrun
  obtain ⟨items, ⟨⟩, hitems, hexit⟩ := Walk.outcome_bind_eq_ok.mp hrun
  obtain ⟨rfl, -⟩ := Walk.outcome_pure_eq_ok.mp hexit
  exact h.mapUp_items hleaves hstraight hitems

end Expands

end Lode.Program
