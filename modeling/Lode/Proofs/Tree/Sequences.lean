/-
# Walks over sequences

A sequence is a chain of cells, so a walk over it is a recursion of its own: a cell is entered, its element
is walked over, then the rest of the chain, and then the cell is left, unless its element is gone.  If the
hooks do nothing to the cells, this is a pass over the elements from the first to the last (`Threads`), and
what is left of the chain are the cells with what is left of their elements (`transform_sequence`).

The state goes through the elements in their order, and an error stops the pass at the first element that
has one. Only the way out is the other way around: the exit hook sees the cells that are left from the last
to the first.  Since it does nothing to them, all that can do is to change the state, and `Threads` has it
in the right place.

Each direction is an induction on the list of elements.  A walk that is not stopped by its budget is a pass
(`threads_of_walk`), whatever the budget; and a pass is what a walk comes to with every budget from some
depth on (`walk_of_threads`).  For the second, the depths of the elements and of the chain behind them have
to be brought together (`exists_walk_chain`).
-/
import Lode.Proofs.Tree.Sharing
import Lode.Tree.Sequence

namespace Lode

variable {σ : Type} {tag : Tag} {element : String}

/-! ## 1. Elements -/

/-- The elements of a sequence, none if there is no sequence. -/
def elementsIn (chain : Option Node) : List Node := (chain.map Node.elements).getD []

/-- The rest of a chain is found under its name, if it is of the same tag. -/
theorem Fields.nextCells_eq (tag : Tag) : ∀ fields : Fields, fields.nextCells tag =
    match (fields.get? "next").bind Value.node? with
    | some n => if n.tag == tag then n.cells else []
    | none => []
  | .nil => rfl
  | .cons name v rest => by
    have ih := nextCells_eq tag rest
    by_cases hname : name = "next"
    · subst hname
      cases v <;> rfl
    · have hne : (name == "next") = false := beq_eq_false_iff_ne.mpr hname
      have hne' : ("next" == name) = false := beq_eq_false_iff_ne.mpr (Ne.symm hname)
      cases v <;> simpa only [nextCells, get?, hne, hne', Bool.false_eq_true, if_false] using ih

theorem Node.cells_eq (n : Node) : n.cells = n :: n.fields.nextCells n.tag := by
  obtain ⟨tag, fields, span⟩ := n
  rw [cells, Node.fields, Node.tag]

theorem Node.elements_eq {n : Node} (htag : n.tag.element? = some element) :
    n.elements = n.cells.filterMap (·.node? element) := by
  rw [elements, htag]

/-- The elements of a cell: its own, and those of the rest of the chain. -/
theorem Node.elements_cell (htag : tag.element? = some element) {n : Node} (hn : n.tag = tag) {x : Node}
    {rest : Option Node} (hx : n.fields.get? element = some (.node x))
    (hrest : n.fields.get? "next" = rest.map .node) (hsame : ∀ m ∈ rest, m.tag = tag) :
    n.elements = x :: elementsIn rest := by
  have hhere : n.node? element = some x := by
    rw [node?, get?, hx]
    rfl
  rw [elements_eq (hn ▸ htag), cells_eq, hn, List.filterMap_cons, hhere, Fields.nextCells_eq, hrest]
  cases rest with
  | none => rfl
  | some m =>
    have hm : m.tag = tag := hsame m rfl
    have hgoes : (m.tag == tag) = true := beq_iff_eq.mpr hm
    simp only [Option.map_some, Option.bind_some, Value.node?, hgoes, if_true]
    rw [elementsIn, Option.map_some, Option.getD_some, elements_eq (hm ▸ htag)]

/-! ## 2. Cells -/

theorem Tag.element?_cases (htag : tag.element? = some element) :
    (tag = .items ∧ element = "item") ∨ (tag = .params ∧ element = "param") ∨
      (tag = .stmts ∧ element = "stmt") ∨ (tag = .args ∧ element = "arg") := by
  cases tag <;> simp_all [Tag.element?]

/-- How a cell is put together. -/
structure Node.IsCell (n : Node) (tag : Tag) (element : String) (x : Node) (next : Option Node) : Prop where
  tagged : n.tag = tag
  framed : n.framed = true
  holds : n.fields.get? element = some (.node x)
  follows : n.fields.get? "next" = next.map .node
  visits : visitOrder n.fields.nodes = (element, x) :: (next.map ("next", ·)).toList

/-- New cells are put together as cells are. -/
theorem Node.isCell_cell (htag : tag.element? = some element) (x : Node) (next : Option Node) :
    (cell tag element x next).IsCell tag element x next := by
  rcases Tag.element?_cases htag with ⟨rfl, rfl⟩ | ⟨rfl, rfl⟩ | ⟨rfl, rfl⟩ | ⟨rfl, rfl⟩ <;>
  · cases next <;> exact ⟨rfl, rfl, rfl, rfl, rfl⟩

theorem Tag.element_ne_next (htag : tag.element? = some element) : "next" ≠ element := by
  rcases Tag.element?_cases htag with ⟨rfl, rfl⟩ | ⟨rfl, rfl⟩ | ⟨rfl, rfl⟩ | ⟨rfl, rfl⟩ <;> decide

/-- The chain of some elements. -/
def chainOf (tag : Tag) (xs : List Node) : Option Node := Node.sequence tag xs none

theorem Node.sequence_cons (htag : tag.element? = some element) (x : Node) (xs : List Node)
    (rest : Option Node) :
    sequence tag (x :: xs) rest = some (cell tag element x (sequence tag xs rest)) := by
  rw [sequence, sequence, htag]
  rfl

theorem Node.sequence_nil (htag : tag.element? = some element) (rest : Option Node) :
    sequence tag [] rest = rest := by
  rw [sequence, htag]
  rfl

/-- **The elements of a new chain** are those it was made of, and those of its rest. -/
theorem Node.elements_sequence (htag : tag.element? = some element) {rest : Option Node}
    (hrest : ∀ n ∈ rest, n.tag = tag) : ∀ xs : List Node,
      elementsIn (sequence tag xs rest) = xs ++ elementsIn rest ∧ ∀ n ∈ sequence tag xs rest, n.tag = tag := by
  intro xs
  induction xs with
  | nil =>
    rw [sequence_nil htag]
    exact ⟨rfl, hrest⟩
  | cons x xs ih =>
    obtain ⟨helements, hsame⟩ := ih
    rw [sequence_cons htag]
    have hcell := isCell_cell htag x (sequence tag xs rest)
    refine ⟨?_, fun n hn => ?_⟩
    · rw [elementsIn, Option.map_some, Option.getD_some,
        elements_cell htag hcell.tagged hcell.holds hcell.follows hsame, helements, List.cons_append]
    · obtain rfl := Option.some.inj hn
      exact hcell.tagged

/-! ## 3. Walks over cells -/

namespace Fields

theorem get?_put {fields : Fields} (hordered : fields.ordered = true) (name key : String) (left : Option Node) :
    (fields.put name left).get? key = if key = name then left.map .node else fields.get? key := by
  cases left with
  | some n => exact get?_set key name (.node n) fields
  | none => exact get?_erase key hordered

theorem erase_of_get?_eq_none {name : String} : ∀ {fields : Fields}, fields.get? name = none →
    fields.erase name = fields
  | nil, _ => rfl
  | cons first v rest, h => by
    rw [get?] at h
    split at h
    · cases h
    · rename_i hne
      rw [erase, if_neg hne, erase_of_get?_eq_none h]

end Fields

/-- A cell with other contents. -/
def Node.refill (n : Node) (element : String) (x : Option Node) (rest : Option Node) : Node :=
  .mk n.tag ((n.fields.put element x).put "next" rest) n.span

/-- Walks over the rest of a chain. -/
def walkRest (hooks : Hooks σ) (fuel : Nat) : Option Node → Walk σ (Option Node)
  | none => pure none
  | some n => walkWithin hooks fuel n

/-- Leaves a cell whose element is left, or gives way to the rest. -/
def leaveCell (hooks : Hooks σ) (n : Node) (element : String) (left rest : Option Node) :
    Walk σ (Option Node) :=
  match left with
  | some _ => settle hooks.exit (n.refill element left rest)
  | none => pure rest

section Cell

variable {hooks : Hooks σ} {fuel : Nat} {n x : Node} {next : Option Node}

theorem Node.IsCell.ordered (hn : n.IsCell tag element x next) : n.fields.ordered = true := by
  have hframed := hn.framed
  rw [Node.framed, Bool.and_eq_true] at hframed
  exact hframed.1

/-- The contents of a cell that is refilled. -/
theorem Node.IsCell.get?_refill (hn : n.IsCell tag element x next) (htag : tag.element? = some element)
    (left rest : Option Node) : (n.refill element left rest).fields.get? element = left.map .node ∧
      (n.refill element left rest).fields.get? "next" = rest.map .node := by
  have hordered : (n.fields.put element left).ordered = true := Fields.ordered_put hn.ordered left
  constructor
  · rw [refill, Node.fields, Fields.get?_put hordered, if_neg (Tag.element_ne_next htag).symm,
      Fields.get?_put hn.ordered, if_pos rfl]
  · rw [refill, Node.fields, Fields.get?_put hordered, if_pos rfl]

/-- A cell gives way to the rest of its chain if its element is gone. -/
theorem Node.IsCell.leave_eq (hn : n.IsCell tag element x next) (htag : tag.element? = some element)
    (left rest : Option Node) :
    (if lostElement n.tag (n.refill element left rest).fields then
        pure ((collapse (n.refill element left rest).fields).apply n)
      else settle hooks.exit (n.refill element left rest)) = leaveCell hooks n element left rest := by
  obtain ⟨helement, hnext⟩ := hn.get?_refill htag left rest
  have hlost : lostElement n.tag (n.refill element left rest).fields = left.isNone := by
    rw [lostElement, hn.tagged, htag]
    simp only [Fields.has, helement]
    cases left <;> rfl
  rw [hlost, collapse_apply, hnext]
  cases left with
  | some y => rfl
  | none => cases rest <;> rfl

/-- **A walk over a cell** that keeps it on the way in: over its element, then over the rest. -/
theorem walk_cell (htag : tag.element? = some element) (hn : n.IsCell tag element x next) {entered : Verdict}
    {s s1 : σ} (henter : (hooks.enter n).outcome s = (.ok entered, s1)) (hentered : entered.apply n = some n) :
    (walkWithin hooks (fuel + 1) n).outcome s = Walk.outcome (do
      let left ← walkWithin hooks fuel x
      let rest ← walkRest hooks fuel next
      leaveCell hooks n element left rest) s1 := by
  rw [walkWithin_succ, Walk.outcome_bind_of_ok henter, walkEntered_eq hentered hn.framed, walkInside, hn.visits]
  refine congrArg (Walk.outcome · s1) ?_
  rw [visitEach, bind_assoc]
  refine bind_congr fun left => ?_
  cases next with
  | none =>
    have hmissing : (n.fields.put element left).get? "next" = none := by
      rw [Fields.get?_put hn.ordered, if_neg (Tag.element_ne_next htag), hn.follows]
      rfl
    have hsame : n.refill element left none = .mk n.tag (n.fields.put element left) n.span :=
      congrArg (Node.mk n.tag · n.span) (Fields.erase_of_get?_eq_none hmissing)
    have hleave := @Node.IsCell.leave_eq _ _ _ hooks _ _ _ hn htag left none
    rw [hsame] at hleave
    rw [walkRest, pure_bind, ← hleave, Option.map_none, Option.toList_none, visitEach, pure_bind]
    rfl
  | some c =>
    rw [walkRest, Option.map_some, Option.toList_some, visitEach, bind_assoc]
    refine bind_congr fun rest => ?_
    rw [← hn.leave_eq htag left rest, visitEach, pure_bind]
    rfl

end Cell

/-! ## 4. Passes over elements -/

/-- The hooks leave nodes of a tag as they are, whatever they do to the state. -/
structure Hooks.Spares (hooks : Hooks σ) (tag : Tag) : Prop where
  enter : ∀ {n : Node} (s : σ), n.tag = tag →
    ∃ answer s', (hooks.enter n).outcome s = (.ok answer, s') ∧ answer.apply n = some n
  exit : ∀ {n : Node} (s : σ), n.tag = tag →
    ∃ answer s', (hooks.exit n).outcome s = (.ok answer, s') ∧ answer.apply n = some n

/-- The cell of an element in a chain. -/
def cellOf (tag : Tag) (element : String) (x : Node) (xs : List Node) : Node :=
  Node.cell tag element x (chainOf tag xs)

/-- The chain of cells with what is left of their elements, if there is any. -/
def leftOf (tag : Tag) (element : String) : List Node → List (Option Node) → Option Node
  | x :: xs, some y :: lefts =>
    some ((cellOf tag element x xs).refill element (some y) (leftOf tag element xs lefts))
  | _ :: xs, none :: lefts => leftOf tag element xs lefts
  | _, _ => none

/-- A pass over elements from the first to the last: what is left of each, or the error at which the pass
stops, and the state after it.  Before an element the enter hook sees its cell, and at the end the exit hook
sees the cells that are left, the last one first; all that can do is to change the state. -/
inductive Threads (hooks : Hooks σ) (tag : Tag) (element : String) :
    List Node → σ → Except Error (List (Option Node)) → σ → Prop
  | done {s : σ} : Threads hooks tag element [] s (.ok []) s
  /-- The walk over an element fails. -/
  | stopped {x : Node} {xs : List Node} {entered : Verdict} {e : Error} {s s1 s' : σ} :
      (hooks.enter (cellOf tag element x xs)).outcome s = (.ok entered, s1) →
      ComesTo hooks x s1 (.error e) s' → Threads hooks tag element (x :: xs) s (.error e) s'
  /-- The pass stops further on. -/
  | stoppedBehind {x : Node} {xs : List Node} {entered : Verdict} {left : Option Node} {e : Error}
      {s s1 s2 s' : σ} :
      (hooks.enter (cellOf tag element x xs)).outcome s = (.ok entered, s1) →
      ComesTo hooks x s1 (.ok left) s2 → Threads hooks tag element xs s2 (.error e) s' →
      Threads hooks tag element (x :: xs) s (.error e) s'
  /-- An element is removed, and its cell is not left. -/
  | removed {x : Node} {xs : List Node} {entered : Verdict} {lefts : List (Option Node)} {s s1 s2 s' : σ} :
      (hooks.enter (cellOf tag element x xs)).outcome s = (.ok entered, s1) →
      ComesTo hooks x s1 (.ok none) s2 → Threads hooks tag element xs s2 (.ok lefts) s' →
      Threads hooks tag element (x :: xs) s (.ok (none :: lefts)) s'
  /-- Something is left of an element. -/
  | left {x y : Node} {xs : List Node} {entered answer : Verdict} {lefts : List (Option Node)}
      {s s1 s2 s3 s' : σ} :
      (hooks.enter (cellOf tag element x xs)).outcome s = (.ok entered, s1) →
      ComesTo hooks x s1 (.ok (some y)) s2 → Threads hooks tag element xs s2 (.ok lefts) s3 →
      (hooks.exit ((cellOf tag element x xs).refill element (some y) (leftOf tag element xs lefts))).outcome s3 =
        (.ok answer, s') →
      Threads hooks tag element (x :: xs) s (.ok (some y :: lefts)) s'

theorem isCell_cellOf (htag : tag.element? = some element) (x : Node) (xs : List Node) :
    (cellOf tag element x xs).IsCell tag element x (chainOf tag xs) :=
  Node.isCell_cell htag x (chainOf tag xs)

theorem chainOf_cons (htag : tag.element? = some element) (x : Node) (xs : List Node) :
    chainOf tag (x :: xs) = some (cellOf tag element x xs) :=
  Node.sequence_cons htag x xs none

section Threads

variable {hooks : Hooks σ}

/-- A pass leaves something, or nothing, of every element. -/
theorem Threads.length_eq {xs : List Node} {s s' : σ} {lefts : Except Error (List (Option Node))}
    (h : Threads hooks tag element xs s lefts s') : ∀ l, lefts = .ok l → l.length = xs.length := by
  induction h with
  | done =>
    rintro _ ⟨⟩
    rfl
  | stopped => exact nofun
  | stoppedBehind => exact nofun
  | removed _ _ _ ih =>
    rintro _ ⟨⟩
    rw [List.length_cons, List.length_cons, ih _ rfl]
  | left _ _ _ _ ih =>
    rintro _ ⟨⟩
    rw [List.length_cons, List.length_cons, ih _ rfl]

/-- What is left of a chain: its elements are what is left of the elements, without those that were
removed, and it is gone if all of them are. -/
theorem leftOf_spec (htag : tag.element? = some element) : ∀ {xs : List Node} {lefts : List (Option Node)},
    lefts.length = xs.length →
    elementsIn (leftOf tag element xs lefts) = lefts.filterMap id ∧
      (leftOf tag element xs lefts = none ↔ ∀ left ∈ lefts, left = none) ∧
      ∀ n ∈ leftOf tag element xs lefts, n.tag = tag := by
  intro xs
  induction xs with
  | nil =>
    intro lefts hlength
    obtain rfl := List.length_eq_zero_iff.mp hlength
    exact ⟨rfl, by simp [leftOf], nofun⟩
  | cons x xs ih =>
    intro lefts hlength
    cases lefts with
    | nil => cases hlength
    | cons left lefts =>
      obtain ⟨helements, hgone, hsame⟩ := ih (Nat.succ.inj hlength)
      cases left with
      | none =>
        refine ⟨helements, ?_, hsame⟩
        rw [leftOf, hgone, List.forall_mem_cons]
        exact (and_iff_right rfl).symm
      | some y =>
        have hcell := isCell_cellOf htag x xs
        obtain ⟨helement, hnext⟩ := hcell.get?_refill htag (some y) (leftOf tag element xs lefts)
        have htagged : ((cellOf tag element x xs).refill element (some y) (leftOf tag element xs lefts)).tag =
          tag := hcell.tagged
        refine ⟨?_, by simp [leftOf], ?_⟩
        · rw [leftOf, elementsIn, Option.map_some, Option.getD_some,
            Node.elements_cell htag htagged helement hnext hsame, helements]
          rfl
        · rintro _ ⟨⟩
          exact htagged

/-- A walk over a chain: into its first cell, over the element, then over the rest. -/
theorem walk_chain (htag : tag.element? = some element) {x : Node} {xs : List Node} {entered : Verdict}
    {fuel : Nat} {s s1 : σ} (henter : (hooks.enter (cellOf tag element x xs)).outcome s = (.ok entered, s1))
    (hkept : entered.apply (cellOf tag element x xs) = some (cellOf tag element x xs)) :
    (walkRest hooks (fuel + 1) (chainOf tag (x :: xs))).outcome s = Walk.outcome (do
      let left ← walkWithin hooks fuel x
      let rest ← walkRest hooks fuel (chainOf tag xs)
      leaveCell hooks (cellOf tag element x xs) element left rest) s1 := by
  rw [chainOf_cons htag, walkRest]
  exact walk_cell htag (isCell_cellOf htag x xs) henter hkept

/-- A pass over an element and the others, and how the cell of the element is left after it. -/
theorem Threads.exists_cons (htag : tag.element? = some element) (hspares : hooks.Spares tag) {x : Node}
    {xs : List Node} {entered : Verdict} {left : Option Node} {lefts : Except Error (List (Option Node))}
    {s s1 s2 s3 : σ} (henter : (hooks.enter (cellOf tag element x xs)).outcome s = (.ok entered, s1))
    (helement : ComesTo hooks x s1 (.ok left) s2) (hpass : Threads hooks tag element xs s2 lefts s3) :
    ∃ lefts' s', Threads hooks tag element (x :: xs) s lefts' s' ∧
      ∀ {behind : Walk σ (Option Node)}, behind.outcome s2 = (leftOf tag element xs <$> lefts, s3) →
        (behind >>= leaveCell hooks (cellOf tag element x xs) element left).outcome s2 =
          (leftOf tag element (x :: xs) <$> lefts', s') := by
  rcases lefts with e | lefts
  · exact ⟨.error e, s3, .stoppedBehind henter helement hpass, fun h => Walk.outcome_bind_of_error h⟩
  rcases left with _ | y
  · exact ⟨.ok (none :: lefts), s3, .removed henter helement hpass, fun h => Walk.outcome_bind_of_ok h⟩
  · obtain ⟨answer, s4, hexit, hkept⟩ := hspares.exit
      (n := (cellOf tag element x xs).refill element (some y) (leftOf tag element xs lefts)) s3
      (isCell_cellOf htag x xs).tagged
    refine ⟨.ok (some y :: lefts), s4, .left henter helement hpass hexit, fun h => ?_⟩
    rw [Walk.outcome_bind_of_ok h, leaveCell, settle, Walk.outcome_map, hexit]
    exact Prod.ext (congrArg Except.ok hkept) rfl

/-- **A walk over a chain** that is not stopped by its budget is a pass over the elements. -/
theorem threads_of_walk (htag : tag.element? = some element) (hspares : hooks.Spares tag) :
    ∀ {xs : List Node} {fuel : Nat} {s s' : σ} {rest : Except Error (Option Node)},
      (walkRest hooks fuel (chainOf tag xs)).outcome s = (rest, s') → rest ≠ .error exhausted →
      ∃ lefts, Threads hooks tag element xs s lefts s' ∧ rest = leftOf tag element xs <$> lefts := by
  intro xs
  induction xs with
  | nil =>
    intro fuel s s' rest h _
    rw [chainOf, Node.sequence_nil htag, walkRest, Walk.outcome_pure] at h
    obtain ⟨rfl, rfl⟩ := Prod.mk.inj h
    exact ⟨.ok [], .done, rfl⟩
  | cons x xs ih =>
    intro fuel s s' rest h hrest
    rcases fuel with _ | fuel
    · rw [chainOf_cons htag] at h
      exact absurd (Prod.mk.inj h).1.symm hrest
    obtain ⟨entered, s1, henter, hkept⟩ := hspares.enter s (isCell_cellOf htag x xs).tagged
    rw [walk_chain htag henter hkept] at h
    rcases helement : (walkWithin hooks fuel x).outcome s1 with ⟨e | left, s2⟩
    · rw [Walk.outcome_bind_of_error helement] at h
      obtain ⟨rfl, rfl⟩ := Prod.mk.inj h
      exact ⟨.error e, .stopped henter (comesTo_of_outcome helement hrest), rfl⟩
    rw [Walk.outcome_bind_of_ok helement] at h
    rcases hbehind : (walkRest hooks fuel (chainOf tag xs)).outcome s2 with ⟨behind, s3⟩
    -- the rest did not exhaust its budget, or the whole would have
    have hgoes : behind ≠ .error exhausted := by
      rintro rfl
      rw [Walk.outcome_bind_of_error hbehind] at h
      exact hrest (Prod.mk.inj h).1.symm
    obtain ⟨lefts, hpass, rfl⟩ := ih hbehind hgoes
    obtain ⟨lefts', s4, hpass', hleave⟩ :=
      Threads.exists_cons htag hspares henter (comesTo_of_outcome helement (by simp)) hpass
    obtain ⟨rfl, rfl⟩ := Prod.mk.inj (h.symm.trans (hleave hbehind))
    exact ⟨lefts', hpass', rfl⟩

/-- Over an element and the rest of a chain, every budget that goes deep enough for both goes deep enough. -/
theorem exists_walk_chain (htag : tag.element? = some element) {x : Node} {xs : List Node} {entered : Verdict}
    {s s1 s2 s3 : σ} {left : Option Node} {rest : Except Error (Option Node)}
    (henter : (hooks.enter (cellOf tag element x xs)).outcome s = (.ok entered, s1))
    (hkept : entered.apply (cellOf tag element x xs) = some (cellOf tag element x xs))
    (helement : ComesTo hooks x s1 (.ok left) s2)
    (hrest : ∃ depth, ∀ fuel, depth ≤ fuel → (walkRest hooks fuel (chainOf tag xs)).outcome s2 = (rest, s3)) :
    ∃ depth, ∀ fuel, depth ≤ fuel → ∃ behind : Walk σ (Option Node), behind.outcome s2 = (rest, s3) ∧
      (walkRest hooks fuel (chainOf tag (x :: xs))).outcome s =
        (behind >>= leaveCell hooks (cellOf tag element x xs) element left).outcome s2 := by
  obtain ⟨depth, helement⟩ := helement
  obtain ⟨depth', hrest⟩ := hrest
  refine ⟨max depth depth' + 1, fun fuel hfuel => ?_⟩
  obtain ⟨fuel, rfl⟩ := Nat.exists_eq_add_of_le' (Nat.le_trans (Nat.le_add_left 1 _) hfuel)
  obtain ⟨hfuel, hfuel'⟩ := Nat.max_le.mp (Nat.le_of_succ_le_succ hfuel)
  refine ⟨walkRest hooks fuel (chainOf tag xs), hrest fuel hfuel', ?_⟩
  rw [walk_chain htag henter hkept, Walk.outcome_bind_of_ok (helement fuel hfuel)]

/-- A pass over elements is what a walk over their chain comes to, if its budget goes deep enough. -/
theorem walk_of_threads (htag : tag.element? = some element) (hspares : hooks.Spares tag) {xs : List Node}
    {s s' : σ} {lefts : Except Error (List (Option Node))} (h : Threads hooks tag element xs s lefts s') :
    ∃ depth, ∀ fuel, depth ≤ fuel →
      (walkRest hooks fuel (chainOf tag xs)).outcome s = (leftOf tag element xs <$> lefts, s') := by
  -- hooks that spare the cells leave every cell as it is
  have hkept : ∀ {x : Node} {xs : List Node} {entered : Verdict} {s s1 : σ},
      (hooks.enter (cellOf tag element x xs)).outcome s = (.ok entered, s1) →
      entered.apply (cellOf tag element x xs) = some (cellOf tag element x xs) := by
    intro x xs entered s s1 henter
    obtain ⟨answer, s2, hanswer, hkept⟩ := hspares.enter s (isCell_cellOf htag x xs).tagged
    obtain rfl := Except.ok.inj (Prod.mk.inj (henter.symm.trans hanswer)).1
    exact hkept
  induction h with
  | done =>
    refine ⟨0, fun fuel _ => ?_⟩
    rw [chainOf, Node.sequence_nil htag, walkRest, Walk.outcome_pure]
    rfl
  | stopped henter helement =>
    obtain ⟨depth, helement⟩ := helement
    refine ⟨depth + 1, fun fuel hfuel => ?_⟩
    obtain ⟨fuel, rfl⟩ := Nat.exists_eq_add_of_le' (Nat.le_trans (Nat.le_add_left 1 depth) hfuel)
    rw [walk_chain htag henter (hkept henter)]
    exact Walk.outcome_bind_of_error (helement fuel (Nat.le_of_succ_le_succ hfuel))
  | stoppedBehind henter helement _ ih =>
    obtain ⟨depth, hdepth⟩ := exists_walk_chain htag henter (hkept henter) helement ih
    refine ⟨depth, fun fuel hfuel => ?_⟩
    obtain ⟨behind, hbehind, hwalk⟩ := hdepth fuel hfuel
    rw [hwalk]
    exact Walk.outcome_bind_of_error hbehind
  | removed henter helement _ ih =>
    obtain ⟨depth, hdepth⟩ := exists_walk_chain htag henter (hkept henter) helement ih
    refine ⟨depth, fun fuel hfuel => ?_⟩
    obtain ⟨behind, hbehind, hwalk⟩ := hdepth fuel hfuel
    rw [hwalk]
    exact Walk.outcome_bind_of_ok hbehind
  | @left x y xs entered answer lefts s s1 s2 s3 s' henter helement _ hexit ih =>
    obtain ⟨depth, hdepth⟩ := exists_walk_chain htag henter (hkept henter) helement ih
    refine ⟨depth, fun fuel hfuel => ?_⟩
    obtain ⟨behind, hbehind, hwalk⟩ := hdepth fuel hfuel
    obtain ⟨answer', s4, hanswer, hleft⟩ := hspares.exit
      (n := (cellOf tag element x xs).refill element (some y) (leftOf tag element xs lefts)) s3
      (isCell_cellOf htag x xs).tagged
    obtain ⟨hsame, rfl⟩ := Prod.mk.inj (hexit.symm.trans hanswer)
    obtain rfl := Except.ok.inj hsame
    rw [hwalk, Walk.outcome_bind_of_ok hbehind, leaveCell, settle, Walk.outcome_map, hexit]
    exact Prod.ext (congrArg Except.ok hleft) rfl

end Threads

/-- **Sequences are mapped and filtered.**  The elements of a new chain are those that it is made of, and
those of its rest.  If the hooks do nothing to cells, then a walk over the chain of some elements (as
`Node.transform` is one, with a budget for its depth) that is not stopped by its budget is a pass over the
elements from the first to the last, which hands on the state and ends with the error of the first element
that has one; and every pass is what a walk comes to.  What is left of the chain has what is left of the
elements, in their order and without those that were removed, and nothing is left of it exactly if all of
them were. -/
theorem transform_sequence (htag : tag.element? = some element) {hooks : Hooks σ} (hspares : hooks.Spares tag)
    {xs : List Node} (hxs : xs ≠ []) :
    (∀ (ys : List Node) {rest : Option Node}, (∀ n ∈ rest, n.tag = tag) →
      elementsIn (Node.sequence tag ys rest) = ys ++ elementsIn rest) ∧
    ∃ chain, Node.sequence tag xs none = some chain ∧
      (∀ {fuel : Nat} {s s' : σ} {left : Except Error (Option Node)},
        (walkWithin hooks fuel chain).outcome s = (left, s') → left ≠ .error exhausted →
        ∃ lefts, Threads hooks tag element xs s lefts s' ∧ left = leftOf tag element xs <$> lefts) ∧
      (∀ {s s' : σ} {lefts : Except Error (List (Option Node))}, Threads hooks tag element xs s lefts s' →
        ComesTo hooks chain s (leftOf tag element xs <$> lefts) s') ∧
      ∀ {s s' : σ} {lefts : List (Option Node)}, Threads hooks tag element xs s (.ok lefts) s' →
        elementsIn (leftOf tag element xs lefts) = lefts.filterMap id ∧
        (leftOf tag element xs lefts = none ↔ ∀ left ∈ lefts, left = none) := by
  refine ⟨fun ys _ hrest => (Node.elements_sequence htag hrest ys).1, ?_⟩
  obtain ⟨x, xs, rfl⟩ := List.exists_cons_of_ne_nil hxs
  refine ⟨cellOf tag element x xs, chainOf_cons htag x xs, fun h hleft => ?_, fun h => ?_, fun h => ?_⟩
  · rw [← walkRest, ← chainOf_cons htag] at h
    exact threads_of_walk htag hspares h hleft
  · obtain ⟨depth, hdepth⟩ := walk_of_threads htag hspares h
    rw [chainOf_cons htag] at hdepth
    exact ⟨depth, hdepth⟩
  · obtain ⟨helements, hgone, -⟩ := leftOf_spec htag (h.length_eq _ rfl)
    exact ⟨helements, hgone⟩

theorem transform_sequence_droppingOdd : Tag.stmts.element? = some "stmt" ∧ droppingOdd.Spares .stmts ∧
    ∃ lefts, Threads droppingOdd .stmts "stmt" [numberNode 1, .build .ident .nowhere [], numberNode 4] 0
      (.ok lefts) 4 ∧ lefts.filterMap id = [numberNode 4] := by
  have hspares : droppingOdd.Spares .stmts := by
    constructor
    · intro n s hn
      exact ⟨.keep, s, by simp only [droppingOdd, hn]; rfl, rfl⟩
    · intro n s hn
      refine ⟨.keep, s + 1, ?_, rfl⟩
      have hanswer : (if n.tag == .number && (n.int? "value").any (· % 2 = 1) then Verdict.remove else .keep) =
        .keep := by rw [hn]; rfl
      exact Prod.ext (congrArg Except.ok hanswer) rfl
  have helement : Tag.stmts.element? = some "stmt" := rfl
  have hxs : [numberNode 1, .build .ident .nowhere [], numberNode 4] ≠ [] := by simp
  obtain ⟨-, chain, hchain, hthreads, -, hlefts⟩ := transform_sequence helement hspares hxs
  have hwalk : (walkWithin droppingOdd 9 chain).outcome 0 =
      (.ok (Node.sequence .stmts [numberNode 4] none), 4) := by
    obtain rfl := Option.some.inj hchain
    rfl
  obtain ⟨lefts, hpass, hleft⟩ := hthreads hwalk (by simp)
  cases lefts with
  | error e => cases hleft
  | ok lefts =>
    refine ⟨helement, hspares, lefts, hpass, ?_⟩
    rw [← (hlefts hpass).1, ← Except.ok.inj hleft]
    rfl

end Lode
