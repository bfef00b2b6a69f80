/-
# Passes over programs

How a visitor becomes a pass: the tree of a program goes in, and the tree of the visited program comes out
(`runPass_of_visits`).  A pass starts its walk with a budget that is computed from the size of the tree,
refuses a tree whose root was removed, and answers with a verdict on the root instead of a tree; section 1
deals with all three, once for passes that are hooks and once for passes that are rules.

Many walks keep the names and constants of the scopes they are in.  `Visitor.scoped` puts frames around a
visitor in the way `Scoped.hooks` puts them around hooks.  The frames of such a visitor are those of
programs: what they hold is a binding, a unit or a constant, and nothing else.

A frame is opened with what the node has, and written back when the node is left, so the hook that leaves
the node sees a node whose tables may be older than the frame (`mirrors_exit_open`).  Scopes, functions and
units all do this; what they have in common is that a node carries the tables of a frame as attributes
(`Carries`).  A table without entries is not written, so a frame that became empty would leave the old
table; this is why writing back is a function of both frames (`Frame.above`).

For visitors that only read the state, frames change nothing else (`Visitor.scoped_steady`), and what is
known of the items a pass with frames leaves is what is known of the visitor inside
(`Visitor.scoped_related`).
-/
import Lode.Compiler
import Lode.Proofs.Program.Alike
import Lode.Proofs.Sorted

namespace Lode

open Walk (Mirrors)

variable {σ τ : Type}

/-! ## 1. Whole passes -/

/-- A walk that leaves a tree does not remove the root. -/
theorem root_left {raw : τ → σ} {hooks : Hooks σ} (start : τ) {tree : Node} {α : Type} {node : α → Node}
    {w : Walk τ α} (h : Mirrors raw (walkWithin hooks tree.walkBudget tree)
      ((fun a => some (node a)) <$> w)) :
    (∃ e, (Walk.outcome (tree.transform hooks) (raw start)).1 = .error e ∧
      (w.outcome start).1 = .error e) ∨
    ∃ verdict a, (Walk.outcome (tree.transform hooks) (raw start)).1 = .ok verdict ∧
      (w.outcome start).1 = .ok a ∧ verdict ≠ .remove ∧
      (verdict.apply tree).getD tree = node a := by
  have houtcome := congrArg Prod.fst (h start)
  simp only [walkWithin, settle, Walk.outcome_map] at houtcome
  change _ <$> (Walk.outcome (tree.transform hooks) (raw start)).1 = _ at houtcome
  generalize (Walk.outcome (tree.transform hooks) (raw start)).1 = x at houtcome
  generalize (w.outcome start).1 = y at houtcome
  cases x with
  | error e =>
    cases y with
    | error e' => exact .inl ⟨e, rfl, by simpa [Functor.map, Except.map] using houtcome.symm⟩
    | ok p => simp [Functor.map, Except.map] at houtcome
  | ok verdict =>
    cases y with
    | error e' => simp [Functor.map, Except.map] at houtcome
    | ok a =>
      have hleft : verdict.apply tree = some (node a) := by
        simpa [Functor.map, Except.map] using houtcome
      refine .inr ⟨verdict, a, rfl, rfl, ?_, by simp [hleft]⟩
      rintro rfl
      simp [Verdict.apply] at hleft

/-- What is left of the root after a walk. -/
theorem walk_apply {name : String} {raw : τ → σ} {hooks : Hooks σ} {start : τ} {tree : Node}
    {w : Walk τ Program}
    (h : Mirrors raw (walkWithin hooks tree.walkBudget tree) ((fun p => some p.node) <$> w)) :
    (fun verdict => (verdict.apply tree).getD tree) <$> Pass.walk name hooks (raw start) tree =
      Program.node <$> (w.outcome start).1 := by
  simp only [Pass.walk]
  change _ <$> ((Walk.outcome (tree.transform hooks) (raw start)).1 >>= _) = _
  rcases root_left start h with ⟨e, hx, hy⟩ | ⟨verdict, p, hx, hy, hne, hleft⟩
  · rw [hx, hy]
    rfl
  · rw [hx, hy]
    cases verdict with
    | remove => exact absurd rfl hne
    | keep => exact congrArg Except.ok hleft
    | replace m => exact congrArg Except.ok hleft

/-- A pattern for a node with its own tag matches the attributes. -/
theorem Pattern.match?_tagged {tag : Tag} {n : Node} (htag : n.tag = tag)
    (attributes : List (String × Pattern)) (b : Bindings) :
    (Pattern.tagged tag attributes).match? (.node n) b =
      (FieldPatterns.ofList attributes).match? n b := by
  rw [Pattern.tagged, Pattern.match?, if_neg (by simp [htag])]
  cases (FieldPatterns.ofList attributes).match? n b with
  | error e => rfl
  | ok left => cases left <;> rfl

/-- The attributes are matched one after the other. -/
theorem FieldPatterns.match?_cons {name : String} {p : Pattern} {n : Node} {v : Value} {b : Bindings}
    {left : Option Bindings} (hget : n.get? name = some v) (hmatch : p.match? v b = .ok left)
    (others : FieldPatterns) :
    (FieldPatterns.cons name p others).match? n b = left.elim (.ok none) (others.match? n) := by
  simp only [FieldPatterns.match?, hget, hmatch, ok_bind]
  cases left <;> rfl

/-- A rule that does not match is passed over. -/
theorem RuleSet.applyRules_cons {rule : TreeRule} {n : Node} {left : Option Bindings}
    (hmatch : rule.pattern.match? (.node n) [] = .ok left) (rules : List TreeRule) :
    RuleSet.applyRules (rule :: rules) n =
      left.elim (RuleSet.applyRules rules n) (rule.template · n) := by
  simp only [RuleSet.applyRules, hmatch, ok_bind]
  cases left <;> rfl

/-- What is left of the root after rules were applied. -/
theorem rules_apply {rules : RuleSet} {tree : Node} {α : Type} {node : α → Node} {w : Walk Unit α}
    (h : Mirrors id (walkWithin rules.hooks tree.walkBudget tree) ((fun a => some (node a)) <$> w)) :
    (fun verdict => (verdict.apply tree).getD tree) <$> rules.run tree = node <$> (w.outcome ()).1 := by
  simp only [RuleSet.run]
  change _ <$> ((Walk.outcome (tree.transform rules.hooks) ()).1 >>= _) = _
  rcases root_left () h with ⟨e, hx, hy⟩ | ⟨verdict, p, hx, hy, hne, hleft⟩
  · rw [hy]
    simp only [id] at hx
    rw [hx]
    rfl
  · rw [hy]
    simp only [id] at hx
    rw [hx]
    cases verdict with
    | remove => exact absurd rfl hne
    | keep => exact congrArg Except.ok hleft
    | replace m => exact congrArg Except.ok hleft

/-- What is left of the root by a walk is left by the rules. -/
theorem run_of_walk {rules : RuleSet} {tree left : Node}
    (h : (walkWithin rules.hooks tree.walkBudget tree).outcome () = (.ok (some left), ())) :
    ∃ verdict, rules.run tree = .ok verdict ∧ verdict.apply tree = some left := by
  rw [walkWithin, settle, Walk.outcome_map] at h
  obtain ⟨verdict, hverdict, hleft⟩ := map_eq_ok.mp (Prod.mk.inj h).1
  refine ⟨verdict, ?_, hleft⟩
  have hrun : ((tree.transform rules.hooks).run.run ()).1 = .ok verdict := hverdict
  rw [RuleSet.run, hrun]
  cases verdict with
  | remove => cases hleft
  | _ => rfl

open Program in
/-- A walk over a unit has budget enough if entering the unit does not make it larger. -/
theorem walk_budget {raw : τ → σ} {hooks : Hooks σ} {v : Visitor τ} (h : Visits raw hooks v)
    (p : Program)
    (hsize : ∀ t p' t', (v.enterUnit p).outcome t = (.ok p', t') → p'.node.size ≤ p.node.size) :
    Mirrors raw (walkWithin hooks p.node.walkBudget p.node)
      ((fun p' => some p'.node) <$> p.mapUp v) := by
  have hbudget : p.node.walkBudget = (2 * p.node.size + 63) + 1 := rfl
  rw [hbudget]
  refine h.walk_program p fun t p' t' hrun => ?_
  have := hsize t p' t' hrun
  omega

open Program in
/-- **A visitor as a pass.** -/
theorem runPass_of_visits {pass : Pass} {unit name : String} {raw : τ → σ} {hooks : Hooks σ}
    {start : τ} {v : Visitor τ} (hrun : ∀ tree, pass.run unit tree = Pass.walk name hooks (raw start) tree)
    (h : Visits raw hooks v) (p : Program)
    (hsize : ∀ t p' t', (v.enterUnit p).outcome t = (.ok p', t') → p'.node.size ≤ p.node.size) :
    Compiler.runPass unit p.node pass = Program.node <$> ((p.mapUp v).outcome start).1 := by
  rw [← walk_apply (walk_budget h p hsize), ← hrun]
  rfl

open Program in
theorem size_of_enterUnit_pure {v : Visitor τ} (h : v.enterUnit = pure) (p : Program) :
    ∀ t p' t', (v.enterUnit p).outcome t = (.ok p', t') → p'.node.size ≤ p.node.size := by
  intro t p' t' hrun
  rw [h, Walk.outcome_pure, Prod.mk.injEq, Except.ok.injEq] at hrun
  rw [hrun.1]

/-- A visitor as a pass of rules. -/
theorem runPass_of_rules {pass : Pass} {unit : String} {rules : RuleSet} {v : Program.Visitor Unit}
    (hrun : ∀ tree, pass.run unit tree = rules.run tree) (h : Program.Visits id rules.hooks v)
    (henter : v.enterUnit = pure) (p : Program) :
    Compiler.runPass unit p.node pass = Program.node <$> ((p.mapUp v).outcome ()).1 := by
  rw [← rules_apply (walk_budget h p (size_of_enterUnit_pure henter p)), ← hrun]
  rfl

/-- A pass that succeeds is a walk that succeeds. -/
theorem walkWithin_of_runPass {pass : Pass} {unit name : String} (hooks : Hooks σ) {start : σ}
    {tree tree' : Node} (hrun : pass.run unit tree = Pass.walk name hooks start tree)
    (h : Compiler.runPass unit tree pass = .ok tree') : ∃ left s,
      (walkWithin hooks tree.walkBudget tree).outcome start = (.ok left, s) ∧
        tree' = left.getD tree := by
  rw [Compiler.runPass, hrun] at h
  obtain ⟨verdict, hwalk, h⟩ := bind_eq_ok.mp h
  obtain rfl := Except.ok.inj h
  obtain ⟨verdict', hverdict, hkeep⟩ := bind_eq_ok.mp hwalk
  refine ⟨verdict.apply tree, (Walk.outcome (tree.transform hooks) start).2, ?_, rfl⟩
  obtain rfl : verdict' = verdict := by
    cases verdict' with
    | remove => cases hkeep
    | _ => exact Except.ok.inj hkeep
  rw [walkWithin, settle, Walk.outcome_map]
  have hresult : ((transformWithin hooks tree.walkBudget tree).outcome start).1 = .ok verdict' := hverdict
  rw [hresult]
  rfl

/-! ## 2. Frames -/

namespace ScopeFrame

/-- A frame written over another one: a table without entries is not written. -/
def above (new old : ScopeFrame) : ScopeFrame :=
  ⟨if new.names.isEmpty then old.names else new.names,
    if new.constants.isEmpty then old.constants else new.constants⟩

theorem writeTable_ne_remove (name : String) (table : Fields) (n : Node) :
    writeTable name table n ≠ .remove := by
  unfold writeTable
  split <;> exact Verdict.noConfusion

theorem writeBack_ne_remove (frame : ScopeFrame) (n : Node) : frame.writeBack n ≠ .remove := by
  unfold writeBack
  split
  · split
    · exact Verdict.noConfusion
    · exact writeTable_ne_remove _ _ _
  · exact writeTable_ne_remove _ _ _

/-- What is left of a node when a table is written to it. -/
def written (name : String) (table : Fields) (n : Node) : Node :=
  ((writeTable name table n).apply n).getD n

/-- Writing a frame back writes its two tables. -/
theorem writeBack_apply (frame : ScopeFrame) (n : Node) :
    ((frame.writeBack n).apply n).getD n =
      written "constants" frame.constants (written "names" frame.names n) := by
  unfold writeBack written
  cases hnames : writeTable "names" frame.names n with
  | remove => exact absurd hnames (writeTable_ne_remove _ _ _)
  | keep => simp
  | replace m =>
    simp only [Verdict.apply_replace, Option.getD_some]
    cases hconstants : writeTable "constants" frame.constants m with
    | remove => exact absurd hconstants (writeTable_ne_remove _ _ _)
    | keep => simp
    | replace _ => simp

/-- Writing a table to a node that can take it. -/
theorem written_eq {name : String} (table : Fields) {old : Fields} {n : Node} (make : Fields → Node)
    (hmake : make old = n) (hold : n.table? name = if old.isEmpty then none else some old)
    (hset : ∀ t : Fields, t.isEmpty = false → n.set name (.table t) = make t) :
    written name table n = make (if table.isEmpty then old else table) := by
  unfold written writeTable
  cases hempty : table.isEmpty with
  | true => simp [hmake]
  | false =>
    by_cases heq : n.table? name = some table
    · have : old = table := by
        rw [hold] at heq
        cases hold' : old.isEmpty <;> simp_all
      simp [heq, ← this, hmake]
    · simp [heq, hset table hempty]

end ScopeFrame

namespace Program

section Row

variable {α : Type} (value : α → Value)

theorem get?_row (key : String) : ∀ entries : List (String × α),
    (row value entries).get? key = (Sorted.find? key entries).map value
  | [] => rfl
  | (name, a) :: rest => by
    rw [row, Fields.get?, Sorted.find?, get?_row key rest]
    by_cases h : key = name <;> simp [h]

/-- Setting an entry sets it in the table. -/
theorem row_set (key : String) (a : α) : ∀ entries : List (String × α),
    row value (Sorted.set key a entries) = (row value entries).set key (value a)
  | [] => rfl
  | (name, b) :: rest => by
    have ih := row_set key a rest
    simp only [Sorted.set, Sorted.alter, row, Fields.set] at ih ⊢
    cases compare key name <;> simp [row, ih]

theorem isEmpty_row : ∀ entries : List (String × α), (row value entries).isEmpty = entries.isEmpty
  | [] => rfl
  | _ :: _ => rfl

end Row

namespace Frame

/-- A frame written over another one: a table without entries is not written. -/
def above (new old : Frame) : Frame :=
  ⟨if new.names.isEmpty then old.names else new.names,
    if new.constants.isEmpty then old.constants else new.constants⟩

theorem above_self (frame : Frame) : frame.above frame = frame := by
  simp [above]

theorem mem_above {new old : Frame} {entry : String × Named} (h : entry ∈ (new.above old).names) :
    entry ∈ new.names ∨ entry ∈ old.names := by
  unfold above at h
  cases hempty : new.names.isEmpty with
  | true => exact .inr (by simpa [hempty] using h)
  | false => exact .inl (by simpa [hempty] using h)

theorem raw_above (new old : Frame) : (new.above old).raw = new.raw.above old.raw := by
  simp only [above, raw, ScopeFrame.above, isEmpty_row]
  cases new.names.isEmpty <;> cases new.constants.isEmpty <;> rfl

end Frame

/-- The unit that a name stands for. -/
def Named.unit? : Named → Option IntrinsicUnit
  | unit u => some u
  | binding _ => none

/-- The binding that a name stands for. -/
def Named.binding? : Named → Option Binding
  | unit _ => none
  | binding b => some b

/-- Open frames, the innermost first. -/
abbrev Frames := List Frame

namespace Frames

/-- The frames of the walk. -/
def raw (frames : Frames) : Scopes := frames.map Frame.raw

/-- What a name stands for in the innermost frame that has it. -/
def lookup? (frames : Frames) (name : String) : Option Named :=
  frames.findSome? fun frame => Sorted.find? name frame.names

/-- The value of a constant in the innermost frame that has it. -/
def constant? (frames : Frames) (name : String) : Option Constant :=
  frames.findSome? fun frame => Sorted.find? name frame.constants

/-- Binds a name in the innermost frame, unless the frame has the name already. -/
def bind? (frames : Frames) (name : String) (value : Named) : Option Frames :=
  match frames with
  | frame :: outer =>
    if (Sorted.find? name frame.names).isSome then none
    else some ({ frame with names := Sorted.set name value frame.names } :: outer)
  | [] => none

/-- Defines a constant in the innermost frame. -/
def define (frames : Frames) (name : String) (value : Constant) : Frames :=
  match frames with
  | frame :: outer => { frame with constants := Sorted.set name value frame.constants } :: outer
  | [] => []

variable (frames : Frames) (name : String)

/-- A name is looked up in the frames of the walk as in those of the visitor. -/
theorem lookup_raw : Scopes.lookup frames.raw name = (frames.lookup? name).map Named.value := by
  induction frames with
  | nil => rfl
  | cons frame outer ih =>
    simp only [Scopes.lookup, raw, lookup?, List.map_cons, List.findSome?_cons] at ih ⊢
    rw [show frame.raw.names = row Named.value frame.names from rfl, get?_row, ih]
    cases Sorted.find? name frame.names <;> rfl

theorem unit_raw : (Scopes.lookup frames.raw name).bind Value.unit? =
    (frames.lookup? name).bind Named.unit? := by
  rw [lookup_raw]
  cases frames.lookup? name with
  | none => rfl
  | some named => cases named <;> rfl

theorem binding_raw : Scopes.binding frames.raw name =
    ((frames.lookup? name).bind Named.binding?).map Binding.node := by
  rw [Scopes.binding, lookup_raw]
  cases frames.lookup? name with
  | none => rfl
  | some named => cases named <;> rfl

theorem constant_raw : Scopes.constant frames.raw name = (frames.constant? name).map Constant.node := by
  induction frames with
  | nil => rfl
  | cons frame outer ih =>
    simp only [Scopes.constant, raw, constant?, List.map_cons, List.findSome?_cons] at ih ⊢
    rw [show frame.raw.constants = row (fun c => .node c.node) frame.constants from rfl, get?_row]
    cases Sorted.find? name frame.constants with
    | none => exact ih
    | some c => rfl

/-- A name is bound in the frames of the walk as in those of the visitor. -/
theorem bind?_raw (value : Named) : Scopes.bind? frames.raw name value.value =
    (frames.bind? name value).map raw := by
  cases frames with
  | nil => rfl
  | cons frame outer =>
    have hhas : frame.raw.names.has name = (Sorted.find? name frame.names).isSome := by
      rw [Fields.has, show frame.raw.names = row Named.value frame.names from rfl, get?_row,
        Option.isSome_map]
    simp only [Scopes.bind?, raw, bind?, List.map_cons, hhas]
    cases (Sorted.find? name frame.names).isSome with
    | true => rfl
    | false => simp [Frame.raw, row_set, raw]

/-- A constant is defined in the frames of the walk as in those of the visitor. -/
theorem define_raw (value : Constant) :
    Scopes.define frames.raw name value.node = (frames.define name value).raw := by
  cases frames with
  | nil => rfl
  | cons frame outer => simp [Scopes.define, raw, define, Frame.raw, row_set]

end Frames

/-- The state of a visitor with frames, the innermost first. -/
structure Nested (σ : Type) where
  frames : Frames
  own : σ

namespace Nested

/-- The state of the walk. -/
def raw (s : Nested σ) : Scoped σ := ⟨s.frames.raw, s.own⟩

/-- A state with a frame on top of the others. -/
def pushed (frame : Frame) (s : Nested σ) : Nested σ := { s with frames := frame :: s.frames }

/-- Opens a frame. -/
def open_ (frame : Frame) : Walk (Nested σ) Unit := modify (pushed frame)

/-- Closes the innermost frame. -/
def close : Walk (Nested σ) Frame :=
  modifyGet fun s =>
    match s.frames with
    | frame :: outer => (frame, { s with frames := outer })
    | [] => ({}, s)

@[simp] theorem outcome_open (frame : Frame) (s : Nested σ) :
    (open_ frame).outcome s = (.ok (), pushed frame s) := rfl

@[simp] theorem outcome_close_pushed (frame : Frame) (s : Nested σ) :
    (close).outcome (pushed frame s) = (.ok frame, s) := rfl

theorem mirrors_close : Mirrors raw (Scoped.pop (σ := σ)) (Frame.raw <$> close) := by
  rintro ⟨frames, own⟩
  cases frames <;> rfl

end Nested

end Program

namespace Scoped

open Program

theorem enter_keep {hook : Node → Walk (Scoped σ) Verdict} {n : Node}
    (htag : Scopes.opens n.tag = false) (h : hook n = pure .keep) : enter hook n = pure .keep := by
  simp [enter, htag, h, Verdict.apply]

/-- Entering a node that opens a frame and is entered as another one that does. -/
theorem settle_enter_open {hook : Node → Walk (Scoped σ) Verdict} {n : Node} {α : Type}
    {entered : α → Node} {frame : Frame} {w : Walk (Nested σ) α}
    (htag : Scopes.opens n.tag = true) (hframe : ScopeFrame.ofNode n = frame.raw)
    (hhook : Mirrors Nested.raw (settle hook n) ((fun a => some (entered a)) <$> w))
    (hentered : ∀ a, Scopes.opens (entered a).tag = true) :
    Mirrors Nested.raw (settle (enter hook) n)
      ((fun a => some (entered a)) <$> (do Nested.open_ frame; w)) := by
  -- the frame is opened before the hook, and closed if what is left has none
  have henter : settle (enter hook) n = push n >>= fun _ => hook n >>= fun verdict =>
      (verdict.apply n).elim ((fun _ => ()) <$> pop)
        (fun m => if Scopes.opens m.tag then pure () else (fun _ => ()) <$> pop) >>=
          fun _ => pure (verdict.apply n) := by
    simp only [settle, enter, htag, if_true, map_bind]
    refine bind_congr fun _ => bind_congr fun verdict => ?_
    cases hleft : verdict.apply n with
    | none => simp [hleft]
    | some m => cases hopens : Scopes.opens m.tag <;> simp [hleft, hopens]
  rw [henter, map_bind]
  refine Mirrors.bind (fun t => ?_) fun _ t => ?_
  · simp only [push, Walk.outcome_modify, hframe]
    rfl
  · have hsettle := hhook t
    simp only [settle, Walk.outcome_map] at hsettle ⊢
    cases hw : w.outcome t with
    | mk x t1 =>
      rw [hw] at hsettle
      cases hv : Walk.outcome (hook n) t.raw with
      | mk y s1 =>
        rw [hv] at hsettle
        obtain ⟨hresult, rfl⟩ := Prod.mk.inj hsettle
        cases y with
        | error e =>
          rw [Walk.outcome_bind_of_error hv]
          cases x with
          | error e' => simpa [Functor.map, Except.map] using hresult
          | ok a => simp [Functor.map, Except.map] at hresult
        | ok verdict =>
          cases x with
          | error e' => simp [Functor.map, Except.map] at hresult
          | ok a =>
            have hverdict : verdict.apply n = some (entered a) := by
              simpa [Functor.map, Except.map] using hresult
            rw [Walk.outcome_bind_of_ok hv, hverdict]
            simp only [Option.elim_some, hentered a, if_true, pure_bind, Walk.outcome_pure]
            rfl

theorem exit_closed {n : Node} (htag : Scopes.opens n.tag = false)
    (hook : Node → Walk (Scoped σ) Verdict) : exit hook n = hook n := by
  simp [exit, htag]

/-- Leaving a node that opens a frame. -/
theorem settle_exit_open {hook : Node → Walk (Scoped σ) Verdict} {n : Node}
    (htag : Scopes.opens n.tag = true) :
    settle (exit hook) n = (do
      let left ← settle hook n
      let frame ← pop
      return left.map fun m => ((frame.writeBack m).apply m).getD m) := by
  simp only [settle, exit, htag, Bool.not_true, Bool.false_eq_true, if_false, map_eq_pure_bind,
    bind_assoc, pure_bind]
  refine bind_congr fun verdict => bind_congr fun frame => ?_
  cases hleft : verdict.apply n with
  | none => simp
  | some m =>
    cases hwrite : frame.writeBack m with
    | remove => exact absurd hwrite (ScopeFrame.writeBack_ne_remove frame m)
    | keep => simp [hleft, hwrite]
    | replace m' => simp [hwrite]

/-- Leaving a node that opens a frame, which is written back to what is left of the node. -/
theorem mirrors_exit_open {hook : Node → Walk (Scoped σ) Verdict} {n : Node} {α : Type}
    (node : α → Node) (written : Frame → α → α) {w : Walk (Nested σ) α}
    (htag : Scopes.opens n.tag = true)
    (hhook : Mirrors Nested.raw (settle hook n) ((fun a => some (node a)) <$> w))
    (hwritten : ∀ (frame : Frame) (a : α),
      ((frame.raw.writeBack (node a)).apply (node a)).getD (node a) = node (written frame a)) :
    Mirrors Nested.raw (settle (exit hook) n) ((fun a => some (node a)) <$> (do
      let a ← w
      let frame ← Nested.close
      return written frame a)) := by
  rw [settle_exit_open htag, map_bind]
  refine hhook.bind_map fun a => ?_
  rw [map_bind]
  refine Nested.mirrors_close.bind_map fun frame => ?_
  simp only [Option.map_some, hwritten, map_pure]
  exact .pure _

end Scoped

/-! ## 3. Nodes with frames -/

namespace Program

theorem table?_tableValue (table : Fields) :
    ((tableValue table).bind Value.table?) = if table.isEmpty then none else some table := by
  cases h : table.isEmpty <;> simp [tableValue, h, Value.table?]

theorem getD_table (table : Fields) :
    (if table.isEmpty then none else some table).getD .nil = table := by
  cases table <;> rfl

/-- Nodes that carry the tables of a frame as attributes. -/
structure Carries (make : ScopeFrame → Node) : Prop where
  names : ∀ frame, (make frame).get? "names" = tableValue frame.names
  constants : ∀ frame, (make frame).get? "constants" = tableValue frame.constants
  setNames : ∀ frame t, t.isEmpty = false →
    (make frame).set "names" (.table t) = make { frame with names := t }
  setConstants : ∀ frame t, t.isEmpty = false →
    (make frame).set "constants" (.table t) = make { frame with constants := t }

namespace Carries

variable {make : ScopeFrame → Node}

theorem table?_names (h : Carries make) (frame : ScopeFrame) :
    (make frame).table? "names" = if frame.names.isEmpty then none else some frame.names := by
  rw [Node.table?, h.names, table?_tableValue]

theorem table?_constants (h : Carries make) (frame : ScopeFrame) :
    (make frame).table? "constants" =
      if frame.constants.isEmpty then none else some frame.constants := by
  rw [Node.table?, h.constants, table?_tableValue]

theorem ofNode (h : Carries make) (frame : ScopeFrame) : ScopeFrame.ofNode (make frame) = frame := by
  rw [ScopeFrame.ofNode, h.table?_names, h.table?_constants, getD_table, getD_table]

/-- Writing a frame back to a node that carries one. -/
theorem writeBack (h : Carries make) (new old : ScopeFrame) :
    ((new.writeBack (make old)).apply (make old)).getD (make old) = make (new.above old) := by
  have hnames := ScopeFrame.written_eq new.names (fun t => make { old with names := t }) rfl
    (h.table?_names old) (h.setNames old)
  have hconstants := fun names => ScopeFrame.written_eq new.constants
    (fun t => make ⟨names, t⟩) rfl (h.table?_constants ⟨names, old.constants⟩)
    (h.setConstants ⟨names, old.constants⟩)
  rw [ScopeFrame.writeBack_apply, hnames]
  exact hconstants _

end Carries

/-- A scope with the tables of a frame. -/
def Stmt.scopeNode (decl : Stmt) (body : Stmts) (span : Span) (frame : ScopeFrame) : Node :=
  .mk .scope (.optional "body" (body.node?.map .node)
    (.optional "constants" (tableValue frame.constants) (.cons "decl" (.node decl.node)
      (.optional "names" (tableValue frame.names) .nil)))) span

theorem carries_scope (decl : Stmt) (body : Stmts) (span : Span) :
    Carries (Stmt.scopeNode decl body span) where
  names frame := by
    simp [Stmt.scopeNode, Node.get?, Node.fields, Fields.get?_optional, Fields.get?]
  constants frame := by
    simp [Stmt.scopeNode, Node.get?, Node.fields, Fields.get?_optional, Fields.get?]
  setNames frame t ht := by
    change Node.mk .scope (Fields.assign _ "names" (some (.table t))) span = _
    rw [Fields.assign_optional_of_gt rfl, Fields.assign_optional_of_gt rfl,
      Fields.assign_cons_of_gt rfl, Fields.assign_optional_self Fields.follows_nil]
    simp [Stmt.scopeNode, tableValue, ht]
  setConstants frame t ht := by
    change Node.mk .scope (Fields.assign _ "constants" (some (.table t))) span = _
    rw [Fields.assign_optional_of_gt rfl, Fields.assign_optional_self
      (Fields.follows_cons rfl (Fields.follows_optional rfl Fields.follows_nil))]
    simp [Stmt.scopeNode, tableValue, ht]

/-- A function with the tables of a frame. -/
def Function.nodeWith (f : Function) (frame : ScopeFrame) : Node :=
  .mk .function (.optional "body" (f.body.node?.map .node)
    (.optional "constants" (tableValue frame.constants)
      (.optional "locals" (f.locals.map fun locals => .table locals.raw)
        (.cons "name" (.str f.name)
          (.optional "names" (tableValue frame.names)
            (.optional "params" (f.params.node?.map .node)
              (.optional "ret" (f.result.map fun t => .node t.node)
                (.optional "symbol" (f.symbol.map .str)
                  (.optional "type" (f.type.map .type) .nil))))))))) f.span

theorem carries_function (f : Function) : Carries f.nodeWith where
  names frame := by
    simp [Function.nodeWith, Node.get?, Node.fields, Fields.get?_optional, Fields.get?]
  constants frame := by
    simp [Function.nodeWith, Node.get?, Node.fields, Fields.get?_optional, Fields.get?]
  setNames frame t ht := by
    change Node.mk .function (Fields.assign _ "names" (some (.table t))) f.span = _
    rw [Fields.assign_optional_of_gt rfl, Fields.assign_optional_of_gt rfl,
      Fields.assign_optional_of_gt rfl, Fields.assign_cons_of_gt rfl, Fields.assign_optional_self
        (Fields.follows_optional rfl (Fields.follows_optional rfl
          (Fields.follows_optional rfl (Fields.follows_optional rfl Fields.follows_nil))))]
    simp [Function.nodeWith, tableValue, ht]
  setConstants frame t ht := by
    change Node.mk .function (Fields.assign _ "constants" (some (.table t))) f.span = _
    rw [Fields.assign_optional_of_gt rfl, Fields.assign_optional_self
      (Fields.follows_optional rfl (Fields.follows_cons rfl (Fields.follows_optional rfl
        (Fields.follows_optional rfl (Fields.follows_optional rfl
          (Fields.follows_optional rfl (Fields.follows_optional rfl Fields.follows_nil)))))))]
    simp [Function.nodeWith, tableValue, ht]

/-- A unit with the tables of a frame. -/
def nodeWith (p : Program) (frame : ScopeFrame) : Node :=
  .mk .unit (.optional "body" ((Items.node? p.items).map .node)
    (.optional "constants" (tableValue frame.constants)
      (.optional "names" (tableValue frame.names) .nil))) p.span

theorem carries_unit (p : Program) : Carries p.nodeWith where
  names frame := by simp [nodeWith, Node.get?, Node.fields, Fields.get?_optional, Fields.get?]
  constants frame := by simp [nodeWith, Node.get?, Node.fields, Fields.get?_optional, Fields.get?]
  setNames frame t ht := by
    change Node.mk .unit (Fields.assign _ "names" (some (.table t))) p.span = _
    rw [Fields.assign_optional_of_gt rfl, Fields.assign_optional_of_gt rfl,
      Fields.assign_optional_self Fields.follows_nil]
    simp [nodeWith, tableValue, ht]
  setConstants frame t ht := by
    change Node.mk .unit (Fields.assign _ "constants" (some (.table t))) p.span = _
    rw [Fields.assign_optional_of_gt rfl, Fields.assign_optional_self
      (Fields.follows_optional rfl Fields.follows_nil)]
    simp [nodeWith, tableValue, ht]

/-! ## 4. Visitors with frames -/

/-- Frames around a visitor that leaves scopes alone and functions functions. -/
def Visitor.scoped (v : Visitor (Nested σ)) (exitFunction : Function → Walk (Nested σ) Function) :
    Visitor (Nested σ) where
  type := v.type
  expr := v.expr
  decl := v.decl
  stmt := v.stmt
  cell := v.cell
  item := v.item
  itemCell := v.itemCell
  enterScope d b frame span := do
    Nested.open_ frame
    v.enterScope d b frame span
  exitScope d b old span := do
    let frame ← Nested.close
    return .scope d b (frame.above old) span
  enterFunction f := do
    Nested.open_ f.frame
    v.enterFunction f
  exitFunction f := do
    let f ← exitFunction f
    let frame ← Nested.close
    return .function { f with frame := frame.above f.frame }
  enterUnit p := do
    Nested.open_ p.frame
    v.enterUnit p
  exitUnit p := do
    let p ← v.exitUnit p
    let frame ← Nested.close
    return { p with frame := frame.above p.frame }

theorem opens_expr (e : Expr) : Scopes.opens e.node.tag = false := by
  cases e with
  | cell place _ _ _ => cases place <;> rfl
  | _ => rfl

/-- Frames make no difference to expressions. -/
theorem Rewrites.scoped {hooks : Hooks (Scoped σ)} {f : Expr → Walk (Nested σ) Expr}
    (h : Rewrites Nested.raw hooks f) : Rewrites Nested.raw (Scoped.hooks hooks) f where
  enter e := Scoped.enter_keep (opens_expr e) (h.enter e)
  exit e := by
    have hexit := h.exit e
    rwa [settle, ← Scoped.exit_closed (opens_expr e) hooks.exit] at hexit
  binding b := ⟨Scoped.enter_keep rfl (h.binding b).1,
    (Scoped.exit_closed rfl _).trans (h.binding b).2⟩
  args arg next span := ⟨Scoped.enter_keep rfl (h.args arg next span).1,
    (Scoped.exit_closed rfl _).trans (h.args arg next span).2⟩

/-- A part opens a frame if the visitor enters it. -/
theorem opens_part (part : Part) : Scopes.opens part.node.tag = part.opens := by
  cases part with
  | type t => cases t <;> rfl
  | stmt s h =>
    cases s with
    | scope _ _ _ _ => simp [Stmt.isPlain] at h
    | expr e => exact opens_expr e
    | _ => rfl
  | _ => rfl

/-- Hooks with frames do what the visitor with frames does. -/
theorem VisitsParts.scoped {hooks : Hooks (Scoped σ)} {v : Visitor (Nested σ)}
    (h : VisitsParts Nested.raw hooks v) {exitFunction : Function → Walk (Nested σ) Function}
    (hscope : v.exitScope = fun d b frame span => pure (.scope d b frame span))
    (hfunction : ∀ f, v.exitFunction f = .function <$> exitFunction f) :
    VisitsParts Nested.raw (Scoped.hooks hooks) (v.scoped exitFunction) where
  pass part hpart := Scoped.enter_keep ((opens_part part).trans hpart) (h.pass part hpart)
  enterScope d b frame span := Scoped.settle_enter_open rfl
    ((carries_scope d b span).ofNode frame.raw) (h.enterScope d b frame span) fun _ => rfl
  enterFunction f := Scoped.settle_enter_open rfl ((carries_function f).ofNode f.frame.raw)
    (h.enterFunction f) fun _ => rfl
  enterUnit p := Scoped.settle_enter_open rfl ((carries_unit p).ofNode p.frame.raw) (h.enterUnit p)
    fun _ => rfl
  exit part := by
    have htag := opens_part part
    have hexit := h.exit part
    cases part with
    | scope d b old span =>
      simp only [Visitor.exit, hscope] at hexit
      have h := Scoped.mirrors_exit_open (fun old => (Stmt.scope d b old span).node)
        Frame.above (w := pure old) htag hexit fun new old => by
          have hback := (carries_scope d b span).writeBack new.raw old.raw
          rw [← Frame.raw_above] at hback
          exact hback
      simpa [Visitor.exit, Visitor.scoped, Scoped.hooks] using h
    | function f =>
      simp only [Visitor.exit, hfunction, Functor.map_map] at hexit
      have h := Scoped.mirrors_exit_open Function.node
        (fun new f => { f with frame := new.above f.frame }) htag hexit fun new f => by
          have hback := (carries_function f).writeBack new.raw f.frame.raw
          rw [← Frame.raw_above] at hback
          exact hback
      simpa [Visitor.exit, Visitor.scoped, Scoped.hooks, Item.node] using h
    | unit p =>
      have h := Scoped.mirrors_exit_open Program.node
        (fun new p => { p with frame := new.above p.frame }) htag hexit fun new p => by
          have hback := (carries_unit p).writeBack new.raw p.frame.raw
          rw [← Frame.raw_above] at hback
          exact hback
      simpa [Visitor.exit, Visitor.scoped, Scoped.hooks] using h
    | _ =>
      rw [settle, ← Scoped.exit_closed htag hooks.exit] at hexit
      exact hexit

/-- **A visitor with frames as a pass.** -/
theorem runPass_of_scoped {pass : Pass} {unit name : String} {hooks : Hooks (Scoped σ)} {own : σ}
    {v : Visitor (Nested σ)} {exitFunction : Function → Walk (Nested σ) Function}
    (hrun : ∀ tree, pass.run unit tree = Pass.walkScoped name hooks own tree)
    (h : Visits Nested.raw (Scoped.hooks hooks) (v.scoped exitFunction)) (hunit : v.enterUnit = pure)
    (p : Program) : Compiler.runPass unit p.node pass =
      Program.node <$> ((p.mapUp (v.scoped exitFunction)).outcome ⟨[], own⟩).1 := by
  have hwalk : ∀ tree, pass.run unit tree =
      Pass.walk name (Scoped.hooks hooks) (Nested.raw ⟨[], own⟩) tree := hrun
  refine runPass_of_visits hwalk h p fun t p' t' henter => ?_
  simp only [Visitor.scoped, hunit, Walk.outcome_bind, Nested.outcome_open, Walk.andThen_ok,
    Walk.outcome_pure, Prod.mk.injEq, Except.ok.injEq] at henter
  rw [henter.1]

/-! ## 5. Visitors with frames that only read -/

section Steady

variable {v : Visitor (Nested σ)} {exitFunction : Function → Walk (Nested σ) Function}
  {I : Nested σ → Prop} {Q : Frame → Prop}

/-- Frames around a visitor that only reads. -/
theorem Visitor.scoped_steady {expr : Nested σ → Expr → Except Error Expr}
    {decl : Nested σ → Let → Except Error Let} {stmt : Nested σ → Stmt → Except Error Stmt}
    (htype : ∀ (t : TypeExpr) (s : Nested σ), ((v.type t).outcome s).2 = s)
    (hexpr : v.expr = Expr.mapUp fun e => Walk.reading (expr · e))
    (hdecl : ∀ (d : Let) (s : Nested σ), (v.decl d).outcome s = (Stmt.decl <$> decl s d, s))
    (hstmt : ∀ (st : Stmt) (s : Nested σ), (v.stmt st).outcome s = (stmt s st, s))
    (hscope : v.enterScope = fun _ _ _ _ => pure ())
    (hcell : v.cell = fun st rest span => pure (.cons st rest span))
    (hitemCell : v.itemCell = fun i rest span => pure ((i, span) :: rest)) :
    Steady (v.scoped exitFunction) expr decl stmt Nested.pushed where
  type := htype
  expr := hexpr
  decl := hdecl
  stmt := hstmt
  enterScope d b frame span s := by
    simp [Visitor.scoped, hscope]
  exitScope d b frame span s := by
    simp only [Visitor.scoped, Walk.outcome_bind, Nested.outcome_close_pushed, Walk.andThen_ok,
      Walk.outcome_pure, Frame.above_self]
  cell := hcell
  itemCell := hitemCell

/-- Frames around functions that are left as they were entered. -/
theorem Visitor.scoped_keepsFunctions
    (hpush : ∀ {frame : Frame} {s : Nested σ}, Q frame → I s → I (Nested.pushed frame s))
    (henter : ∀ {f : Function} {s s1 : Nested σ}, I s →
      (v.enterFunction f).outcome s = (.ok (), s1) → I s1)
    (hexit : ∀ {f g g' : Function} {s s1 s2 : Nested σ},
      (v.enterFunction f).outcome s = (.ok (), s1) → (exitFunction g).outcome s1 = (.ok g', s2) →
      s2 = s ∧ g'.name = g.name ∧ g'.symbol = g.symbol ∧ g'.params = g.params ∧ g'.body = g.body ∧
        g'.locals = g.locals ∧ g'.frame = g.frame) :
    Steady.KeepsFunctions (v.scoped exitFunction) I Q where
  enter {f s s1} hQ hI hrun := by
    obtain ⟨_, _, hopen, hrun⟩ := Walk.outcome_bind_eq_ok.mp hrun
    obtain ⟨_, rfl⟩ := Prod.mk.inj hopen
    exact henter (hpush hQ hI) hrun
  exit {f g i s s1 s2} hrun hframe hleft := by
    obtain ⟨_, _, hopen, hrun⟩ := Walk.outcome_bind_eq_ok.mp hrun
    obtain ⟨_, rfl⟩ := Prod.mk.inj hopen
    obtain ⟨g', s3, hg', hrest⟩ := Walk.outcome_bind_eq_ok.mp hleft
    obtain ⟨rfl, hname, hsymbol, hparams, hbody, hlocals, hframe'⟩ := hexit hrun hg'
    simp only [Walk.outcome_bind, Nested.outcome_close_pushed, Walk.andThen_ok, Walk.outcome_pure,
      Prod.mk.injEq, Except.ok.injEq] at hrest
    obtain ⟨rfl, rfl⟩ := hrest
    refine ⟨rfl, _, rfl, hname, hsymbol, hparams, hbody, hlocals, ?_⟩
    simp [hframe', hframe, Frame.above_self]

/-- Frames around functions that are left alone. -/
theorem Visitor.scoped_keepsFunctions_pure (henter : v.enterFunction = fun _ => pure ()) :
    Steady.KeepsFunctions (v.scoped pure) (fun _ => True) (fun _ => True) :=
  Visitor.scoped_keepsFunctions (fun _ _ => trivial) (fun _ _ => trivial) fun hrun hleft => by
    rw [henter] at hrun
    obtain ⟨-, rfl⟩ := Walk.outcome_pure_eq_ok.mp hrun
    obtain ⟨rfl, rfl⟩ := Walk.outcome_pure_eq_ok.mp hleft
    exact ⟨rfl, rfl, rfl, rfl, rfl, rfl, rfl⟩

/-- A unit whose frame is opened before its items and written back after them. -/
theorem Visitor.scoped_program (hunit : v.enterUnit = pure)
    (hexit : v.exitUnit = pure) {p p' : Program} {own : σ} {s' : Nested σ}
    (hrun : (p.mapUp (v.scoped exitFunction)).outcome ⟨[], own⟩ = (.ok p', s')) :
    ∃ items s1, (Items.mapUp (v.scoped exitFunction) p.items).outcome ⟨[p.frame], own⟩ =
        (.ok items, s1) ∧
      p' = { p with items := items, frame := (s1.frames.headD {}).above p.frame } := by
  obtain ⟨p1, s1, henter, hrest⟩ := Walk.outcome_bind_eq_ok.mp hrun
  obtain ⟨items, s2, hitems, hleft⟩ := Walk.outcome_bind_eq_ok.mp hrest
  simp only [Visitor.scoped, hunit, Walk.outcome_bind, Nested.outcome_open, Walk.andThen_ok,
    Walk.outcome_pure, Prod.mk.injEq, Except.ok.injEq] at henter
  obtain ⟨rfl, rfl⟩ := henter
  refine ⟨items, s2, hitems, ?_⟩
  simp only [Visitor.scoped, hexit, Nested.close, Walk.outcome_bind, Walk.outcome_pure,
    Walk.outcome_modifyGet, Walk.andThen_ok, Prod.mk.injEq, Except.ok.injEq] at hleft
  rw [← hleft.1]
  cases s2.frames <;> rfl

/-- **Items of a pass with frames.**  Where nothing has to be known of the state, the items that are
left are alike. -/
theorem Visitor.scoped_related {Rel : Expr → Expr → Prop} {drops : Item → Prop}
    {expr : Nested σ → Expr → Except Error Expr} {decl : Nested σ → Let → Except Error Let}
    {stmt : Nested σ → Stmt → Except Error Stmt}
    (hsteady : Steady (v.scoped exitFunction) expr decl stmt Nested.pushed)
    (hkeeps : Steady.Keeps (v.scoped exitFunction) expr decl stmt Nested.pushed Rel (fun _ => True)
      (fun _ => True))
    (hfunctions : Steady.KeepsFunctions (v.scoped exitFunction) (fun _ => True) (fun _ => True))
    (hunit : v.enterUnit = pure) (hexit : v.exitUnit = pure)
    (hitem : ∀ {i : Item} {left : Option Item} {s s' : Nested σ},
      (v.item i).outcome s = (.ok left, s') → left = some i ∨ left = none ∧ drops i)
    (hdrops : ∀ {name : String} {ty ty' : TypeExpr} {value value' : Expr} {symbol : Option String}
      {span : Span}, drops (.constant name ty' value' symbol span) →
      drops (.constant name ty value symbol span))
    {p p' : Program} {own : σ} (hsource : ∀ entry ∈ p.items, entry.1.isSource = true)
    (hrun : ((p.mapUp (v.scoped exitFunction)).outcome ⟨[], own⟩).1 = .ok p') :
    Items.Related drops (Item.Alike Rel) p.items p'.items := by
  obtain ⟨items, s1, hitems, rfl⟩ := Visitor.scoped_program hunit hexit
    (Prod.ext hrun rfl : (p.mapUp (v.scoped exitFunction)).outcome ⟨[], own⟩ = (.ok p', _))
  exact (hsteady.mapUp_items hkeeps hfunctions (fun _ h => ⟨trivial, hitem h⟩) hdrops trivial hsource
    (fun _ _ => trivial) hitems).2

/-- **A pass with frames** that leaves all items. -/
theorem Visitor.scoped_steady_program {Rel : Expr → Expr → Prop}
    {expr : Nested σ → Expr → Except Error Expr} {decl : Nested σ → Let → Except Error Let}
    {stmt : Nested σ → Stmt → Except Error Stmt}
    (hsteady : Steady (v.scoped exitFunction) expr decl stmt Nested.pushed)
    (hkeeps : Steady.Keeps (v.scoped exitFunction) expr decl stmt Nested.pushed Rel (fun _ => True)
      (fun _ => True))
    (hfunctions : Steady.KeepsFunctions (v.scoped exitFunction) (fun _ => True) (fun _ => True))
    (hunit : v.enterUnit = pure) (hexit : v.exitUnit = pure)
    (hitem : v.item = fun i => pure (some i)) {p p' : Program} {own : σ}
    (hsource : ∀ entry ∈ p.items, entry.1.isSource = true)
    (hrun : ((p.mapUp (v.scoped exitFunction)).outcome ⟨[], own⟩).1 = .ok p') :
    Items.Related (fun _ => False) (Item.Alike Rel) p.items p'.items ∧ p'.frame = p.frame := by
  refine ⟨Visitor.scoped_related hsteady hkeeps hfunctions hunit hexit (fun h => ?_) id hsource hrun, ?_⟩
  · rw [hitem] at h
    exact .inl (Walk.outcome_pure_eq_ok.mp h).1.symm
  · obtain ⟨items, s1, hitems, rfl⟩ := Visitor.scoped_program hunit hexit
      (Prod.ext hrun rfl : (p.mapUp (v.scoped exitFunction)).outcome ⟨[], own⟩ = (.ok p', _))
    rw [hsteady.mapUp_items_same hkeeps hfunctions hitem trivial hsource (fun _ _ => trivial) hitems]
    exact p.frame.above_self

end Steady

end Program

end Lode
