/-
# All passes

What the passes make of a text, in whichever order the first of them run.  While they run, a program is
still the written one, and then a bound one whose symbols stand for the declarations (`Underway`).  The
passes after them keep its symbols and compute its constants, and leave code that ends in a return
(`Lowered`).

The first passes are the ones that a schedule may reorder.  What holds between them is therefore indexed by
a stage, the set of the passes that have run (`Underway`), and each pass moves the stage on, whatever else
has run before it (`Underway.scopes`, `Underway.resolve`, `Underway.types`, `Underway.names`).  An order of
the passes is a path through the stages, and every path ends with names that are bound
(`Underway.advances`).

Properties that the first passes keep one by one are kept by all of them in all orders (`FrontKeeps`,
`Reached`).  Such properties are about other things, the order of statements or what names stand for, and
are proved where they are used.  What a run of the whole compiler leaves in front of one of its passes is a
tree of such a program (`treeBefore_eq_ok`), and this is where statements about texts begin.
-/
import Lode.Proofs.Compiler.Run
import Lode.Proofs.Compiler.Stages
import Lode.Proofs.Pass.Naming
import Lode.Proofs.Pass.Valuation

namespace Lode

open Program
open BindNames (Tabled declaredNames)

variable {unit : String} {p q : Program} {stage : Stage}

/-- The constants that a unit defines. -/
def Program.definitions (p : Program) : List Definition := Items.definitions (p.items.map (·.1))

/-! ## 1. The first passes -/

/-- A program while the first passes run, next to the written one. -/
structure Underway (unit : String) (p : Program) (stage : Stage) (q : Program) : Prop where
  unnamed : stage.bound = false → Unnamed p stage q
  named : stage.bound = true → q.IsSource ∧ ∃ S, q.Bound S ∧ Tabled unit p.declarations S
  once : stage.bound = true → (declaredNames p).Nodup
  definitions : List.Forall₂ Definition.Means p.definitions q.definitions
  constants : q.frame.constants = []
  units : ResolveUnits.UnitsSound q.frame
  frames : ∀ frame ∈ Items.frames q.items, frame.Unvalued

theorem Underway.source (h : Underway unit p stage q) : q.IsSource := by
  cases hbound : stage.bound with
  | false => exact (h.unnamed hbound).unbound.source
  | true => exact (h.named hbound).1

/-- Names without dots lead to the declarations of a written program. -/
theorem Program.Written.dotless (h : p.Written) : BindNames.Dotless p.declarations := by
  intro site hsite name hname
  obtain ⟨i, hi, hsite⟩ := List.mem_flatMap.mp hsite
  have hwritten := h.items i hi
  obtain ⟨name', hdeclares, hhead⟩ := BindNames.head_of_declaration hsite
  obtain rfl := Option.some.inj (hhead.symm.trans hname)
  cases i with
  | global s =>
    cases s with
    | decl d =>
      obtain rfl := Option.some.inj hdeclares
      exact Let.Written.name hwritten
    | _ => cases hdeclares
  | constant _ _ _ _ _ => cases hsite
  | function f =>
    obtain rfl := Option.some.inj hdeclares
    exact Function.Written.name hwritten
  | use _ _ | compiled _ _ _ _ _ => cases hdeclares

/-- A written program, simplified, is where the first passes begin. -/
theorem Underway.of_written (h : p.Written) : Underway unit p {} (Simplify.program p) where
  unnamed _ := .of_written h
  named hbound := by cases hbound
  once hbound := by cases hbound
  definitions := Simplify.definitions h
  constants := (Unnamed.of_written h).constants
  units entry hentry := by
    rw [(Simplify.written_program h).frame] at hentry
    cases hentry
  frames frame hframe := by
    obtain ⟨entry, hentry, hframe⟩ := List.mem_flatMap.mp hframe
    have hitem := (Simplify.written_program h).items _ (List.mem_map_of_mem hentry)
    rw [hitem.keeps.2.2 frame hframe]
    exact Frame.unvalued_empty

/-- **Explicit scopes** while the first passes run. -/
theorem Underway.scopes (h : Underway unit p stage q) (hnested : stage.nested = false)
    (hbound : stage.bound = false) :
    Underway unit p { stage with nested := true } (ExplicitScopes.nested q) where
  unnamed _ := (h.unnamed hbound).scopes hnested
  named htrue := absurd (hbound.symm.trans htrue) Bool.noConfusion
  once htrue := absurd (hbound.symm.trans htrue) Bool.noConfusion
  definitions := by
    have hsame : (ExplicitScopes.nested q).definitions = q.definitions := by
      simp only [Program.definitions, Items.definitions, ExplicitScopes.nested, List.map_map,
        List.filterMap_map]
      refine List.filterMap_congr fun entry _ => ?_
      cases hitem : entry.1 <;> simp [hitem, ExplicitScopes.nestItem, Item.definition?]
    rw [hsame]
    exact h.definitions
  constants := h.constants
  units := h.units
  frames := ExplicitScopes.nested_frames h.source Frame.unvalued_empty h.frames

/-- **Resolved units** while the first passes run. -/
theorem Underway.resolve (h : Underway unit p stage q) (hresolved : stage.resolved = false)
    {q' : Program} (hrun : ((q.mapUp ResolveUnits.visitor).outcome ⟨[], ()⟩).1 = .ok q') :
    Underway unit p { stage with resolved := true } q' := by
  obtain ⟨⟨hconstants, hsound⟩, hdefinitions⟩ := ResolveUnits.definitions h.source h.units hrun
  exact
    { unnamed := fun hbound => (h.unnamed hbound).resolve hresolved hrun
      named := fun hbound => by
        obtain ⟨hsource, S, hS, htabled⟩ := h.named hbound
        obtain ⟨hsource', hS'⟩ := ResolveUnits.bound hsource hS hrun
        exact ⟨hsource', S, hS', htabled⟩
      once := h.once
      definitions := Definition.Means.trans_all h.definitions hdefinitions
      constants := hconstants.trans h.constants
      units := hsound
      frames := fun frame hframe =>
        h.frames frame ((ResolveUnits.related h.source hrun).frames_subset hframe) }

/-- Items whose units are resolved, while the first passes run. -/
theorem Underway.resolves (h : Underway unit p stage q) {q' : Program}
    (hrun : ((q.mapUp ResolveUnits.visitor).outcome ⟨[], ()⟩).1 = .ok q') :
    Items.Related ResolveUnits.IsUse (Item.Alike ResolveUnits.Resolves) q.items q'.items :=
  ResolveUnits.resolves h.source h.units (fun frame hframe => (h.frames frame hframe).units) hrun

/-- **Types that are read** while the first passes run. -/
theorem Underway.types (h : Underway unit p stage q) (hbound : stage.bound = false) {q' : Program}
    (hrun : ((q.mapUp ConstructTypes.visitor).outcome ()).1 = .ok q') :
    Underway unit p { stage with typed := true } q' := by
  have hframe : q'.frame = q.frame := Program.frame_of_mapUp rfl rfl hrun
  exact
    { unnamed := fun _ => (h.unnamed hbound).types hrun
      named := fun htrue => absurd (hbound.symm.trans htrue) Bool.noConfusion
      once := fun htrue => absurd (hbound.symm.trans htrue) Bool.noConfusion
      definitions := Definition.Means.trans_all h.definitions (ConstructTypes.definitions h.source hrun)
      constants := hframe ▸ h.constants
      units := hframe ▸ h.units
      frames := fun frame hin =>
        h.frames frame ((ConstructTypes.related h.source hrun).1.frames_subset hin) }

/-- A program whose names were just bound, next to the written one: without its symbols it is a program
whose names were not bound. -/
structure Named (unit : String) (p q : Program) (S : Symbols) : Prop where
  source : q.IsSource
  bound : q.Bound S
  tabled : Tabled unit p.declarations S
  lexical : q.Lexical
  outline : q.outline = p.outline
  unnamed : ∃ (stage : Stage) (before : Program), Unnamed p stage before ∧
    (q.items.map (·.1)).map Item.erase = (before.items.map (·.1)).map Item.erase
  labelled : ∀ i ∈ q.items.map (·.1), BindNames.ItemLabelled unit i

/-- A statement is one that mentions no symbols, but for its bindings. -/
theorem Named.exists_unnamed {S : Symbols} (h : Named unit p q S) {f : Function} (hf : f ∈ q.functions)
    {s : Stmt} (hs : s ∈ f.body.leaves) : ∃ s' : Stmt, s'.Linked {} ∧ s'.erase = s.erase := by
  obtain ⟨stage, before, hunnamed, herase⟩ := h.unnamed
  have hitem : Item.erase (.function f) ∈ (before.items.map (·.1)).map Item.erase :=
    herase ▸ List.mem_map_of_mem (Items.mem_functions.mp hf)
  obtain ⟨i, hi, hitem⟩ := List.mem_map.mp hitem
  obtain ⟨entry, hentry, rfl⟩ := List.mem_map.mp hi
  have hlinked := hunnamed.unbound.linked entry hentry
  generalize entry.1 = i at hitem hlinked
  cases i with
  | function g =>
    have hbody : g.body.erase = f.body.erase := congrArg Function.body (Item.function.inj hitem)
    have hleaf : s.erase ∈ g.body.leaves.map Stmt.erase := by
      rw [← Stmts.leaves_erase, hbody, Stmts.leaves_erase]
      exact List.mem_map_of_mem hs
    obtain ⟨s', hs', herase⟩ := List.mem_map.mp hleaf
    exact ⟨s', Stmts.linked_leaves hlinked.1 s' hs', herase⟩
  | _ => cases hitem

/-- **Names that are bound.**  No name is declared twice, and every declaration has a symbol. -/
theorem Underway.names (h : Underway unit p stage q) (hp : p.Written) (hnested : stage.nested = true)
    (htyped : stage.typed = true) (hbound : stage.bound = false) {n : Node}
    (hrun : Compiler.runPass unit q.node BindNames.pass = .ok n) :
    ∃ (q' : Program) (S : Symbols), n = q'.node ∧ Underway unit p { stage with bound := true } q' ∧
      Named unit p q' S ∧
      (q'.items.map (·.1)).map Item.erase = (q.items.map (·.1)).map Item.erase := by
  have hunnamed := h.unnamed hbound
  have hready := hunnamed.ready hnested htyped
  -- a name that is declared twice would have been refused
  have hdistinct : BindNames.Distinct q := by
    by_contra hnot
    obtain ⟨name, span, herror⟩ := BindNames.runPass_duplicate unit hunnamed.unbound hready hnot
    rw [herror] at hrun
    cases hrun
  obtain ⟨q', hq', ⟨-, hgrows⟩, hresolved⟩ :=
    BindNames.mapUp_resolved unit hunnamed.unbound hready hdistinct
  rw [BindNames.runPass unit hunnamed.unbound.source, hq'] at hrun
  obtain ⟨hsource, hS⟩ := BindNames.bound hunnamed.unbound hq'
  have htabled := BindNames.tabled hunnamed.unbound hready hdistinct
    (hunnamed.declarations ▸ hp.dotless) hq'
  rw [hunnamed.declarations] at htabled
  refine ⟨q', Items.symbols q'.items, (Except.ok.inj hrun).symm, ?_, ?_⟩
  · exact
      { unnamed := fun hfalse => by cases hfalse
        named := fun _ => ⟨hsource, _, hS, htabled⟩
        once := fun _ => hunnamed.declared ▸ hdistinct.1.1
        definitions := Definition.Means.trans_all h.definitions (BindNames.definitions hresolved)
        constants := hgrows.constants.trans h.constants
        units := fun entry hentry u hu => h.units entry (hgrows.units entry hentry u hu) u hu
        frames := fun frame hframe => by
          obtain ⟨entry, hentry, hframe⟩ := List.mem_flatMap.mp hframe
          obtain ⟨i, -, hitem⟩ := exists_of_mem_right (List.forall₂_map_left_iff.mp hresolved)
            (List.mem_map_of_mem hentry)
          exact (hitem.frames frame hframe).unvalued }
  · have hitem : ∀ i' ∈ q'.items.map (·.1), i'.Lexical (Items.env (q'.items.map (·.1))) ∧
        BindNames.ItemLabelled unit i' := fun i' hi' => by
      obtain ⟨i, hi, hitem⟩ := exists_of_mem_right (List.forall₂_map_left_iff.mp hresolved) hi'
      exact ⟨hitem.lexical, hitem.labelled (hready i hi)⟩
    have herase : (q'.items.map (·.1)).map Item.erase = (q.items.map (·.1)).map Item.erase := by
      rw [BindNames.erase_of_resolved hresolved, List.map_map]
      exact List.map_congr_left fun i _ => BindNames.nameItem_erase i
    refine ⟨⟨hsource, hS, htabled, fun i hi => (hitem i hi).1, ?_, ⟨stage, q, hunnamed, herase⟩,
      fun i hi => (hitem i hi).2⟩, herase⟩
    rw [← hunnamed.outline, ← q'.outline_erase, ← q.outline_erase, Program.outline, Program.outline,
      Program.erase, Program.erase, herase]

/-- A property of programs that the first passes keep. -/
structure FrontKeeps (F : Program → Prop) : Prop where
  scopes : ∀ {q : Program}, F q → F (ExplicitScopes.nested q)
  units : ∀ {q q' : Program}, F q →
    Items.Related ResolveUnits.IsUse (Item.Alike ResolveUnits.Resolves) q.items q'.items → F q'
  types : ∀ {q q' : Program}, F q → Items.Related (fun _ => False) (Item.Alike Eq) q.items q'.items → F q'
  names : ∀ {q q' : Program}, F q →
    (q'.items.map (·.1)).map Item.erase = (q.items.map (·.1)).map Item.erase → F q'

/-- What holds of a program because the first passes keep it from the simplified one on. -/
def Reached (p q : Program) : Prop := ∀ F : Program → Prop, FrontKeeps F → F (Simplify.program p) → F q

theorem frontKeeps_reached (p : Program) : FrontKeeps (Reached p) where
  scopes h F hF hstart := hF.scopes (h F hF hstart)
  units h hrelated F hF hstart := hF.units (h F hF hstart) hrelated
  types h hrelated F hF hstart := hF.types (h F hF hstart) hrelated
  names h herase F hF hstart := hF.names (h F hF hstart) herase

/-- **Every order of the first passes** binds the names of a written program. -/
theorem Underway.advances {F : Program → Prop} (hF : FrontKeeps F) (unit : String) (hp : p.Written) :
    Stage.Advances unit fun stage n => ∃ q : Program, n = q.node ∧ Underway unit p stage q ∧ F q where
  scopes := by
    rintro stage _ n' hnested hbound ⟨q, rfl, h, hq⟩ hrun
    rw [ExplicitScopes.runPass_eq] at hrun
    exact ⟨_, (Except.ok.inj hrun).symm, h.scopes hnested hbound, hF.scopes hq⟩
  units := by
    rintro stage _ n' hresolved ⟨q, rfl, h, hq⟩ hrun
    rw [ResolveUnits.runPass] at hrun
    obtain ⟨q', hq', rfl⟩ := map_eq_ok.mp hrun
    exact ⟨q', rfl, h.resolve hresolved hq', hF.units hq (h.resolves hq')⟩
  types := by
    rintro stage _ n' - hbound ⟨q, rfl, h, hq⟩ hrun
    rw [ConstructTypes.runPass] at hrun
    obtain ⟨q', hq', rfl⟩ := map_eq_ok.mp hrun
    exact ⟨q', rfl, h.types hbound hq', hF.types hq (ConstructTypes.related h.source hq').1⟩
  names := by
    rintro stage _ n' hnested htyped hbound ⟨q, rfl, h, hq⟩ hrun
    obtain ⟨q', -, rfl, h', -, herase⟩ := h.names hp hnested htyped hbound hrun
    exact ⟨q', rfl, h', hF.names hq herase⟩

/-- Once names are bound, the symbols stay, and the items change in the names of units only. -/
theorem Underway.advances_bound {S : Symbols} (bound : Program) :
    Stage.Advances unit fun stage n => stage.bound = true ∧
      ∃ q : Program, n = q.node ∧ Underway unit p stage q ∧ q.Bound S ∧
        Items.Alike UnitsResolved bound.items q.items where
  scopes := by
    rintro stage _ _ - hbound ⟨htrue, -⟩
    exact absurd (hbound.symm.trans htrue) Bool.noConfusion
  units := by
    rintro stage _ n' hresolved ⟨htrue, q, rfl, h, hS, halike⟩ hrun
    rw [ResolveUnits.runPass] at hrun
    obtain ⟨q', hq', rfl⟩ := map_eq_ok.mp hrun
    refine ⟨htrue, q', rfl, h.resolve hresolved hq', (ResolveUnits.bound h.source hS hq').2, ?_⟩
    exact (halike.comp ((h.resolves hq').alike ResolveUnits.isWhole_of_isUse)).imp
      fun ⟨_, hall, hlast⟩ => hall.tail hlast
  types := by
    rintro stage _ _ - hbound ⟨htrue, -⟩
    exact absurd (hbound.symm.trans htrue) Bool.noConfusion
  names := by
    rintro stage _ _ - - hbound ⟨htrue, -⟩
    exact absurd (hbound.symm.trans htrue) Bool.noConfusion

/-- **The first passes bind names**, and later ones keep the symbols. -/
theorem front_ok (hp : p.Written) {front : List Nat} (hfront : front ∈ Schedule.frontIndices) {n : Node}
    (hrun : (Schedule.frontPasses front).foldlM (Compiler.runPass unit) (Simplify.program p).node = .ok n) :
    ∃ (named q : Program) (S : Symbols), n = q.node ∧ Underway unit p ⟨true, true, true, true⟩ q ∧
      q.Bound S ∧ (Named unit p named S ∧ Reached p named) ∧
      Items.Alike UnitsResolved named.items q.items ∧
      ((Schedule.frontPasses (front.takeWhile (· != Schedule.binding))).foldlM (Compiler.runPass unit)
        (Simplify.program p).node >>= (Compiler.runPass unit · BindNames.pass)) = .ok named.node := by
  have hstages := Stage.run_frontIndices front hfront
  have hsplit := Schedule.exists_binding front hfront
  generalize front.takeWhile (· != Schedule.binding) = before at hsplit ⊢
  generalize (front.dropWhile (· != Schedule.binding)).tail = after at hsplit
  rw [hsplit, List.foldlM_append] at hstages
  rw [hsplit, Schedule.frontPasses, List.filterMap_append, List.foldlM_append] at hrun
  obtain ⟨n1, hrun1, hrun⟩ := bind_eq_ok.mp hrun
  obtain ⟨n2, hrun2, hrun⟩ := foldlM_runPass_cons hrun
  obtain ⟨stage1, hstages1, hstages⟩ := Option.bind_eq_some_iff.mp hstages
  obtain ⟨stage2, hnext, hstages⟩ := Option.bind_eq_some_iff.mp hstages
  obtain ⟨q1, rfl, hunderway1, hreached⟩ := (Underway.advances (frontKeeps_reached p) unit hp).run hstages1
    ⟨_, rfl, .of_written hp, fun _ _ hstart => hstart⟩ hrun1
  have hstage : ((stage1.nested = true ∧ stage1.typed = true) ∧ stage1.bound = false) ∧
      { stage1 with bound := true } = stage2 := by
    simpa [Stage.next?, Schedule.binding] using hnext
  obtain ⟨⟨⟨hnested, htyped⟩, hbound⟩, rfl⟩ := hstage
  obtain ⟨named, S, rfl, hunderway2, hnamed, herase⟩ := hunderway1.names hp hnested htyped hbound hrun2
  have hrefl : Items.Alike UnitsResolved named.items named.items := .refl (fun _ => .refl) hnamed.source
  obtain ⟨-, q, rfl, hunderway, hS, halike⟩ := (Underway.advances_bound named).run hstages
    ⟨rfl, named, rfl, hunderway2, hnamed.bound, hrefl⟩ hrun
  refine ⟨named, q, S, rfl, hunderway, hS, ⟨hnamed, (frontKeeps_reached p).names hreached herase⟩, halike, ?_⟩
  exact bind_eq_ok.mpr ⟨_, hrun1, hrun2⟩

/-! ## 2. Trees between the passes -/

namespace Compiler

/-- The tree of a text in front of a pass: what the passes leave that are scheduled before it. -/
def treeBefore (pass : Pass) (text unit : String) (options : ScheduleOptions) : Except Error Node := do
  let raw ← Language.read text
  let tree ← simplified raw
  let passes ← schedule standardPasses options
  (Schedule.passesBefore pass.info.name passes).foldlM (runPass unit) tree

/-- The tree of a text behind a pass. -/
def treeAfter (pass : Pass) (text unit : String) (options : ScheduleOptions) : Except Error Node := do
  runPass unit (← treeBefore pass text unit options) pass

end Compiler

/-- The programs that the passes make of a written one, up to the allocation of variables. -/
structure Run (unit : String) (p : Program) (S : Symbols) where
  written : p.Written
  assigns : p.Assigns
  named : Program
  ready : Program
  names : Named unit p named S
  reached : Reached p named
  underway : Underway unit p ⟨true, true, true, true⟩ ready
  units : Items.Alike UnitsResolved named.items ready.items
  preparation : Preparation unit S ready

namespace Run

variable {S : Symbols} (r : Run unit p S)

/-- The program whose variables are allocated. -/
def allocated : Program := r.preparation.allocated

/-- **Functions while a text is compiled**, from the binding of names up to the allocation of
variables. -/
theorem functions : List.Forall₂ (Function.Alike (Relation.Comp UnitsResolved Prepared))
    r.named.functions r.preparation.placed.functions :=
  (r.units.comp r.preparation.items).functions

/-- **Expressions with allocated variables.**  Their calls are checked, and their identifiers lead to
declarations. -/
theorem allocated_parts {f : Function} (hf : f ∈ r.allocated.functions) : ∀ s ∈ f.body.toList,
    ∀ e ∈ s.parts, e.CallsChecked ∧ ∀ b ∈ e.bindings, r.named.Declares b := by
  intro s hs
  obtain ⟨placed, hplaced, hassigned, -⟩ := exists_of_mem_right r.preparation.allocated_functions hf
  obtain ⟨leaf, hleaf, hassigned⟩ := exists_of_mem_right hassigned hs
  refine hassigned.forall_parts (fun place zeroPage type span => ⟨?_, by simp [Expr.bindings]⟩) ?_
  · cases place <;> trivial
  obtain ⟨named, hnamed, halike⟩ := exists_of_mem_right r.functions hplaced
  obtain ⟨origin, horigin, halike⟩ := exists_of_mem_right halike.body.leaves hleaf
  intro e' he'
  obtain ⟨e, he, e0, hunits, hprepared⟩ := exists_of_mem_right halike.parts he'
  refine ⟨hprepared.callsChecked, fun b hb => ?_⟩
  exact r.names.lexical.declares hnamed origin horigin e he b
    (hunits.keepsBindings (hprepared.keepsBindings hb))

end Run

/-- A run that is that of a text. -/
structure Run.Of {S : Symbols} (r : Run unit p S) (text : String) (options : ScheduleOptions) : Prop where
  read : Language.read text = .ok p.node
  named : Compiler.treeAfter BindNames.pass text unit options = .ok r.named.node
  allocated : Compiler.treeBefore LowerCalls.pass text unit options = .ok r.allocated.node
  scheduled : ∃ before after : List Pass,
    schedule standardPasses options = .ok (before ++ BindNames.pass :: after) ∧
      (before ++ [BindNames.pass]).foldlM (Compiler.runPass unit) (Simplify.program p).node =
        .ok r.named.node

namespace Compiler

variable {text : String} {options : ScheduleOptions} {tree : Node}

/-- **Texts that are lowered up to calls.** -/
theorem treeBefore_eq_ok (h : treeBefore LowerCalls.pass text unit options = .ok tree) :
    ∃ (p : Program) (S : Symbols) (r : Run unit p S), r.Of text options ∧ tree = r.allocated.node := by
  have htree := h
  obtain ⟨raw, hread, h⟩ := bind_eq_ok.mp h
  obtain ⟨p, ⟨hwritten, hassigns⟩, rfl⟩ := Language.read_assigns hread
  rw [Simplify.simplified_node, ok_bind] at h
  obtain ⟨passes, hschedule, h⟩ := bind_eq_ok.mp h
  obtain ⟨front, hfront, rfl⟩ := Schedule.schedule_eq hschedule
  rw [Schedule.passesBefore_calls hfront, List.foldlM_append] at h
  obtain ⟨n, hn, h⟩ := bind_eq_ok.mp h
  obtain ⟨named, q, S, rfl, hunderway, hS, ⟨hnamed, hreached⟩, halike, hrun⟩ := front_ok hwritten hfront hn
  obtain ⟨r, rfl⟩ := exists_preparation hunderway.source hS h
  refine ⟨p, S, ⟨hwritten, hassigns, named, q, hnamed, hreached, hunderway, halike, r⟩, ⟨hread, ?_, htree, ?_⟩,
    rfl⟩
  · rw [treeAfter, treeBefore, hread, ok_bind, Simplify.simplified_node, ok_bind, hschedule, ok_bind,
      Schedule.passesBefore_names hfront]
    exact hrun
  · obtain ⟨behind, hsplit⟩ := Schedule.exists_naming hfront
    refine ⟨Schedule.frontPasses (front.takeWhile (· != Schedule.binding)), behind ++ Schedule.backPasses,
      ?_, ?_⟩
    · rw [hschedule, hsplit, List.append_assoc, List.cons_append]
    · obtain ⟨n, hn, hrun⟩ := bind_eq_ok.mp hrun
      rw [List.foldlM_append, hn, ok_bind, List.foldlM_cons, hrun]
      rfl

/-- The passes behind the lowering of calls. -/
theorem lower_eq (text unit : String) (options : ScheduleOptions) : lower text unit options =
    treeBefore LowerCalls.pass text unit options >>= Schedule.emittingPasses.foldlM (runPass unit) := by
  simp only [lower, treeBefore, bind_assoc]
  refine bind_congr fun raw => bind_congr fun tree => ?_
  cases hschedule : schedule standardPasses options with
  | error e => rfl
  | ok passes =>
    obtain ⟨front, hfront, rfl⟩ := Schedule.schedule_eq hschedule
    rw [ok_bind, ok_bind, Schedule.passesBefore_calls hfront, Schedule.backPasses_eq, ← List.append_assoc,
      List.foldlM_append]

end Compiler

/-! ## 3. Lowered programs -/

/-- A lowered program with its symbols, next to the written one. -/
structure Lowered (unit : String) (p : Program) (S : Symbols) (t : Program) : Prop where
  bound : t.Bound S
  tabled : Tabled unit p.declarations S
  finished : ∀ entry ∈ t.items, FlattenSymbol.Finished entry.1
  once : (declaredNames p).Nodup
  constants : ∃ definitions, List.Forall₂ Definition.Means p.definitions definitions ∧
    EvaluateConstants.Evaluated [] definitions t.frame.constants

/-- What a run comes to once code is emitted. -/
theorem Run.lowered {S : Symbols} (r : Run unit p S) (emission : Emission unit S r.allocated) :
    Lowered unit p S emission.flat where
  bound := emission.flat_bound.1
  tabled := r.names.tabled
  finished := emission.flat_bound.2.1
  once := r.underway.once rfl
  constants := by
    refine ⟨r.ready.definitions, r.underway.definitions, ?_⟩
    rw [emission.frame_eq, Run.allocated, r.preparation.frame_eq]
    exact EvaluateConstants.evaluated r.underway.source r.underway.constants r.preparation.evaluate

/-- **Lowered texts.** -/
theorem Compiler.lower_eq_ok {text unit : String} {options : ScheduleOptions} {tree : Node}
    (h : Compiler.lower text unit options = .ok tree) :
    ∃ (p : Program) (S : Symbols) (r : Run unit p S) (emission : Emission unit S r.allocated),
      r.Of text options ∧ tree = emission.flat.node := by
  rw [Compiler.lower_eq] at h
  obtain ⟨n, hn, h⟩ := bind_eq_ok.mp h
  obtain ⟨p, S, r, hr, rfl⟩ := treeBefore_eq_ok hn
  obtain ⟨emission, rfl⟩ := exists_emission r.preparation.allocated_bound.1 r.preparation.allocated_bound.2 h
  exact ⟨p, S, r, emission, hr, rfl⟩

end Lode
