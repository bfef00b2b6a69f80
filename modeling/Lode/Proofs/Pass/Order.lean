/-
# Orders of passes

An order that is found places every pass once, and behind all passes that it waits for (`Placed`).  The
search is depth first: it enters a pass, places all that it waits for, and then the pass itself.  What a
step does is said by `Search.Places`, from a state in which the passes on the path differ and are not placed
(`Search.Sound`).  The budget of the search is never used up, for this very reason: there are no more passes
to put on the path.

How the search is shuffled makes no difference to this.  A shuffle permutes the passes and, for every pass,
the list of those it waits for (`Visiting`), and nothing else of them is used.

The standard passes leave little room: units can be resolved anywhere among the passes up to the binding of
names, scopes and written types come in any order before it, and everything after it has one order
(`schedule_eq`).  This is found by listing all ways to place fifteen passes, which is a small computation
because a pass is only tried if all that it waits for is placed (`placements`).  Results on the first passes
are then proved for all orders at once, stage by stage: a stage is the set of passes that have run, and a
property of each stage that every possible next pass preserves holds behind every order
(`Stage.Advances.run`).
-/
import Lode.Compiler
import Lode.Proofs.Except
import Mathlib.Data.List.Nodup
import Mathlib.Data.List.Perm.Subperm

namespace Lode

/-! ## 1. Shuffled lists -/

/-- Shuffling the front of an array permutes it. The induction is on the last place that is swapped. -/
theorem Generator.shuffleFrom_perm {α : Type} : ∀ (last : Nat) (xs : Array α) (g : Generator),
    (shuffleFrom last xs g).1.toList.Perm xs.toList
  | 0, _, _ => .rfl
  | last + 1, xs, g => by
    rw [shuffleFrom]
    refine (shuffleFrom_perm last _ _).trans ?_
    unfold Array.swapIfInBounds
    split
    · split
      · exact (Array.swap_perm ..).toList
      · exact .rfl
    · exact .rfl

theorem Generator.shuffle_perm {α : Type} (xs : List α) (g : Generator) : (g.shuffle xs).1.Perm xs :=
  shuffleFrom_perm _ _ _

namespace Schedule

theorem shuffleAll_perm : ∀ (lists : List (List Nat)) (g : Generator),
    List.Forall₂ List.Perm (shuffleAll lists g) lists
  | [], _ => .nil
  | xs :: rest, g => .cons (g.shuffle_perm xs) (shuffleAll_perm rest _)

/-! ## 2. Placed passes -/

/-- The passes that a pass waits for. -/
def waitsFor (dependencies : Array (List Nat)) (index : Nat) : List Nat := (dependencies[index]?).getD []

/-- Passes, the latest first, of which each comes once and behind all that it waits for. -/
def Placed (waits : Nat → List Nat) : List Nat → Prop
  | [] => True
  | index :: placed => index ∉ placed ∧ waits index ⊆ placed ∧ Placed waits placed

theorem Placed.mono {waits waits' : Nat → List Nat} (h : ∀ index, waits' index ⊆ waits index) :
    ∀ {placed : List Nat}, Placed waits placed → Placed waits' placed
  | [], _ => trivial
  | index :: _, ⟨hnew, hwaits, hrest⟩ =>
    ⟨hnew, List.Subset.trans (h index) hwaits, Placed.mono h hrest⟩

theorem Placed.nodup {waits : Nat → List Nat} : ∀ {placed : List Nat}, Placed waits placed → placed.Nodup
  | [], _ => List.nodup_nil
  | _ :: _, ⟨hnew, _, hrest⟩ => List.nodup_cons.mpr ⟨hnew, hrest.nodup⟩

/-- What holds of the search among `count` passes: the passes on the path differ and are not placed. -/
structure Search.Sound (waits : Nat → List Nat) (count : Nat) (s : Search) : Prop where
  placed : Placed waits s.placed
  placed_lt : ∀ index ∈ s.placed, index < count
  path : s.path.Nodup
  path_lt : ∀ index ∈ s.path, index < count
  apart : ∀ index ∈ s.path, index ∉ s.placed

theorem Search.Sound.start {waits : Nat → List Nat} {count : Nat} : Search.Sound waits count ⟨[], []⟩ :=
  ⟨trivial, by simp, List.nodup_nil, by simp, by simp⟩

/-- The path has room for `count` passes. -/
theorem Search.Sound.length_path_le {waits : Nat → List Nat} {count : Nat} {s : Search}
    (h : s.Sound waits count) : s.path.length ≤ count := by
  have hsub : s.path ⊆ List.range count := fun i hi => List.mem_range.mpr (h.path_lt i hi)
  have hle := (List.subperm_of_subset h.path hsub).length_le
  rwa [List.length_range] at hle

/-- A pass that is neither placed nor on the path can be entered. -/
theorem Search.Sound.enter {waits : Nat → List Nat} {count index : Nat} {s : Search}
    (h : s.Sound waits count) (hindex : index < count) (hplaced : index ∉ s.placed)
    (hpath : index ∉ s.path) : Search.Sound waits count { s with path := index :: s.path } :=
  ⟨h.placed, h.placed_lt, List.nodup_cons.mpr ⟨hpath, h.path⟩,
    List.forall_mem_cons.mpr ⟨hindex, h.path_lt⟩, List.forall_mem_cons.mpr ⟨hplaced, h.apart⟩⟩

/-- What a step of the search does: it places passes, and leaves the path. -/
structure Search.Places (waits : Nat → List Nat) (count : Nat) (s s' : Search) (wanted : List Nat) :
    Prop where
  sound : s'.Sound waits count
  path : s'.path = s.path
  keeps : s.placed ⊆ s'.placed
  places : wanted ⊆ s'.placed

section Search

variable {dependencies : Array (List Nat)} {count : Nat}

mutual

/-- **Placing a pass.**  The budget is never used up: the path has room for `count` passes. -/
theorem visit_places (hlt : ∀ index, ∀ before ∈ waitsFor dependencies index, before < count) :
    ∀ {fuel index : Nat} {s s' : Search}, s.Sound (waitsFor dependencies) count →
    count < fuel + s.path.length → index < count → visit dependencies fuel index s = .ok s' →
    s.Places (waitsFor dependencies) count s' [index]
  | 0, index, s, s', hs, hfuel, _, _ => absurd hs.length_path_le (by omega)
  | fuel + 1, index, s, s', hs, hfuel, hindex, h => by
    rw [visit] at h
    split at h
    · rename_i hplaced
      obtain rfl := Except.ok.inj h
      exact ⟨hs, rfl, List.Subset.refl _, by simpa using hplaced⟩
    · rename_i hplaced
      split at h
      · cases h
      · rename_i hpath
        replace hplaced : index ∉ s.placed := by simpa using hplaced
        replace hpath : index ∉ s.path := by simpa using hpath
        obtain ⟨inner, hinner, h⟩ := bind_eq_ok.mp h
        obtain rfl := Except.ok.inj h
        obtain ⟨hsound, hinnerPath, hkeeps, hwaits⟩ := visitAll_places hlt (hs.enter hindex hplaced hpath)
          (by simp only [List.length_cons]; omega) (hlt index) hinner
        have hapart : ∀ i ∈ index :: s.path, i ∉ inner.placed := fun i hi =>
          hsound.apart i (hinnerPath ▸ hi)
        obtain ⟨hnew, hrest⟩ := List.forall_mem_cons.mp hapart
        refine ⟨⟨⟨hnew, hwaits, hsound.placed⟩, List.forall_mem_cons.mpr ⟨hindex, hsound.placed_lt⟩,
          hs.path, hs.path_lt, fun i hi hmem => ?_⟩, rfl, List.subset_cons_of_subset _ hkeeps,
          by simp⟩
        rcases List.mem_cons.mp hmem with rfl | hmem
        · exact hpath hi
        · exact hrest i hi hmem

/-- Placing several passes, one after the other. -/
theorem visitAll_places (hlt : ∀ index, ∀ before ∈ waitsFor dependencies index, before < count) :
    ∀ {fuel : Nat} {wanted : List Nat} {s s' : Search},
    s.Sound (waitsFor dependencies) count → count < fuel + s.path.length →
    (∀ index ∈ wanted, index < count) → visitAll dependencies fuel wanted s = .ok s' →
    s.Places (waitsFor dependencies) count s' wanted
  | fuel, [], s, s', hs, _, _, h => by
    rw [visitAll] at h
    obtain rfl := Except.ok.inj h
    exact ⟨hs, rfl, List.Subset.refl _, List.nil_subset _⟩
  | fuel, index :: rest, s, s', hs, hfuel, hwanted, h => by
    obtain ⟨hindex, hrest⟩ := List.forall_mem_cons.mp hwanted
    rw [visitAll] at h
    obtain ⟨s1, hvisit, h⟩ := bind_eq_ok.mp h
    have h1 := visit_places hlt hs hfuel hindex hvisit
    have h2 := visitAll_places hlt h1.sound (h1.path ▸ hfuel) hrest h
    exact ⟨h2.sound, h2.path.trans h1.path, List.Subset.trans h1.keeps h2.keeps,
      List.cons_subset.mpr ⟨h2.keeps (h1.places List.mem_cons_self), h2.places⟩⟩

end

/-- **An order from roots** places these and all that they wait for. -/
theorem orderFrom_placed (hlt : ∀ index, ∀ before ∈ waitsFor dependencies index, before < count)
    (hcount : dependencies.size = count) {roots order : List Nat}
    (hroots : ∀ index ∈ roots, index < count) (h : orderFrom dependencies roots = .ok order) :
    Placed (waitsFor dependencies) order.reverse ∧ (∀ index ∈ order, index < count) ∧ roots ⊆ order := by
  unfold orderFrom at h
  obtain ⟨s, hs, rfl⟩ := map_eq_ok.mp (show Functor.map _ _ = _ from h)
  have hplaces := visitAll_places hlt .start (by simp [hcount]) hroots hs
  refine ⟨by rw [List.reverse_reverse]; exact hplaces.sound.placed, fun index hindex => ?_,
    fun index hindex => List.mem_reverse.mpr (hplaces.places hindex)⟩
  exact hplaces.sound.placed_lt index (List.mem_reverse.mp hindex)

end Search

/-! ## 3. Orders -/

/-- Passes wait for passes that are there. -/
theorem dependenciesOf_lt (infos : List PassInfo) (index : Nat) :
    ∀ before ∈ waitsFor (dependenciesOf infos).toArray index, before < infos.length := by
  intro before hbefore
  simp only [waitsFor, dependenciesOf, List.getElem?_toArray, List.getElem?_map] at hbefore
  cases hafter : infos[index]? with
  | none => simp [hafter] at hbefore
  | some after =>
    rw [hafter] at hbefore
    obtain ⟨entry, hentry, rfl⟩ := List.mem_map.mp hbefore
    obtain ⟨i, hi⟩ := List.mem_iff_getElem?.mp (List.mem_of_mem_filter hentry)
    obtain ⟨hlt, heq⟩ := List.getElem?_eq_some_iff.mp hi
    have := congrArg Prod.snd heq
    simp only [List.getElem_zipIdx] at this
    rw [List.length_zipIdx] at hlt
    omega

/-- A pass waits for the same passes once lists are shuffled. -/
theorem mem_waitsFor_perm {lists lists' : List (List Nat)} (h : List.Forall₂ List.Perm lists lists')
    (index before : Nat) :
    before ∈ waitsFor lists.toArray index ↔ before ∈ waitsFor lists'.toArray index := by
  simp only [waitsFor, List.getElem?_toArray]
  induction h generalizing index with
  | nil => rfl
  | cons hhead _ ih =>
    cases index with
    | zero => exact hhead.mem_iff
    | succ index => exact ih index

/-- An order in which the passes, and for every pass the passes it waits for, may be visited. -/
structure Visiting (infos : List PassInfo) (roots : List Nat) (dependencies : List (List Nat)) : Prop where
  roots : roots.Perm (List.range infos.length)
  dependencies : List.Forall₂ List.Perm dependencies (dependenciesOf infos)

section Visiting

variable {infos : List PassInfo} {roots : List Nat} {dependencies : List (List Nat)}

theorem Visiting.size (h : Visiting infos roots dependencies) :
    dependencies.toArray.size = infos.length := by
  rw [List.size_toArray, h.dependencies.length_eq, dependenciesOf, List.length_map]

theorem Visiting.waits_lt (h : Visiting infos roots dependencies) (index : Nat) :
    ∀ before ∈ waitsFor dependencies.toArray index, before < infos.length := fun before hbefore =>
  dependenciesOf_lt infos index before ((mem_waitsFor_perm h.dependencies index before).mp hbefore)

theorem Visiting.roots_lt (h : Visiting infos roots dependencies) : ∀ index ∈ roots, index < infos.length :=
  fun _ hindex => List.mem_range.mp (h.roots.mem_iff.mp hindex)

/-- **Every order that is found** places every pass once, behind the passes it waits for. -/
theorem Visiting.placed (h : Visiting infos roots dependencies) {indices : List Nat}
    (hfrom : orderFrom dependencies.toArray roots = .ok indices) :
    Placed (waitsFor (dependenciesOf infos).toArray) indices.reverse ∧
      indices.Perm (List.range infos.length) := by
  obtain ⟨hplaced, hindices, hall⟩ := orderFrom_placed h.waits_lt h.size h.roots_lt hfrom
  refine ⟨hplaced.mono fun index before hbefore =>
    (mem_waitsFor_perm h.dependencies index before).mpr hbefore, ?_⟩
  refine (List.perm_ext_iff_of_nodup (List.nodup_reverse.mp hplaced.nodup) List.nodup_range).mpr
    fun index => ⟨fun hindex => List.mem_range.mpr (hindices index hindex), fun hindex => ?_⟩
  exact hall (h.roots.mem_iff.mpr hindex)

end Visiting

/-- The error that reports a circle. -/
def circleError (infos : List PassInfo) (circle : List Nat) : Error :=
  ⟨.topology (circle.map fun i => ((infos[i]?).map PassInfo.name).getD ""), none⟩

/-- Both ways to look for an order visit all passes. -/
theorem order_eq (infos : List PassInfo) (options : ScheduleOptions) :
    ∃ roots dependencies, Visiting infos roots dependencies ∧
      order infos options = (orderFrom dependencies.toArray roots).mapError (circleError infos) := by
  unfold order
  cases options.deterministic with
  | true =>
    exact ⟨_, _, ⟨.rfl, List.forall₂_same.mpr fun _ _ => .rfl⟩, rfl⟩
  | false =>
    exact ⟨_, _, ⟨Generator.shuffle_perm _ _, shuffleAll_perm _ _⟩, rfl⟩

/-- **An order that is found places every pass once**, behind those it waits for. -/
theorem order_placed {infos : List PassInfo} {options : ScheduleOptions} {indices : List Nat}
    (h : order infos options = .ok indices) :
    Placed (waitsFor (dependenciesOf infos).toArray) indices.reverse ∧
      indices.Perm (List.range infos.length) := by
  obtain ⟨roots, dependencies, hvisiting, heq⟩ := order_eq infos options
  exact hvisiting.placed (mapError_eq_ok.mp (heq ▸ h))

/-! ## 4. The standard passes -/

/-- All ways to place a number of passes. -/
def placements (waits : Nat → List Nat) (count : Nat) : Nat → List (List Nat)
  | 0 => [[]]
  | size + 1 => (placements waits count size).flatMap fun placed =>
    ((List.range count).filter fun index =>
      !placed.contains index && (waits index).all placed.contains).map (· :: placed)

/-- Every way to place passes is listed. The induction is on the placed passes, the latest first. -/
theorem mem_placements {waits : Nat → List Nat} (count : Nat) : ∀ {placed : List Nat},
    Placed waits placed → (∀ index ∈ placed, index < count) → placed ∈ placements waits count placed.length
  | [], _, _ => by simp [placements]
  | index :: placed, ⟨hnew, hwaits, hrest⟩, hlt => by
    obtain ⟨hindex, hlt⟩ := List.forall_mem_cons.mp hlt
    refine List.mem_flatMap.mpr ⟨placed, mem_placements count hrest hlt, List.mem_map.mpr ⟨index, ?_, rfl⟩⟩
    simp only [List.mem_filter, List.mem_range, Bool.and_eq_true, Bool.not_eq_true',
      List.all_eq_true, List.contains_iff_mem]
    exact ⟨hindex, by simpa using hnew, fun before hbefore => hwaits hbefore⟩

/-- What the standard passes declare. -/
def standardInfos : List PassInfo := standardPasses.map (·.info)

/-- The orders of the passes up to the binding of names and the resolution of units. -/
def frontIndices : List (List Nat) :=
  [[0, 1, 2, 3], [0, 2, 1, 3], [0, 2, 3, 1], [1, 0, 2, 3], [1, 2, 0, 3], [2, 0, 1, 3], [2, 0, 3, 1],
    [2, 1, 0, 3]]

/-- The order of the passes after them. -/
def backIndices : List Nat := [4, 5, 6, 7, 8, 9, 10, 11, 12, 13, 14]

theorem placements_standard :
    (placements (waitsFor (dependenciesOf standardInfos).toArray) 15 15).map List.reverse =
      frontIndices.map (· ++ backIndices) := by
  decide

/-- An order of the standard passes is one of eight. -/
theorem order_standard {options : ScheduleOptions} {indices : List Nat}
    (h : order standardInfos options = .ok indices) :
    ∃ front ∈ frontIndices, indices = front ++ backIndices := by
  obtain ⟨hplaced, hperm⟩ := order_placed h
  have hlength : indices.reverse.length = 15 := by
    rw [List.length_reverse, hperm.length_eq, List.length_range]
    rfl
  have hmem := mem_placements 15 hplaced fun index hindex =>
    List.mem_range.mp (hperm.mem_iff.mp (List.mem_reverse.mp hindex))
  rw [hlength] at hmem
  have hreverse := List.mem_map_of_mem (f := List.reverse) hmem
  rw [placements_standard, List.reverse_reverse] at hreverse
  obtain ⟨front, hfront, rfl⟩ := List.mem_map.mp hreverse
  exact ⟨front, hfront, rfl⟩

/-- The passes up to the binding of names and the resolution of units, in an order. -/
def frontPasses (front : List Nat) : List Pass := front.filterMap (standardPasses[·]?)

/-- The passes after them. -/
def backPasses : List Pass :=
  [EvaluateConstants.pass, ResolveConstants.pass, FoldArithmetic.pass, PropagateTypes.pass,
    ResolveStorage.pass, AllocateLocals.pass, LowerCalls.pass, LowerAssignment.pass,
    LowerFunctions.pass, Assemble.pass, FlattenSymbol.pass]

/-- The first of these passes, up to the allocation of variables. -/
def preparingPasses : List Pass :=
  [EvaluateConstants.pass, ResolveConstants.pass, FoldArithmetic.pass, PropagateTypes.pass,
    ResolveStorage.pass, AllocateLocals.pass]

/-- The others, which emit code. -/
def emittingPasses : List Pass :=
  [LowerCalls.pass, LowerAssignment.pass, LowerFunctions.pass, Assemble.pass, FlattenSymbol.pass]

theorem backPasses_eq : backPasses = preparingPasses ++ emittingPasses := rfl

/-- The number of the pass that binds names. -/
def binding : Nat := 3

/-- Every order binds names. -/
theorem exists_binding : ∀ front ∈ frontIndices,
    front = front.takeWhile (· != binding) ++ binding :: (front.dropWhile (· != binding)).tail := by
  decide

/-- The passes in front of the one of a name. -/
def passesBefore (name : String) (passes : List Pass) : List Pass :=
  passes.takeWhile fun pass => pass.info.name != name

/-- The passes in front of one are those in front of its first occurrence. -/
theorem passesBefore_append {front back : List Pass} {pass : Pass}
    (hfront : ∀ other ∈ front, (other.info.name != pass.info.name) = true) :
    passesBefore pass.info.name (front ++ pass :: back) = front := by
  rw [passesBefore, List.takeWhile_append_of_pos hfront, List.takeWhile_cons_of_neg (by simp),
    List.append_nil]

/-- The passes up to the binding of names, and those behind it. -/
theorem exists_naming {front : List Nat} (hfront : front ∈ frontIndices) :
    ∃ behind, frontPasses front = frontPasses (front.takeWhile (· != binding)) ++ BindNames.pass :: behind := by
  refine ⟨frontPasses (front.dropWhile (· != binding)).tail, ?_⟩
  conv_lhs => rw [exists_binding front hfront]
  rw [frontPasses, List.filterMap_append]
  rfl

/-- The passes in front of the one that binds names. -/
theorem passesBefore_names {front : List Nat} (hfront : front ∈ frontIndices) :
    passesBefore BindNames.pass.info.name (frontPasses front ++ backPasses) =
      frontPasses (front.takeWhile (· != binding)) := by
  have hnames : ∀ front ∈ frontIndices, ∀ other ∈ frontPasses (front.takeWhile (· != binding)),
      (other.info.name != BindNames.pass.info.name) = true := by
    decide
  obtain ⟨behind, hsplit⟩ := exists_naming hfront
  rw [hsplit, List.append_assoc, List.cons_append, passesBefore_append (hnames front hfront)]

/-- The passes in front of the one that lowers calls. -/
theorem passesBefore_calls {front : List Nat} (hfront : front ∈ frontIndices) :
    passesBefore LowerCalls.pass.info.name (frontPasses front ++ backPasses) =
      frontPasses front ++ preparingPasses := by
  have hnames : ∀ front ∈ frontIndices, ∀ other ∈ frontPasses front ++ preparingPasses,
      (other.info.name != LowerCalls.pass.info.name) = true := by
    decide
  rw [backPasses_eq, ← List.append_assoc, emittingPasses, passesBefore_append (hnames front hfront)]

/-- **Schedules of the standard passes.** -/
theorem schedule_eq {options : ScheduleOptions} {passes : List Pass}
    (h : schedule standardPasses options = .ok passes) :
    ∃ front ∈ frontIndices, passes = frontPasses front ++ backPasses := by
  obtain ⟨indices, hindices, h⟩ := bind_eq_ok.mp h
  obtain rfl := Except.ok.inj h
  obtain ⟨front, hfront, rfl⟩ := order_standard hindices
  exact ⟨front, hfront, List.filterMap_append⟩

end Schedule

/-! ## 5. Running the first passes -/

/-- Which of the first passes have run. -/
structure Stage where
  nested : Bool := false
  resolved : Bool := false
  typed : Bool := false
  bound : Bool := false
deriving DecidableEq

/-- The stage after the pass of a number, if that pass may run now. -/
def Stage.next? (stage : Stage) : Nat → Option Stage
  | 0 => if stage.nested || stage.bound then none else some { stage with nested := true }
  | 1 => if stage.resolved then none else some { stage with resolved := true }
  | 2 => if stage.typed || stage.bound then none else some { stage with typed := true }
  | 3 => if stage.nested && stage.typed && !stage.bound then some { stage with bound := true } else none
  | _ => none

/-- What each of the first passes takes from one stage to the next. -/
structure Stage.Advances (unit : String) (P : Stage → Node → Prop) : Prop where
  scopes : ∀ {stage : Stage} {n n' : Node}, stage.nested = false → stage.bound = false → P stage n →
    Compiler.runPass unit n ExplicitScopes.pass = .ok n' → P { stage with nested := true } n'
  units : ∀ {stage : Stage} {n n' : Node}, stage.resolved = false → P stage n →
    Compiler.runPass unit n ResolveUnits.pass = .ok n' → P { stage with resolved := true } n'
  types : ∀ {stage : Stage} {n n' : Node}, stage.typed = false → stage.bound = false → P stage n →
    Compiler.runPass unit n ConstructTypes.pass = .ok n' → P { stage with typed := true } n'
  names : ∀ {stage : Stage} {n n' : Node}, stage.nested = true → stage.typed = true →
    stage.bound = false → P stage n →
    Compiler.runPass unit n BindNames.pass = .ok n' → P { stage with bound := true } n'

/-- Every order runs through the stages. -/
theorem Stage.run_frontIndices :
    ∀ front ∈ Schedule.frontIndices, front.foldlM Stage.next? {} = some ⟨true, true, true, true⟩ := by
  decide

/-- A pass takes its stage to the next one. -/
theorem Stage.Advances.step {unit : String} {P : Stage → Node → Prop} (h : Stage.Advances unit P)
    {stage stage' : Stage} {index : Nat} (hnext : stage.next? index = some stage') :
    ∃ pass, standardPasses[index]? = some pass ∧ ∀ {n n' : Node}, P stage n →
      Compiler.runPass unit n pass = .ok n' → P stage' n' := by
  unfold Stage.next? at hnext
  split at hnext <;> simp only [Option.ite_none_left_eq_some, Option.ite_none_right_eq_some,
    Bool.or_eq_true, Bool.and_eq_true, Bool.not_eq_true', not_or, Bool.not_eq_true,
    Option.some.injEq, reduceCtorEq] at hnext
  · obtain ⟨⟨hnested, hbound⟩, rfl⟩ := hnext
    exact ⟨_, rfl, fun hn hrun => h.scopes hnested hbound hn hrun⟩
  · obtain ⟨hresolved, rfl⟩ := hnext
    exact ⟨_, rfl, fun hn hrun => h.units hresolved hn hrun⟩
  · obtain ⟨⟨htyped, hbound⟩, rfl⟩ := hnext
    exact ⟨_, rfl, fun hn hrun => h.types htyped hbound hn hrun⟩
  · obtain ⟨⟨⟨hnested, htyped⟩, hbound⟩, rfl⟩ := hnext
    exact ⟨_, rfl, fun hn hrun => h.names hnested htyped hbound hn hrun⟩

/-- **The first passes**, in an order that runs through the stages. -/
theorem Stage.Advances.run {unit : String} {P : Stage → Node → Prop} (h : Stage.Advances unit P) :
    ∀ {front : List Nat} {stage stage' : Stage} {n n' : Node},
    front.foldlM Stage.next? stage = some stage' → P stage n →
    (Schedule.frontPasses front).foldlM (Compiler.runPass unit) n = .ok n' → P stage' n'
  | [], stage, stage', n, n', hstages, hn, hrun => by
    obtain rfl := Option.some.inj hstages
    exact Except.ok.inj hrun ▸ hn
  | index :: rest, stage, stage', n, n', hstages, hn, hrun => by
    rw [List.foldlM_cons] at hstages
    obtain ⟨stage1, hnext, hstages⟩ := Option.bind_eq_some_iff.mp hstages
    obtain ⟨pass, hpass, hstep⟩ := h.step hnext
    rw [Schedule.frontPasses, List.filterMap_cons_some hpass, List.foldlM_cons] at hrun
    obtain ⟨n1, hn1, hrun⟩ := bind_eq_ok.mp hrun
    exact h.run hstages (hstep hn hn1) hrun

end Lode
