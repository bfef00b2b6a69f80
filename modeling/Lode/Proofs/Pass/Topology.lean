/-
# Circles of passes

The search for an order is a topological sort.  It finds an order exactly if no pass has to run before
itself, directly or through others; the order then places every pass once and respects all pairs of passes.
Otherwise it reports a circle that is really there.

The path of the search carries the proof: every pass on it is waited for by the one below, so the part of
the path above a pass that is met again is a circle (`Search.Underway`).  A circle, in turn, leaves no
order, because the place of a pass in an order falls along the pairs.

All of this holds in whatever order the passes, and the passes that they wait for, are visited (`Visiting`).
The budget of the search is the number of passes and one more, and a larger one would change nothing
(`Visiting.budget`).

The standard passes have no circle, since they can run in the order of their declaration
(`isOrder_standard`).  So whatever the options, there is a schedule, and a text whose tree goes through all
passes in all of their orders compiles under all of them (`compile_of_accepts`).
-/
import Lode.Proofs.Pass.Order
import Mathlib.Data.List.Chain
import Mathlib.Logic.Relation

namespace Lode.Schedule

/-! ## 1. Pairs, circles and orders -/

/-- The pass of the first number has to run before the pass of the second. -/
def Precedes (infos : List PassInfo) (before after : Nat) : Prop :=
  ∃ a b, infos[before]? = some a ∧ infos[after]? = some b ∧ mustPrecede a b = true

/-- No pass has to run before itself, be it directly or through others. -/
def Acyclic (infos : List PassInfo) : Prop := ∀ index, ¬ Relation.TransGen (Precedes infos) index index

/-- Passes in a row, from one back to itself, of which each waits for the next. -/
structure IsCircle (infos : List PassInfo) (circle : List Nat) : Prop where
  returns : circle.head? = circle.getLast?
  moves : 2 ≤ circle.length
  waits : circle.IsChain fun after before => Precedes infos before after

/-- An order of all passes that respects all pairs. -/
structure IsOrder (infos : List PassInfo) (indices : List Nat) : Prop where
  perm : indices.Perm (List.range infos.length)
  respects : ∀ before after, Precedes infos before after → indices.idxOf before < indices.idxOf after

/-- What the search for an order may answer: an order if there is no circle, and a circle by the
names of its passes otherwise. -/
inductive Answers (infos : List PassInfo) : Except Error (List Nat) → Prop
  | order {indices : List Nat} : Acyclic infos → IsOrder infos indices → Answers infos (.ok indices)
  | circle {circle : List Nat} : ¬ Acyclic infos → IsCircle infos circle →
      Answers infos (.error (circleError infos circle))

/-- The search waits for the passes that have to run before. -/
theorem mem_waitsFor_iff {infos : List PassInfo} {before after : Nat} :
    before ∈ waitsFor (dependenciesOf infos).toArray after ↔ Precedes infos before after := by
  simp only [waitsFor, dependenciesOf, List.getElem?_toArray, List.getElem?_map, Precedes]
  cases hafter : infos[after]? with
  | none => simp
  | some b =>
    simp only [Option.map_some, Option.getD_some, List.mem_map, List.mem_filter, Prod.exists,
      List.mem_zipIdx_iff_getElem?, Option.some.injEq]
    constructor
    · rintro ⟨a, index, ⟨ha, hmust⟩, rfl⟩
      exact ⟨a, b, ha, rfl, hmust⟩
    · rintro ⟨a, _, ha, rfl, hmust⟩
      exact ⟨a, before, ⟨ha, hmust⟩, rfl⟩

/-! ## 2. Circles and orders exclude each other -/

/-- A chain leads from its last element to its first. -/
theorem transGen_of_isChain {R : Nat → Nat → Prop} : ∀ {rest : List Nat} {first last : Nat},
    (first :: rest).IsChain (fun a b => R b a) → (first :: rest).getLast? = some last → rest ≠ [] →
    Relation.TransGen R last first
  | [], _, _, _, _, hne => absurd rfl hne
  | [b], first, last, hchain, hlast, _ => by
    obtain rfl : b = last := by simpa using hlast
    exact .single (List.isChain_cons_cons.mp hchain).1
  | b :: c :: rest, first, last, hchain, hlast, _ => by
    obtain ⟨hfirst, hrest⟩ := List.isChain_cons_cons.mp hchain
    rw [List.getLast?_cons_cons] at hlast
    exact (transGen_of_isChain hrest hlast (List.cons_ne_nil _ _)).tail hfirst

/-- **A circle** has a pass that has to run before itself. -/
theorem IsCircle.not_acyclic {infos : List PassInfo} {circle : List Nat} (h : IsCircle infos circle) :
    ¬ Acyclic infos := by
  obtain ⟨hreturns, hmoves, hwaits⟩ := h
  match circle, hmoves with
  | first :: second :: rest, _ =>
    intro hacyclic
    exact hacyclic first (transGen_of_isChain hwaits hreturns.symm (List.cons_ne_nil _ _))

/-- **An order** has none: its places would fall along a circle. -/
theorem IsOrder.acyclic {infos : List PassInfo} {indices : List Nat} (h : IsOrder infos indices) :
    Acyclic infos := by
  have hfalls : ∀ {before after}, Relation.TransGen (Precedes infos) before after →
      indices.idxOf before < indices.idxOf after := by
    intro before after htrans
    induction htrans with
    | single hpair => exact h.respects _ _ hpair
    | tail _ hpair ih => exact ih.trans (h.respects _ _ hpair)
  exact fun index hcircle => Nat.lt_irrefl _ (hfalls hcircle)

/-- In the order of placing, what a pass waits for stands in front of it. -/
theorem Placed.idxOf_reverse_lt {waits : Nat → List Nat} {before after : Nat} :
    ∀ {placed : List Nat}, Placed waits placed → after ∈ placed → before ∈ waits after →
    placed.reverse.idxOf before < placed.reverse.idxOf after
  | index :: placed, ⟨hnew, hwaits, hrest⟩, hafter, hbefore => by
    rw [List.reverse_cons]
    rcases List.mem_cons.mp hafter with rfl | hafter
    · have hplaced : before ∈ placed.reverse := List.mem_reverse.mpr (hwaits hbefore)
      have hnot : after ∉ placed.reverse := fun h => hnew (List.mem_reverse.mp h)
      rw [List.idxOf_append_of_mem hplaced, List.idxOf_append_of_notMem hnot]
      exact Nat.lt_add_right _ (List.idxOf_lt_length_of_mem hplaced)
    · have hlt := Placed.idxOf_reverse_lt hrest hafter hbefore
      have hplaced : after ∈ placed.reverse := List.mem_reverse.mpr hafter
      have hearlier : before ∈ placed.reverse :=
        List.idxOf_lt_length_iff.mp (hlt.trans (List.idxOf_lt_length_of_mem hplaced))
      rwa [List.idxOf_append_of_mem hplaced, List.idxOf_append_of_mem hearlier]

/-! ## 3. The path of the search -/

/-- The path while `wanted` are visited: each pass on it is waited for by the one below, and the
innermost one waits for the wanted ones. -/
structure Search.Underway (waits : Nat → List Nat) (path wanted : List Nat) : Prop where
  chain : path.IsChain fun before after => before ∈ waits after
  wanted : ∀ after ∈ path.head?, wanted ⊆ waits after

/-- Entering a pass: it is waited for by the one below, and waits for those that are visited next. -/
theorem Search.Underway.enter {waits : Nat → List Nat} {path : List Nat} {index : Nat} {rest : List Nat}
    (h : Search.Underway waits path (index :: rest)) :
    Search.Underway waits (index :: path) (waits index) := by
  refine ⟨List.isChain_cons.mpr ⟨fun after hafter => ?_, h.chain⟩, ?_⟩
  · exact h.wanted after hafter List.mem_cons_self
  · rintro _ ⟨⟩
    exact List.Subset.refl _

theorem Search.Underway.rest {waits : Nat → List Nat} {path : List Nat} {index : Nat} {rest : List Nat}
    (h : Search.Underway waits path (index :: rest)) : Search.Underway waits path rest :=
  ⟨h.chain, fun after hafter => fun _ hi => h.wanted after hafter (List.mem_cons_of_mem _ hi)⟩

/-- The part of a path above a pass, with the pass itself, is the beginning of the path. -/
theorem takeWhile_isPrefix {path : List Nat} {index : Nat} (hmem : index ∈ path) :
    path.takeWhile (· != index) ++ [index] <+: path := by
  induction path with
  | nil => cases hmem
  | cons p path ih =>
    by_cases hp : p = index
    · subst hp
      simp
    · have hrest : index ∈ path := (List.mem_cons.mp hmem).resolve_left (Ne.symm hp)
      rw [List.takeWhile_cons_of_pos (by simpa using hp), List.cons_append]
      exact (List.prefix_cons_inj p).mpr (ih hrest)

/-- **A pass that is met again** closes a circle. -/
theorem Search.Underway.circle {infos : List PassInfo} {waits : Nat → List Nat}
    (hwaits : ∀ before after, before ∈ waits after → Precedes infos before after)
    {path : List Nat} {index : Nat} {rest : List Nat}
    (h : Search.Underway waits path (index :: rest)) (hmem : index ∈ path) :
    IsCircle infos (Schedule.circle path index) := by
  unfold Schedule.circle
  obtain ⟨below, hpath⟩ := takeWhile_isPrefix hmem
  generalize path.takeWhile (· != index) = above at hpath ⊢
  refine ⟨by rw [List.getLast?_concat]; simp, by simp, ?_⟩
  have hchain : (index :: (above ++ [index])).IsChain fun before after => Precedes infos before after := by
    have hrow := h.enter.chain.imp fun before after => hwaits before after
    rw [← hpath, ← List.cons_append] at hrow
    exact hrow.left_of_append
  rw [show (above ++ [index]).reverse ++ [index] = (index :: (above ++ [index])).reverse by simp]
  exact List.isChain_reverse.mpr hchain

section Search

variable {dependencies : Array (List Nat)} {infos : List PassInfo} {count : Nat}

mutual

/-- **The circle of a visit** that fails. -/
theorem visit_circle (hlt : ∀ index, ∀ before ∈ waitsFor dependencies index, before < count)
    (hwaits : ∀ before after, before ∈ waitsFor dependencies after → Precedes infos before after) :
    ∀ {fuel index : Nat} {rest : List Nat} {s : Search} {circle : List Nat},
    s.Sound (waitsFor dependencies) count → count < fuel + s.path.length → index < count →
    Search.Underway (waitsFor dependencies) s.path (index :: rest) →
    visit dependencies fuel index s = .error circle → IsCircle infos circle
  | 0, _, _, _, _, _, _, _, _, h => by
    rw [visit] at h
    cases h
  | fuel + 1, index, rest, s, circle, hs, hfuel, hindex, hunderway, h => by
    rw [visit] at h
    split at h
    · cases h
    · rename_i hplaced
      split at h
      · rename_i hpath
        obtain rfl := Except.error.inj h
        exact hunderway.circle hwaits (by simpa using hpath)
      · rename_i hpath
        have hentered := hs.enter hindex (by simpa using hplaced) (by simpa using hpath)
        rcases bind_eq_error.mp h with h | ⟨_, _, h⟩
        · exact visitAll_circle hlt hwaits hentered (by simp only [List.length_cons]; omega)
            (hlt index) hunderway.enter h
        · cases h

/-- The circle of several visits, one of which fails. -/
theorem visitAll_circle (hlt : ∀ index, ∀ before ∈ waitsFor dependencies index, before < count)
    (hwaits : ∀ before after, before ∈ waitsFor dependencies after → Precedes infos before after) :
    ∀ {fuel : Nat} {wanted : List Nat} {s : Search} {circle : List Nat},
    s.Sound (waitsFor dependencies) count → count < fuel + s.path.length →
    (∀ index ∈ wanted, index < count) → Search.Underway (waitsFor dependencies) s.path wanted →
    visitAll dependencies fuel wanted s = .error circle → IsCircle infos circle
  | fuel, [], s, circle, _, _, _, _, h => by
    rw [visitAll] at h
    cases h
  | fuel, index :: rest, s, circle, hs, hfuel, hwanted, hunderway, h => by
    obtain ⟨hindex, hrest⟩ := List.forall_mem_cons.mp hwanted
    rw [visitAll] at h
    rcases bind_eq_error.mp h with h | ⟨s1, hvisit, h⟩
    · exact visit_circle hlt hwaits hs hfuel hindex hunderway h
    · have h1 := visit_places hlt hs hfuel hindex hvisit
      exact visitAll_circle hlt hwaits h1.sound (h1.path ▸ hfuel) hrest (h1.path ▸ hunderway.rest) h

end

mutual

/-- **The depth of the search** is bounded by the number of passes: a larger budget changes
nothing. -/
theorem visit_budget (hlt : ∀ index, ∀ before ∈ waitsFor dependencies index, before < count) :
    ∀ {fuel index : Nat} {s : Search}, s.Sound (waitsFor dependencies) count →
    count < fuel + s.path.length → index < count →
    visit dependencies (fuel + 1) index s = visit dependencies fuel index s
  | 0, index, s, hs, hfuel, _ => absurd hs.length_path_le (by omega)
  | fuel + 1, index, s, hs, hfuel, hindex => by
    rw [visit, visit]
    split
    · rfl
    · rename_i hplaced
      split
      · rfl
      · rename_i hpath
        have hentered := hs.enter hindex (by simpa using hplaced) (by simpa using hpath)
        rw [@visitAll_budget hlt _ ((dependencies[index]?).getD []) _ hentered
          (by simp only [List.length_cons]; omega) (hlt index)]

/-- The depth of several visits. -/
theorem visitAll_budget (hlt : ∀ index, ∀ before ∈ waitsFor dependencies index, before < count) :
    ∀ {fuel : Nat} {wanted : List Nat} {s : Search}, s.Sound (waitsFor dependencies) count →
    count < fuel + s.path.length → (∀ index ∈ wanted, index < count) →
    visitAll dependencies (fuel + 1) wanted s = visitAll dependencies fuel wanted s
  | fuel, [], s, _, _, _ => by rw [visitAll, visitAll]
  | fuel, index :: rest, s, hs, hfuel, hwanted => by
    obtain ⟨hindex, hrest⟩ := List.forall_mem_cons.mp hwanted
    rw [visitAll, visitAll, visit_budget hlt hs hfuel hindex]
    cases hvisit : visit dependencies fuel index s with
    | error circle => rfl
    | ok s1 =>
      have h1 := visit_places hlt hs hfuel hindex hvisit
      exact visitAll_budget hlt h1.sound (h1.path ▸ hfuel) hrest

end

end Search

/-! ## 4. The answers of the search -/

section Visiting

variable {infos : List PassInfo} {roots : List Nat} {dependencies : List (List Nat)}

theorem Visiting.precedes (h : Visiting infos roots dependencies) (before after : Nat)
    (hwaits : before ∈ waitsFor dependencies.toArray after) : Precedes infos before after :=
  mem_waitsFor_iff.mp ((mem_waitsFor_perm h.dependencies after before).mp hwaits)

/-- **What is found is an order.** -/
theorem Visiting.isOrder (h : Visiting infos roots dependencies) {indices : List Nat}
    (hfrom : orderFrom dependencies.toArray roots = .ok indices) : IsOrder infos indices := by
  obtain ⟨hplaced, hperm⟩ := h.placed hfrom
  refine ⟨hperm, fun before after hpair => ?_⟩
  obtain ⟨_, b, _, hb, _⟩ := id hpair
  have hafter : after ∈ indices.reverse := by
    rw [List.mem_reverse, hperm.mem_iff, List.mem_range]
    exact (List.getElem?_eq_some_iff.mp hb).1
  have hlt := hplaced.idxOf_reverse_lt hafter (mem_waitsFor_iff.mpr hpair)
  rwa [List.reverse_reverse] at hlt

/-- **What is reported is a circle.** -/
theorem Visiting.isCircle (h : Visiting infos roots dependencies) {circle : List Nat}
    (hfrom : orderFrom dependencies.toArray roots = .error circle) : IsCircle infos circle := by
  unfold orderFrom at hfrom
  cases hall : visitAll dependencies.toArray (dependencies.toArray.size + 1) roots ⟨[], []⟩ with
  | ok s =>
    rw [hall] at hfrom
    cases hfrom
  | error found =>
    rw [hall] at hfrom
    obtain rfl := Except.error.inj hfrom
    refine visitAll_circle h.waits_lt h.precedes .start ?_ h.roots_lt ⟨.nil, by simp⟩ hall
    rw [h.size]
    simp

/-- The answer of a search. -/
theorem Visiting.answers (h : Visiting infos roots dependencies) :
    Answers infos ((orderFrom dependencies.toArray roots).mapError (circleError infos)) := by
  cases hfrom : orderFrom dependencies.toArray roots with
  | ok indices =>
    have horder := h.isOrder hfrom
    exact .order horder.acyclic horder
  | error circle =>
    have hcircle := h.isCircle hfrom
    exact .circle hcircle.not_acyclic hcircle

theorem Visiting.budget (h : Visiting infos roots dependencies) {fuel : Nat}
    (hfuel : infos.length + 1 ≤ fuel) :
    visitAll dependencies.toArray fuel roots ⟨[], []⟩ =
      visitAll dependencies.toArray (infos.length + 1) roots ⟨[], []⟩ := by
  induction fuel, hfuel using Nat.le_induction with
  | base => rfl
  | succ fuel hle ih =>
    rw [visitAll_budget h.waits_lt .start (Nat.lt_of_succ_le hle) h.roots_lt, ih]

end Visiting

/-- Nothing is left out of a list if there is something for all elements. -/
theorem map_some_filterMap {α β : Type} {f : α → Option β} : ∀ {as : List α},
    (∀ a ∈ as, (f a).isSome) → (as.filterMap f).map some = as.map f
  | [], _ => rfl
  | a :: as, h => by
    obtain ⟨ha, has⟩ := List.forall_mem_cons.mp h
    obtain ⟨b, hb⟩ := Option.isSome_iff_exists.mp ha
    rw [List.filterMap_cons_some hb, List.map_cons, List.map_cons, map_some_filterMap has, hb]

/-- The passes of an order are the passes, each once. -/
theorem scheduled_perm {passes : List Pass} {indices : List Nat}
    (h : indices.Perm (List.range passes.length)) :
    (indices.filterMap (passes[·]?)).Perm passes ∧
      (indices.filterMap (passes[·]?)).map some = indices.map (passes[·]?) := by
  have hsome : ∀ i ∈ List.range passes.length, (passes[i]?).isSome := by
    intro i hi
    simpa using hi
  have hall : (List.range passes.length).filterMap (passes[·]?) = passes := by
    refine List.map_injective_iff.mpr (fun _ _ => Option.some.inj) ?_
    rw [map_some_filterMap hsome]
    refine List.ext_getElem (by simp) fun i hi _ => ?_
    simp
  exact ⟨(h.filterMap _).trans (.of_eq hall),
    map_some_filterMap fun i hi => hsome i (h.mem_iff.mp hi)⟩

/-- **The scheduler is a topological sort.**  In whatever order passes and the passes they wait for
are visited, the search goes no deeper than there are passes; it finds an order of all passes that
respects all pairs if there is no circle, and names the passes of a circle if there is one.  The
order of declaration and every shuffle are such orders of visiting, and the schedule consists of the
passes in the order that was found, each once. -/
theorem order_topological (infos : List PassInfo) :
    (∀ roots dependencies, Visiting infos roots dependencies →
      (∀ fuel, infos.length + 1 ≤ fuel → visitAll dependencies.toArray fuel roots ⟨[], []⟩ =
        visitAll dependencies.toArray (infos.length + 1) roots ⟨[], []⟩) ∧
      Answers infos ((orderFrom dependencies.toArray roots).mapError (circleError infos))) ∧
    (∀ options, Answers infos (order infos options) ∧
      ∃ roots dependencies, Visiting infos roots dependencies ∧
        order infos options = (orderFrom dependencies.toArray roots).mapError (circleError infos)) ∧
    (∀ options passes, passes.map Pass.info = infos →
      match order infos options with
      | .error e => schedule passes options = .error e
      | .ok indices => ∃ scheduled, schedule passes options = .ok scheduled ∧
          scheduled.Perm passes ∧ scheduled.map some = indices.map (passes[·]?)) := by
  refine ⟨fun roots dependencies h => ⟨fun fuel hfuel => h.budget hfuel, h.answers⟩,
    fun options => ?_, ?_⟩
  · obtain ⟨roots, dependencies, hvisiting, heq⟩ := order_eq infos options
    exact ⟨heq ▸ hvisiting.answers, roots, dependencies, hvisiting, heq⟩
  · rintro options passes rfl
    cases horder : order (passes.map Pass.info) options with
    | error e => simp only [schedule, horder, error_bind]
    | ok indices =>
      obtain ⟨hperm, hsome⟩ := @scheduled_perm passes _
        (by simpa using (order_placed horder).2)
      exact ⟨_, by simp only [schedule, horder, ok_bind]; rfl, hperm, hsome⟩

/-- Two passes that need each other, and the circle that is reported for them. -/
example : order [⟨"a", ["x"], ["y"], []⟩, ⟨"b", ["y"], ["x"], []⟩] {} =
    .error ⟨.topology ["a", "b", "a"], none⟩ := by cbv

/-! ## 5. Trees that compile under every schedule -/

/-- The standard passes can run in the order of their declaration. -/
theorem isOrder_standard : IsOrder standardInfos (List.range 15) := by
  have hpairs : ∀ before < 15, ∀ after < 15,
      before ∈ waitsFor (dependenciesOf standardInfos).toArray after → before < after := by
    decide +kernel
  have hidxOf : ∀ index < 15, (List.range 15).idxOf index = index := by
    decide
  refine ⟨.refl _, fun before after hpair => ?_⟩
  obtain ⟨_, _, hbefore, hafter, -⟩ := id hpair
  have hbefore : before < 15 := (List.getElem?_eq_some_iff.mp hbefore).1
  have hafter : after < 15 := (List.getElem?_eq_some_iff.mp hafter).1
  rw [hidxOf before hbefore, hidxOf after hafter]
  exact hpairs before hbefore after hafter (mem_waitsFor_iff.mpr hpair)

/-- **The standard passes have a schedule**, whatever the options. -/
theorem exists_schedule (options : ScheduleOptions) : ∃ front ∈ frontIndices,
    schedule standardPasses options = .ok (frontPasses front ++ backPasses) := by
  obtain ⟨roots, dependencies, hvisiting, heq⟩ := order_eq standardInfos options
  have hanswers : Answers standardInfos (order standardInfos options) := heq ▸ hvisiting.answers
  cases horder : order standardInfos options with
  | error e =>
    rw [horder] at hanswers
    cases hanswers with
    | circle hcircle _ => exact absurd isOrder_standard.acyclic hcircle
  | ok indices =>
    have hschedule : schedule standardPasses options = .ok (indices.filterMap (standardPasses[·]?)) := by
      have hinfos : order (standardPasses.map (·.info)) options = .ok indices := horder
      rw [schedule, hinfos]
      rfl
    obtain ⟨front, hfront, hpasses⟩ := schedule_eq hschedule
    exact ⟨front, hfront, hschedule.trans (congrArg Except.ok hpasses)⟩

/-- Whether a raw tree goes through all passes: the first ones make the same tree of it in all their orders,
and the others make a tree of that whose symbols can be collected. -/
def accepts (unit text : String) (raw : Node) : Bool :=
  (Compiler.simplified raw).toOption.any fun tree =>
    ((frontPasses [0, 1, 2, 3]).foldlM (Compiler.runPass unit) tree).toOption.any fun bound =>
      frontIndices.all (fun front =>
        ((frontPasses front).foldlM (Compiler.runPass unit) tree).toOption == some bound) &&
      (backPasses.foldlM (Compiler.runPass unit) bound).toOption.any fun lowered =>
        (Compiler.collect lowered unit text).toOption.isSome

/-- A text compiles under every schedule if its raw tree goes through all passes. -/
theorem compile_of_accepts {unit text : String} {raw : Node} (hread : Language.read text = .ok raw)
    (haccepts : accepts unit text raw = true) (options : ScheduleOptions) :
    ∃ archive, Compiler.compile text unit options = .ok archive := by
  obtain ⟨tree, htree, haccepts⟩ := exists_of_toOption_any haccepts
  obtain ⟨bound, -, haccepts⟩ := exists_of_toOption_any haccepts
  obtain ⟨hfronts, hback⟩ := Bool.and_eq_true_iff.mp haccepts
  obtain ⟨lowered, hlowered, hcollect⟩ := exists_of_toOption_any hback
  obtain ⟨archive, harchive⟩ := Option.isSome_iff_exists.mp hcollect
  obtain ⟨front, hfront, hschedule⟩ := exists_schedule options
  have hbound := eq_ok_of_toOption (eq_of_beq (List.all_eq_true.mp hfronts front hfront))
  refine ⟨archive, ?_⟩
  rw [Compiler.compile, Compiler.lower, hread, ok_bind, htree, ok_bind, hschedule, ok_bind, List.foldlM_append,
    hbound, ok_bind, hlowered, ok_bind]
  exact eq_ok_of_toOption harchive

end Lode.Schedule
