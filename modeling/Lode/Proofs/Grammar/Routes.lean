/-
# The walks of a rule are its routes

A route of a row of slots is a list of the states that some choice of symbols passes.  The walks of a rule
are its routes from the state (`mem_walks`), each once (`nodup_walks`), with all symbols between two states
in the place of the slot.  Over the automaton of a grammar no walk gets stuck, so the path rules are the
routes of the rules that its states predict (`collection_and_routes`).

A slot may hold several symbols, and these may lead to the same state or to different ones.  The code goes
through the symbols of a slot and groups them by their targets; a walk then takes one group for every slot.
Two symbols in one group are two choices but one walk, which is why routes are lists of states: they are
what a walk determines.  That no walk is found twice is because groups of different targets have nothing in
common, and none of them is empty (`between_ne`).
-/
import Lode.Proofs.Grammar.Collection
import Lode.Proofs.Grammar.Table
import Mathlib.Data.List.Sigma

namespace Lode

open Sorted (find?)

namespace Automaton

variable {g : Grammar} {a : Automaton}

/-! ## 1. Routes -/

/-- The states that a choice of one symbol for every slot passes. -/
inductive Route (a : Automaton) : List Slot → StateId → List StateId → Prop
  | nil {s : StateId} : Route a [] s []
  | cons {slot : Slot} {slots : List Slot} {s t : StateId} {route : List StateId} {X : Symbol} :
      X ∈ slot.symbols → a.goto? s X = some t → Route a slots t route → Route a (slot :: slots) s (t :: route)

/-- The symbols of a slot that lead from one state to another. -/
def between (a : Automaton) (slot : Slot) (s t : StateId) : List PathSymbol :=
  (slot.symbols.filter fun X => a.goto? s X = some t).map fun X => ⟨s, X, some t⟩

/-- The places of a row of slots along a route. -/
def along (a : Automaton) : List Slot → StateId → List StateId → List (List PathSymbol)
  | slot :: slots, s, t :: route => a.between slot s t :: a.along slots t route
  | _, _, _ => []

/-- A symbol between two states is one of the slot that leads from the one to the other. -/
theorem mem_between {slot : Slot} {s t : StateId} {x : PathSymbol} :
    x ∈ a.between slot s t ↔ ∃ X ∈ slot.symbols, a.goto? s X = some t ∧ x = ⟨s, X, some t⟩ := by
  simp only [between, List.mem_map, List.mem_filter, decide_eq_true_eq]
  exact ⟨fun ⟨X, ⟨hX, ht⟩, hx⟩ => ⟨X, hX, ht, hx.symm⟩, fun ⟨X, hX, ht, hx⟩ => ⟨X, ⟨hX, ht⟩, hx.symm⟩⟩

/-- A route is a walk, with the symbols between its states. -/
theorem Route.exists_choice {slots : List Slot} {s : StateId} {route : List StateId}
    (h : a.Route slots s route) : a.Path slots s (a.along slots s route) (route.getLastD s) := by
  induction h with
  | nil => exact .nil
  | @cons slot slots s t route X hX hgoto _ ih =>
    rw [List.getLastD_cons]
    exact .cons X hX hgoto (fun _ => mem_between) ih

/-! ## 2. Groups -/

/-- The group of a target holds the symbols that lead to it, in the order of the slot. -/
theorem find?_slotMoves {s t : StateId} : ∀ {symbols : List Symbol}
    {groups : List (StateId × List PathSymbol)}, a.slotMoves s symbols = .ok groups →
    (find? t groups).getD [] =
      (symbols.filter fun X => a.goto? s X = some t).map fun X => ⟨s, X, some t⟩
  | [], groups, h => by
    simp only [slotMoves, Except.ok.injEq] at h
    subst h
    rfl
  | Y :: symbols, groups, h => by
    simp only [slotMoves] at h
    split at h
    · simp at h
    · rename_i u hu
      obtain ⟨groups', hgroups', h⟩ := bind_eq_ok.mp h
      simp only [pure, Except.pure, Except.ok.injEq] at h
      subst h
      have ih := find?_slotMoves (t := t) hgroups'
      have hinc := (slotMoves_spec hgroups').1
      by_cases ht : t = u
      · subst ht
        rw [Sorted.find?_alter_self _ _ hinc, Option.getD_some, ih,
          List.filter_cons_of_pos (by simpa using hu), List.map_cons]
      · rw [Sorted.find?_alter_ne ht, ih, List.filter_cons_of_neg (by simpa [hu] using Ne.symm ht)]

/-- A slot has one group for every target. -/
theorem mem_slotMoves {slot : Slot} {s t : StateId} {groups : List (StateId × List PathSymbol)}
    (h : a.slotMoves s slot.symbols = .ok groups) {symbols : List PathSymbol} :
    (t, symbols) ∈ groups ↔ (∃ X ∈ slot.symbols, a.goto? s X = some t) ∧ symbols = a.between slot s t := by
  obtain ⟨hinc, hkeys, -, -⟩ := slotMoves_spec h
  have hgroup := find?_slotMoves (t := t) h
  rw [← hkeys t]
  constructor
  · intro hmem
    rw [Sorted.find?_of_mem hinc hmem, Option.getD_some] at hgroup
    exact ⟨List.mem_map.mpr ⟨_, hmem, rfl⟩, hgroup⟩
  · rintro ⟨hkey, rfl⟩
    obtain ⟨symbols, hfind⟩ := Option.isSome_iff_exists.mp (Sorted.find?_isSome_iff.mpr hkey)
    rw [hfind, Option.getD_some] at hgroup
    rw [between, ← hgroup]
    exact Sorted.mem_of_find? hfind

/-! ## 3. Walks -/

/-- **The walks of a row of slots are its routes.** -/
theorem mem_walks : ∀ {slots : List Slot} {s final : StateId} {path : List (List PathSymbol)}
    {found : List (List (List PathSymbol) × StateId)}, a.walks slots s = .ok found →
    ((path, final) ∈ found ↔
      ∃ route, a.Route slots s route ∧ path = a.along slots s route ∧ final = route.getLastD s)
  | [], s, final, path, found, h => by
    simp only [walks, Except.ok.injEq] at h
    subst h
    rw [List.mem_singleton, Prod.mk.injEq]
    constructor
    · rintro ⟨rfl, rfl⟩
      exact ⟨[], .nil, rfl, rfl⟩
    · rintro ⟨_, ⟨⟩, rfl, rfl⟩
      exact ⟨rfl, rfl⟩
  | slot :: slots, s, final, path, found, h => by
    obtain ⟨groups, hgroups, hfound, hhere⟩ := walks_cons h
    rw [hfound]
    constructor
    · rintro ⟨t, symbols, rest, here, ht, hw, hrest, rfl⟩
      obtain ⟨⟨X, hX, hgoto⟩, rfl⟩ := (mem_slotMoves hgroups).mp ht
      obtain ⟨route, hroute, rfl, rfl⟩ := (mem_walks hw).mp hrest
      exact ⟨t :: route, .cons hX hgoto hroute, rfl, (List.getLastD_cons ..).symm⟩
    · rintro ⟨_, @⟨_⟩ | @⟨_, _, _, t, route, X, hX, hgoto, hroute⟩, rfl, rfl⟩
      have ht := (mem_slotMoves hgroups).mpr ⟨⟨X, hX, hgoto⟩, rfl⟩
      obtain ⟨here, hw⟩ := hhere t _ ht
      exact ⟨t, _, _, here, ht, hw, (mem_walks hw).mpr ⟨route, hroute, rfl, List.getLastD_cons ..⟩, rfl⟩

/-- Groups of different targets have nothing in common. -/
theorem between_ne {slot : Slot} {s t u : StateId} (ht : ∃ X ∈ slot.symbols, a.goto? s X = some t)
    (hne : t ≠ u) : a.between slot s t ≠ a.between slot s u := by
  intro heq
  obtain ⟨X, hX, hgoto⟩ := ht
  have hmem : ⟨s, X, some t⟩ ∈ a.between slot s u := heq ▸ mem_between.mpr ⟨X, hX, hgoto, rfl⟩
  obtain ⟨Y, -, -, hY⟩ := mem_between.mp hmem
  exact hne (Option.some.inj (PathSymbol.mk.inj hY).2.2)

/-- No walk is found twice. -/
theorem nodup_walks : ∀ {slots : List Slot} {s : StateId}
    {found : List (List (List PathSymbol) × StateId)}, a.walks slots s = .ok found → found.Nodup
  | [], s, found, h => by
    simp only [walks, Except.ok.injEq] at h
    exact h ▸ List.nodup_singleton _
  | slot :: slots, s, found, h => by
    simp only [walks, bind_eq_ok, pure, Except.pure, Except.ok.injEq] at h
    obtain ⟨groups, hgroups, parts, hparts, rfl⟩ := h
    refine nodup_flatten_of_mapM hparts (fun group _ part hok => ?_) ?_
    · obtain ⟨here, hhere, hok⟩ := bind_eq_ok.mp hok
      obtain rfl := Except.ok.inj hok
      refine List.Nodup.map (fun walk walk' heq => ?_) (nodup_walks hhere)
      simp only [Prod.mk.injEq, List.cons.injEq, true_and] at heq
      exact Prod.ext heq.1 heq.2
    · refine (List.pairwise_map.mp (slotMoves_spec hgroups).1).imp_of_mem ?_
      intro group group' hgroup hgroup' hlt part part' hok hok' walk hmem hmem'
      obtain ⟨here, -, hok⟩ := bind_eq_ok.mp hok
      obtain ⟨here', -, hok'⟩ := bind_eq_ok.mp hok'
      obtain rfl := Except.ok.inj hok
      obtain rfl := Except.ok.inj hok'
      obtain ⟨_, -, rfl⟩ := List.mem_map.mp hmem
      obtain ⟨_, -, heq⟩ := List.mem_map.mp hmem'
      obtain ⟨ht, hsymbols⟩ := (mem_slotMoves hgroups).mp hgroup
      obtain ⟨-, hsymbols'⟩ := (mem_slotMoves hgroups).mp hgroup'
      refine between_ne ht (Sorted.ne_of_lt hlt) ?_
      rw [← hsymbols, ← hsymbols']
      exact (List.cons.inj (Prod.mk.inj heq).1).1.symm

/-! ## 4. The walks of a grammar -/

/-- The walk of a rule along a route from a state. -/
def pathRule (g : Grammar) (a : Automaton) (s : StateId) (id : RuleId) (route : List StateId) : PathRule :=
  ⟨id, lhsPath g a s id, a.along (g.rule id).rhs s route, route.getLastD s⟩

/-- The path rules are the routes of the rules that the states predict, each found once. -/
structure RoutesFound (g : Grammar) (a : Automaton) (paths : List PathRule) : Prop where
  nodup : paths.Nodup
  mem : ∀ path, path ∈ paths ↔ ∃ s id route, ⟨id, 0⟩ ∈ a.items s ∧
    a.Route (g.rule id).rhs s route ∧ path = a.pathRule g s id route

/-- No rule begins twice in a state. -/
theorem nodup_pathStarts (hitems : ∀ s, (a.items s).Nodup) : a.pathStarts.Nodup := by
  refine List.nodup_flatMap.mpr ⟨fun (state, s) hmem => ?_, ?_⟩
  · have hstate : a.items s = state.items := by
      rw [List.mem_zipIdx_iff_getElem?, Array.getElem?_toList] at hmem
      simp only [Automaton.items, hmem]
    refine ((hstate ▸ hitems s).filter _).map_on fun item hitem item' hitem' heq => ?_
    have hpoint := (List.mem_filter.mp hitem).2
    have hpoint' := (List.mem_filter.mp hitem').2
    obtain ⟨id, point⟩ := item
    obtain ⟨id', point'⟩ := item'
    simp_all
  · refine (List.pairwise_map.mp (List.nodup_zipIdx_map_snd a.states.toList)).imp ?_
    intro entry entry' hne start hmem hmem'
    obtain ⟨_, -, rfl⟩ := List.mem_map.mp hmem
    obtain ⟨_, -, heq⟩ := List.mem_map.mp hmem'
    exact hne (Prod.mk.inj heq).1.symm

/-- The path rules are the routes, if no state has an item twice. -/
theorem routesFound {paths : List PathRule} (hitems : ∀ s, (a.items s).Nodup)
    (h : a.pathRules g = .ok paths) : a.RoutesFound g paths := by
  constructor
  · obtain ⟨found, hfound, rfl⟩ := pathRules_eq_ok.mp h
    refine nodup_flatten_of_mapM hfound (fun start _ part hok => ?_)
      ((nodup_pathStarts hitems).imp fun hne part part' hok hok' path hmem hmem' => hne ?_)
    · obtain ⟨walks, hwalks, rfl⟩ := pathRulesOf_eq_ok.mp hok
      refine List.Nodup.map (fun walk walk' heq => ?_) (nodup_walks hwalks)
      simp only [PathRule.mk.injEq, true_and] at heq
      exact Prod.ext heq.1 heq.2
    · obtain ⟨walks, -, rfl⟩ := pathRulesOf_eq_ok.mp hok
      obtain ⟨walks', -, rfl⟩ := pathRulesOf_eq_ok.mp hok'
      obtain ⟨_, -, rfl⟩ := List.mem_map.mp hmem
      obtain ⟨_, -, heq⟩ := List.mem_map.mp hmem'
      simp only [PathRule.mk.injEq, lhsPath, PathSymbol.mk.injEq] at heq
      exact Prod.ext heq.2.1.1.symm heq.1.symm
  · intro path
    rw [mem_pathRules h]
    constructor
    · rintro ⟨s, id, found, rhs, final, hitem, hfound, hmem, rfl⟩
      obtain ⟨route, hroute, rfl, rfl⟩ := (mem_walks hfound).mp hmem
      exact ⟨s, id, route, hitem, hroute, rfl⟩
    · rintro ⟨s, id, route, hitem, hroute, rfl⟩
      obtain ⟨found, hfound, -⟩ := pathRules_eq_ok.mp h
      obtain ⟨_, -, hok⟩ := exists_mem_mapM hfound (mem_pathStarts.mpr hitem)
      obtain ⟨walks, hwalks, -⟩ := pathRulesOf_eq_ok.mp hok
      exact ⟨s, id, walks, _, _, hitem, hwalks, (mem_walks hwalks).mpr ⟨route, hroute, rfl, rfl⟩, rfl⟩

theorem nodup_items (h : ofGrammar g = .ok a) (hstart : g.startRule < g.rules.length) (s : StateId) :
    (a.items s).Nodup := by
  rcases hitems : a.items s with _ | ⟨i, items⟩
  · exact List.nodup_nil
  · rw [← hitems]
    exact (isState_of_mem h hstart (i := i) (by rw [hitems]; exact List.mem_cons_self)).2.increasing.nodup

/-- The automaton keeps the item sets and moves that were explored. -/
theorem exploration_kept (h : ofGrammar g = .ok a) (hstart : g.startRule < g.rules.length) :
    (∀ s : StateId, (a.states[s]?).map State.items = g.exploration.sets[s]?) ∧
      ∀ s X, a.goto? s X = g.exploration.goto? s X := by
  have hsize := (Grammar.exploration_canonical hstart).explored
  have hstate : ∀ s : StateId, a.states[s]? = none → g.exploration.sets[s]? = none := fun s hs => by
    rw [states_eq h, Array.getElem?_eq_none_iff, Array.size_map, Array.size_zip, hsize, min_self] at hs
    exact Array.getElem?_eq_none_iff.mpr hs
  refine ⟨fun s => ?_, fun s X => ?_⟩
  · cases hs : a.states[s]? with
    | none => exact (hstate s hs).symm
    | some state => exact (getElem?_states h s state hs).1.symm
  · unfold goto? Grammar.Exploration.goto?
    cases hs : a.states[s]? with
    | none =>
      rw [Array.getElem?_eq_none_iff.mpr (hsize ▸ Array.getElem?_eq_none_iff.mp (hstate s hs))]
      rfl
    | some state => rw [(getElem?_states h s state hs).2.1]; rfl

/-- **The item sets are the canonical collection, and the path rules the routes through it.**  The
exploration comes to rest at the canonical collection.  An automaton keeps its sets and moves, and no walk
over it gets stuck. -/
theorem collection_and_routes {start : String} {rules : List Rule} {ends : List Terminal} {g : Grammar}
    (h : Grammar.ofRules start rules ends = .ok g) :
    (∀ fuel, 2 ^ g.itemCount < fuel →
      g.explore fuel ⟨#[g.closure [⟨g.startRule, 0⟩]], #[]⟩ = g.exploration) ∧
    g.Collection g.exploration ∧
    ∀ a, ofGrammar g = .ok a →
      (∀ s : StateId, (a.states[s]?).map State.items = g.exploration.sets[s]?) ∧
      (∀ s X, a.goto? s X = g.exploration.goto? s X) ∧
      ∃ paths, a.pathRules g = .ok paths ∧ a.RoutesFound g paths := by
  have hstart := (Grammar.proper_ofRules h).startRule_lt
  refine ⟨fun fuel => Grammar.explore_eq_exploration hstart, Grammar.exploration_canonical hstart,
    fun a ha => ?_⟩
  obtain ⟨hsets, hmoves⟩ := exploration_kept ha hstart
  obtain ⟨paths, hpaths⟩ := pathRules_ok (tracks_ofGrammar ha hstart)
  exact ⟨hsets, hmoves, paths, hpaths, routesFound (nodup_items ha hstart) hpaths⟩

theorem exists_ofGrammar_letters : ∃ a, ofGrammar Grammar.letters = .ok a := by
  have hmodes : modeProblems Grammar.letters Grammar.letters.exploration.sets.toList = [] := by decide +kernel
  simp only [ofGrammar, hmodes]
  exact ⟨_, rfl⟩

theorem collection_and_routes_letters :
    Grammar.ofRules "text" Grammar.letters.rules [.eof] = .ok Grammar.letters ∧
      Grammar.letters.Collection Grammar.letters.exploration ∧
      ∃ a paths, ofGrammar Grammar.letters = .ok a ∧ a.pathRules Grammar.letters = .ok paths ∧
        a.RoutesFound Grammar.letters paths := by
  obtain ⟨a, ha⟩ := exists_ofGrammar_letters
  obtain ⟨-, hcollection, hwalks⟩ := collection_and_routes Grammar.ofRules_letters
  obtain ⟨-, -, paths, hpaths, hroutes⟩ := hwalks a ha
  exact ⟨Grammar.ofRules_letters, hcollection, a, paths, ha, hpaths, hroutes⟩

end Automaton

end Lode
