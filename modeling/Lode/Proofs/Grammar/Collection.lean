/-
# The item sets of a grammar are its canonical collection

The exploration numbers an item set when it first meets it, and so only sets that a move of an earlier set
leads to (`Numbered.reached`).  With the invariant of the exploration this says what its result is: the sets
that can be reached from the closure of the start item, without repetition, and every move between them
(`exploration_canonical`).

The canonical collection is usually defined as a least fixed point; here it is what the properties of
`Collection` determine.  The first set is the closure of the start item, every set is reached from it by
moves, the moves of a set lead over exactly the symbols behind points to the closures of the kernels, and no
set occurs twice.  That each number but the first was given on the way from a smaller one makes reachability
an induction on numbers (`Numbered.reachable`).

The bound on the rounds does not matter either: more of them find nothing more (`explore_eq_exploration`).
-/
import Lode.Proofs.Grammar.Automaton
import Mathlib.Logic.Relation

namespace Lode

open Sorted (find?)

/-! ## 1. What is numbered was reached -/

namespace Grammar

variable {g : Grammar} {e : Exploration}

/-- The target of a move between numbered sets. -/
def Exploration.goto? (e : Exploration) (s : StateId) (X : Symbol) : Option StateId :=
  (e.moves[s]?).bind (find? X)

/-- Some move leads from the one set to the other. -/
def Exploration.Moves (e : Exploration) (s t : StateId) : Prop := ∃ X, e.goto? s X = some t

/-- A set gets the next number, or has a smaller one. -/
theorem size_number (e : Exploration) (items : List Item) :
    (e.number items).1 < e.sets.size ∧ (e.number items).2.sets.size = e.sets.size ∨
      (e.number items).1 = e.sets.size ∧ (e.number items).2.sets.size = e.sets.size + 1 := by
  unfold Exploration.number
  split
  · rename_i id hid
    exact .inl ⟨(Array.findIdx?_eq_some_iff_getElem.mp hid).1, rfl⟩
  · exact .inr ⟨rfl, Array.size_push _⟩

/-- A number that is new after exploring the moves of a state is the target of one of them. -/
theorem mem_exploreMoves {t : StateId} : ∀ (kernels : List (Symbol × List Item)) (e : Exploration),
    e.sets.size ≤ t → t < (g.exploreMoves kernels e).2.sets.size →
    ∃ X, (X, t) ∈ (g.exploreMoves kernels e).1
  | [], _, hle, hlt => absurd hlt (Nat.not_lt.mpr hle)
  | (X, kernel) :: kernels, e, hle, hlt => by
    by_cases ht : t = (e.number (g.closure kernel)).1
    · subst ht
      exact ⟨X, List.mem_cons_self⟩
    · have hnext : (e.number (g.closure kernel)).2.sets.size ≤ t := by
        rcases size_number e (g.closure kernel) with ⟨-, hsize⟩ | ⟨hid, hsize⟩
        · rwa [hsize]
        · rw [hsize]
          exact Nat.lt_of_le_of_ne hle fun heq => ht (heq.symm.trans hid.symm)
      obtain ⟨Y, hY⟩ := mem_exploreMoves kernels _ hnext hlt
      exact ⟨Y, List.mem_cons_of_mem _ hY⟩

/-- The states that were explored have numbers, and every number but the first was given on the way from
a smaller one. -/
structure Numbered (e : Exploration) : Prop where
  bound : e.moves.size ≤ e.sets.size
  reached : ∀ t, 0 < t → t < e.sets.size → ∃ s < t, ∃ moves X, e.moves[s]? = some moves ∧ (X, t) ∈ moves

/-- Exploring one more state gives numbers on the way from it. -/
theorem Numbered.exploreOne (h : Numbered e) (hsound : g.Sound e) {items : List Item}
    (hitems : e.sets[e.moves.size]? = some items) :
    let r := g.exploreMoves (g.kernels items) e
    Numbered { r.2 with moves := r.2.moves.push r.1 } := by
  obtain ⟨-, hmoves, -, hkeep, -⟩ := exploreMoves_spec (g := g) (g.kernels items) e hsound.nodup
  have hlt := (Array.getElem?_eq_some_iff.mp hitems).1
  refine ⟨?_, fun t hpos ht => ?_⟩
  · rw [Array.size_push, hmoves]
    exact (Array.getElem?_eq_some_iff.mp (hkeep _ _ hitems)).1
  · simp only [hmoves]
    by_cases hold : t < e.sets.size
    · obtain ⟨s, hs, moves, X, hget, hmem⟩ := h.reached t hpos hold
      refine ⟨s, hs, moves, X, ?_, hmem⟩
      rw [Array.getElem?_push_lt (Array.getElem?_eq_some_iff.mp hget).1]
      exact congrArg some (Array.getElem?_eq_some_iff.mp hget).2
    · obtain ⟨X, hX⟩ := mem_exploreMoves (g.kernels items) e (Nat.le_of_not_lt hold) ht
      exact ⟨e.moves.size, Nat.lt_of_lt_of_le hlt (Nat.le_of_not_lt hold), _, X,
        Array.getElem?_push_size, hX⟩

/-- Numbers are given on the way from smaller ones, for any number of rounds. -/
theorem Numbered.explore : ∀ (fuel : Nat) {e : Exploration}, Numbered e → g.Sound e →
    Numbered (g.explore fuel e)
  | 0, _, h, _ => h
  | fuel + 1, e, h, hsound => by
    simp only [Grammar.explore]
    split
    · exact h
    · rename_i items hitems
      exact Numbered.explore fuel (h.exploreOne hsound hitems) (hsound.exploreOne hitems)

theorem numbered_exploration (hstart : g.startRule < g.rules.length) : Numbered g.exploration :=
  Numbered.explore _ ⟨Nat.zero_le _, fun t hpos ht => absurd hpos (by simpa using ht)⟩
    (sound_initial hstart)

/-! ## 2. The exploration comes to rest -/

theorem explore_of_size_le (h : e.sets.size ≤ e.moves.size) : ∀ fuel, g.explore fuel e = e
  | 0 => rfl
  | fuel + 1 => by
    simp only [Grammar.explore, Array.getElem?_eq_none_iff.mpr h]

/-- Rounds can be counted in two parts. -/
theorem explore_add (n : Nat) : ∀ (m : Nat) (e : Exploration),
    g.explore (m + n) e = g.explore n (g.explore m e)
  | 0, e => by rw [Nat.zero_add]; rfl
  | m + 1, e => by
    rw [Nat.succ_add]
    simp only [Grammar.explore]
    split
    · rename_i hnone
      exact (explore_of_size_le (Array.getElem?_eq_none_iff.mp hnone) n).symm
    · exact explore_add n m _

/-- More rounds than sets of items find nothing more. -/
theorem explore_eq_exploration (hstart : g.startRule < g.rules.length) {fuel : Nat}
    (hfuel : 2 ^ g.itemCount < fuel) :
    g.explore fuel ⟨#[g.closure [⟨g.startRule, 0⟩]], #[]⟩ = g.exploration := by
  obtain ⟨more, rfl⟩ := Nat.exists_eq_add_of_le hfuel
  rw [explore_add]
  exact explore_of_size_le (exploration_complete hstart).2 more

/-! ## 3. The canonical collection -/

/-- The item sets by number, and the moves between them, are all that can be reached from the start. -/
structure Collection (g : Grammar) (e : Exploration) : Prop where
  /-- Every numbered set was explored. -/
  explored : e.moves.size = e.sets.size
  /-- No two numbers have sets with the same items. -/
  distinct : ∀ (s t : StateId) items items', e.sets[s]? = some items → e.sets[t]? = some items' →
    (∀ i, i ∈ items ↔ i ∈ items') → s = t
  /-- The sets are closed under prediction. -/
  closed : ∀ (s : StateId) items, e.sets[s]? = some items → ∀ i ∈ items, ∀ id < g.rules.length,
    i.Before g (.nonterminal (g.rule id).lhs) → ⟨id, 0⟩ ∈ items
  /-- The first set is what the start item predicts. -/
  start : ∃ items, e.sets[0]? = some items ∧ ∀ i, i ∈ items ↔ g.Predicts (· = ⟨g.startRule, 0⟩) i
  reachable : ∀ s < e.sets.size, Relation.ReflTransGen e.Moves 0 s
  /-- A set has a move over a symbol exactly if the symbol stands after a point. -/
  move : ∀ (s : StateId) items X, e.sets[s]? = some items →
    ((∃ t, e.goto? s X = some t) ↔ ∃ i ∈ items, i.Before g X)
  /-- A move leads to what the advanced items predict. -/
  target : ∀ s X t, e.goto? s X = some t → ∃ items items', e.sets[s]? = some items ∧
    e.sets[t]? = some items' ∧
    ∀ j, j ∈ items' ↔ g.Predicts (fun j => ∃ i ∈ items, i.Before g X ∧ j = i.advance) j

theorem Sound.increasingKeys (h : g.Sound e) {s : StateId} {moves : List (Symbol × StateId)}
    (hs : e.moves[s]? = some moves) : Sorted.IncreasingKeys moves := by
  obtain ⟨items, -, hleads⟩ := h.leads s moves hs
  unfold Sorted.IncreasingKeys
  rw [Automaton.keys_leads hleads]
  exact g.kernels_increasing items

/-- **Every state is reached from the first**, by induction on its number. -/
theorem Numbered.reachable (h : Numbered e) (hsound : g.Sound e) (s : StateId) (hs : s < e.sets.size) :
    Relation.ReflTransGen e.Moves 0 s := by
  induction s using Nat.strong_induction_on with
  | _ s ih =>
    rcases Nat.eq_zero_or_pos s with rfl | hpos
    · exact .refl
    · obtain ⟨r, hr, moves, X, hmoves, hX⟩ := h.reached s hpos hs
      refine (ih r hr (Nat.lt_trans hr hs)).tail ⟨X, ?_⟩
      rw [Exploration.goto?, hmoves]
      exact Sorted.find?_of_mem (hsound.increasingKeys hmoves) hX

/-- **The exploration finds the canonical collection.** -/
theorem exploration_canonical (hstart : g.startRule < g.rules.length) : g.Collection g.exploration := by
  obtain ⟨hsound, hdone⟩ := exploration_complete hstart
  have hnumbered := numbered_exploration hstart
  have hstate : ∀ {s : StateId} {items}, g.exploration.sets[s]? = some items → g.IsState items :=
    fun hs => hsound.isState _ (Array.mem_of_getElem? hs)
  refine ⟨Nat.le_antisymm hnumbered.bound hdone, ?_, ?_, ?_, hnumbered.reachable hsound, ?_, ?_⟩
  · intro s t items items' hs ht heq
    obtain rfl := (hstate hs).increasing.eq_of_mem_iff (hstate ht).increasing heq
    have hlt := (Array.getElem?_eq_some_iff.mp hs).1
    exact (List.getElem?_inj (by simpa using hlt) hsound.nodup).mp
      (by rw [Array.getElem?_toList, Array.getElem?_toList, hs, ht])
  · intro s items hs i hi id hid hbefore
    obtain ⟨kernel, rfl, -⟩ := hstate hs
    exact mem_closure.mpr (.rule (mem_closure.mp hi) hid hbefore)
  · refine ⟨_, hsound.start, fun i => ?_⟩
    rw [mem_closure]
    simp only [List.mem_singleton]
  · intro s items X hs
    have hlt := Nat.lt_of_lt_of_le (Array.getElem?_eq_some_iff.mp hs).1 hdone
    obtain ⟨items', hs', hleads⟩ := hsound.leads s _ (Array.getElem?_eq_getElem hlt)
    obtain rfl := Option.some.inj (hs.symm.trans hs')
    rw [← mem_keys_kernels, ← Automaton.keys_leads hleads, ← Sorted.find?_isSome_iff,
      Option.isSome_iff_exists, Exploration.goto?, Array.getElem?_eq_getElem hlt, Option.bind_some]
  · intro s X t hgoto
    obtain ⟨moves, hmoves, hfind⟩ := Option.bind_eq_some_iff.mp hgoto
    obtain ⟨items, hitems, hleads⟩ := hsound.leads s moves hmoves
    obtain ⟨kernel, hk, ht⟩ := Automaton.find?_leads hleads hfind
    refine ⟨items, _, hitems, ht, fun j => ?_⟩
    rw [mem_closure]
    simp only [mem_kernel hk]

end Grammar

end Lode
