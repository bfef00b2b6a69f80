/-
# What the item-set automaton is

The exploration numbers item sets as it finds them.  Its invariant (`Grammar.Sound`) says that every set
is the closure of a kernel, that no set has two numbers, and that the moves of an explored state lead to the
closures of its kernels.  There are at most as many sets as sets of items, so the rounds of `explore`
suffice and at the end every state has been explored (`exploration_complete`).

The bound is worth a remark.  The budget of the exploration is a power of two of the number of items, and no
run comes near it.  What is shown is only that it is enough: the sets that are numbered differ, they are
lists in increasing order, and so they are different subsets of the items of the grammar (`Sound.size_le`).

The rest of the theory sees the automaton only through the statements of section 5: where a move exists,
which items its target holds, and that every state is closed under prediction.  They are collected in
`Tracks`, of which two more facts follow by going back over a move: an item that has read something was
moved over the symbol that led to its state (`retreat_mem`), and nothing has been read in state zero
(`point_eq_zero`).
-/
import Lode.Proofs.Grammar.Closure
import Mathlib.Data.Finset.Powerset

namespace Lode

open Sorted (find? IncreasingKeys)

/-! ## 1. Kernels -/

namespace Grammar

variable {g : Grammar}

/-- The moves of one item over the symbols of the slot after its point. -/
def addMoves (item : Item) (symbols : List Symbol) (moves : List (Symbol × List Item)) :
    List (Symbol × List Item) :=
  symbols.foldl (fun moves symbol =>
    Sorted.alter symbol (fun old => Sorted.insert item.advance (old.getD [])) moves) moves

theorem addMoves_increasing (item : Item) : ∀ (symbols : List Symbol)
    {moves : List (Symbol × List Item)}, IncreasingKeys moves →
    IncreasingKeys (addMoves item symbols moves)
  | [], _, h => h
  | _ :: symbols, _, h => addMoves_increasing item symbols (Sorted.increasingKeys_alter _ _ h)

theorem mem_keys_addMoves (item : Item) {X : Symbol} : ∀ (symbols : List Symbol)
    (moves : List (Symbol × List Item)),
    X ∈ (addMoves item symbols moves).map Prod.fst ↔ X ∈ symbols ∨ X ∈ moves.map Prod.fst
  | [], _ => by simp [addMoves]
  | Y :: symbols, moves => by
    have ih := mem_keys_addMoves item (X := X) symbols
      (Sorted.alter Y (fun old => Sorted.insert item.advance (old.getD [])) moves)
    simp only [addMoves, List.foldl_cons] at ih ⊢
    rw [ih, Sorted.mem_keys_alter, List.mem_cons]
    tauto

/-- Which items one item adds to the kernels: itself, with the point moved on. -/
theorem mem_find?_addMoves (item : Item) {X : Symbol} {j : Item} : ∀ (symbols : List Symbol)
    {moves : List (Symbol × List Item)}, IncreasingKeys moves →
    (j ∈ (find? X (addMoves item symbols moves)).getD [] ↔
      (X ∈ symbols ∧ j = item.advance) ∨ j ∈ (find? X moves).getD [])
  | [], _, _ => by simp [addMoves]
  | Y :: symbols, moves, h => by
    have ih := mem_find?_addMoves item (X := X) (j := j) symbols
      (Sorted.increasingKeys_alter Y (fun old => Sorted.insert item.advance (old.getD [])) h)
    simp only [addMoves, List.foldl_cons] at ih ⊢
    rw [ih, List.mem_cons]
    by_cases hXY : X = Y
    · subst hXY
      rw [Sorted.find?_alter_self _ _ h, Option.getD_some, Sorted.mem_insert]
      tauto
    · rw [Sorted.find?_alter_ne hXY]
      simp [hXY]

/-- The kernels are found by adding the moves of one item after the other. -/
theorem kernels_eq (items : List Item) : g.kernels items =
    items.foldl (fun moves item =>
      match item.next? g with
      | none => moves
      | some slot => addMoves item slot.symbols moves) [] := rfl

/-- **The kernels of a set**: over which symbols there are moves, and which items each one holds. -/
theorem kernels_spec (g : Grammar) : ∀ (items : List Item) (moves : List (Symbol × List Item)),
    IncreasingKeys moves →
    let result := items.foldl (fun moves item =>
      match item.next? g with
      | none => moves
      | some slot => addMoves item slot.symbols moves) moves
    IncreasingKeys result ∧
    (∀ X, X ∈ result.map Prod.fst ↔ (∃ i ∈ items, i.Before g X) ∨ X ∈ moves.map Prod.fst) ∧
    ∀ X j, j ∈ (find? X result).getD [] ↔
      (∃ i ∈ items, i.Before g X ∧ j = i.advance) ∨ j ∈ (find? X moves).getD []
  | [], _, h => by simpa using h
  | item :: items, moves, h => by
    simp only [List.foldl_cons, List.exists_mem_cons_iff]
    cases hnext : item.next? g with
    | none =>
      have hnot : ∀ X, ¬ item.Before g X := by
        rintro X ⟨slot, hslot, _⟩
        simp [hnext] at hslot
      simpa [hnot] using kernels_spec g items _ h
    | some slot =>
      have hbefore : ∀ X, item.Before g X ↔ X ∈ slot.symbols := by
        intro X
        simp [Item.Before, hnext]
      obtain ⟨hinc, hkeys, hmem⟩ := kernels_spec g items _ (addMoves_increasing item slot.symbols h)
      refine ⟨hinc, fun X => ?_, fun X j => ?_⟩
      · rw [hkeys X, mem_keys_addMoves, hbefore, or_assoc, or_left_comm]
      · rw [hmem X j, mem_find?_addMoves item slot.symbols h, hbefore, or_assoc, or_left_comm]

theorem kernels_increasing (g : Grammar) (items : List Item) : IncreasingKeys (g.kernels items) :=
  (kernels_spec g items [] List.Pairwise.nil).1

/-- The symbols one can move over are those after the points. -/
theorem mem_keys_kernels {items : List Item} {X : Symbol} :
    X ∈ (g.kernels items).map Prod.fst ↔ ∃ i ∈ items, i.Before g X := by
  have := (kernels_spec g items [] List.Pairwise.nil).2.1 X
  rw [← kernels_eq] at this
  simpa using this

/-- A kernel holds the items with the point moved over its symbol. -/
theorem mem_kernel {items kernel : List Item} {X : Symbol} {j : Item}
    (h : (X, kernel) ∈ g.kernels items) :
    j ∈ kernel ↔ ∃ i ∈ items, i.Before g X ∧ j = i.advance := by
  have := (kernels_spec g items [] List.Pairwise.nil).2.2 X j
  rw [← kernels_eq, Sorted.find?_of_mem (kernels_increasing g items) h] at this
  simpa [find?] using this

end Grammar

/-! ## 2. Items within their rules -/

/-- The rule exists and the point lies in its right-hand side or at its end. -/
def Item.Valid (g : Grammar) (i : Item) : Prop :=
  i.rule < g.rules.length ∧ i.point ≤ (g.rule i.rule).rhs.length

/-- An item with something behind its point is one of a rule. -/
theorem Item.Before.lt {g : Grammar} {i : Item} {X : Symbol} (h : i.Before g X) :
    i.rule < g.rules.length ∧ i.point < (g.rule i.rule).rhs.length := by
  obtain ⟨slot, hslot, _⟩ := h
  have hpoint := (List.getElem?_eq_some_iff.mp hslot).1
  refine ⟨?_, hpoint⟩
  by_contra hge
  have : g.rules[i.rule]? = none := List.getElem?_eq_none (Nat.le_of_not_lt hge)
  simp [Grammar.rule, this] at hpoint

theorem Grammar.Predicts.valid {g : Grammar} {kernel : Item → Prop} {i : Item}
    (h : g.Predicts kernel i) (hk : ∀ j, kernel j → j.Valid g) : i.Valid g := by
  cases h with
  | kernel h => exact hk _ h
  | rule _ hlt _ => exact ⟨hlt, Nat.zero_le _⟩

/-- All items of a list of rules whose numbers begin at `from`. -/
def Grammar.itemsFrom : Nat → List Rule → List Item
  | _, [] => []
  | id, rule :: rules =>
    (List.range (rule.rhs.length + 1)).map (⟨id, ·⟩) ++ itemsFrom (id + 1) rules

theorem Grammar.length_itemsFrom : ∀ (id : Nat) (rules : List Rule),
    (itemsFrom id rules).length = rules.foldr (fun rule n => rule.rhs.length + 1 + n) 0
  | _, [] => rfl
  | id, rule :: rules => by simp [itemsFrom, length_itemsFrom (id + 1) rules]

theorem Grammar.mem_itemsFrom {i : Item} {rule : Rule} : ∀ (rules : List Rule) (id k : Nat),
    rules[k]? = some rule → i.rule = id + k → i.point ≤ rule.rhs.length → i ∈ itemsFrom id rules
  | [], _, _, h, _, _ => by simp at h
  | r :: rules, id, 0, h, hid, hpoint => by
    obtain rfl : r = rule := by simpa using h
    refine List.mem_append_left _ (List.mem_map.mpr ⟨i.point, ?_, ?_⟩)
    · exact List.mem_range.mpr (Nat.lt_succ_of_le hpoint)
    · rw [← hid.trans (Nat.add_zero id)]
  | _ :: rules, id, k + 1, h, hid, hpoint =>
    List.mem_append_right _
      (mem_itemsFrom rules (id + 1) k (by simpa using h)
      (by rw [hid, Nat.add_assoc, Nat.add_comm 1]) hpoint)

/-- Valid items are among the items of the grammar. -/
theorem Grammar.mem_itemsFrom_of_valid {g : Grammar} {i : Item} (h : i.Valid g) :
    i ∈ itemsFrom 0 g.rules := by
  have hrule : g.rules[i.rule]? = some (g.rules.get ⟨i.rule, h.1⟩) :=
    List.getElem?_eq_getElem h.1
  refine mem_itemsFrom g.rules 0 i.rule hrule (Nat.zero_add _).symm ?_
  rw [← rule_eq_of_getElem? hrule]
  exact h.2

/-! ## 3. Numbering the sets -/

namespace Grammar

variable {g : Grammar} {e : Exploration}

/-- A set that can be a state: the closure of the start item, or of items that have read something. -/
def IsState (g : Grammar) (items : List Item) : Prop :=
  ∃ kernel, items = g.closure kernel ∧ (∀ i ∈ kernel, i.Valid g) ∧
    (kernel = [⟨g.startRule, 0⟩] ∨ ∀ i ∈ kernel, 0 < i.point)

/-- The moves found for a set: over the symbols of its kernels, to the closures of these. -/
def Leads (g : Grammar) (sets : Array (List Item)) :
    List (Symbol × List Item) → List (Symbol × StateId) → Prop :=
  List.Forall₂ fun kernel move => kernel.1 = move.1 ∧ sets[move.2]? = some (g.closure kernel.2)

/-- Numbers that were given stay. -/
def Keeps (sets sets' : Array (List Item)) : Prop :=
  ∀ (id : StateId) (set : List Item), sets[id]? = some set → sets'[id]? = some set

/-- Numbering a set gives it a number and keeps the numbers of all others. -/
theorem number_spec (e : Exploration) (items : List Item) (hnodup : e.sets.toList.Nodup) :
    (e.number items).2.sets[(e.number items).1]? = some items ∧
    (e.number items).2.moves = e.moves ∧
    (e.number items).2.sets.toList.Nodup ∧
    Keeps e.sets (e.number items).2.sets ∧
    ∀ set ∈ (e.number items).2.sets, set ∈ e.sets ∨ set = items := by
  unfold Exploration.number
  split
  · rename_i id hid
    obtain ⟨hlt, heq, _⟩ := Array.findIdx?_eq_some_iff_getElem.mp hid
    refine ⟨?_, rfl, hnodup, fun _ _ h => h, fun _ h => .inl h⟩
    rw [Array.getElem?_eq_getElem hlt, eq_of_beq heq]
  · rename_i hnone
    have hnot : items ∉ e.sets := fun hmem => by
      simpa using Array.findIdx?_eq_none_iff.mp hnone items hmem
    refine ⟨by simp, rfl, ?_, fun id set h => ?_, fun set h => ?_⟩
    · rw [Array.toList_push, List.nodup_append]
      refine ⟨hnodup, by simp, fun a ha b hb heq => hnot ?_⟩
      rw [← List.mem_singleton.mp hb, ← heq]
      simpa using ha
    · rw [Array.getElem?_push_lt (Array.getElem?_eq_some_iff.mp h).1]
      exact congrArg some (Array.getElem?_eq_some_iff.mp h).2
    · simpa using h

/-- Exploring the moves of a state numbers the closures of its kernels. -/
theorem exploreMoves_spec : ∀ (kernels : List (Symbol × List Item)) (e : Exploration),
    e.sets.toList.Nodup →
    Leads g (g.exploreMoves kernels e).2.sets kernels (g.exploreMoves kernels e).1 ∧
    (g.exploreMoves kernels e).2.moves = e.moves ∧
    (g.exploreMoves kernels e).2.sets.toList.Nodup ∧
    Keeps e.sets (g.exploreMoves kernels e).2.sets ∧
    ∀ set ∈ (g.exploreMoves kernels e).2.sets,
      set ∈ e.sets ∨ ∃ kernel ∈ kernels, set = g.closure kernel.2
  | [], e, hnodup => ⟨.nil, rfl, hnodup, fun _ _ h => h, fun _ h => .inl h⟩
  | (X, kernel) :: kernels, e, hnodup => by
    obtain ⟨hat, hmoves, hnodup', hkeep, hnew⟩ := number_spec e (g.closure kernel) hnodup
    obtain ⟨hleads, hmoves', hnodup'', hkeep', hnew'⟩ :=
      exploreMoves_spec kernels (e.number (g.closure kernel)).2 hnodup'
    refine ⟨.cons ⟨rfl, hkeep' _ _ hat⟩ hleads, hmoves'.trans hmoves, hnodup'',
      fun id set h => hkeep' id set (hkeep id set h), fun set h => ?_⟩
    rcases hnew' set h with h | ⟨k, hk, rfl⟩
    · rcases hnew set h with h | rfl
      · exact .inl h
      · exact .inr ⟨_, List.mem_cons_self, rfl⟩
    · exact .inr ⟨k, List.mem_cons_of_mem _ hk, rfl⟩

/-- **The invariant of the exploration.** -/
structure Sound (g : Grammar) (e : Exploration) : Prop where
  start : e.sets[0]? = some (g.closure [⟨g.startRule, 0⟩])
  nodup : e.sets.toList.Nodup
  isState : ∀ set ∈ e.sets, g.IsState set
  leads : ∀ (id : StateId) moves, e.moves[id]? = some moves →
    ∃ items, e.sets[id]? = some items ∧ Leads g e.sets (g.kernels items) moves

theorem Leads.mono {sets sets' : Array (List Item)} {kernels : List (Symbol × List Item)}
    {moves : List (Symbol × StateId)} (h : Leads g sets kernels moves)
    (hkeep : Keeps sets sets') :
    Leads g sets' kernels moves :=
  List.Forall₂.imp (fun _ _ hkm => ⟨hkm.1, hkeep _ _ hkm.2⟩) h

/-- Exploring one more state keeps the invariant. -/
theorem Sound.exploreOne (h : g.Sound e) {items : List Item}
    (hitems : e.sets[e.moves.size]? = some items) :
    let r := g.exploreMoves (g.kernels items) e
    g.Sound { r.2 with moves := r.2.moves.push r.1 } := by
  obtain ⟨hleads, hmoves, hnodup, hkeep, hnew⟩ :=
    exploreMoves_spec (g := g) (g.kernels items) e h.nodup
  refine ⟨hkeep _ _ h.start, hnodup, fun set hset => ?_, fun id moves hid => ?_⟩
  · rcases hnew set hset with hset | ⟨⟨X, kernel⟩, hk, rfl⟩
    · exact h.isState set hset
    · refine ⟨kernel, rfl, fun j hj => ?_, .inr fun j hj => ?_⟩
      · obtain ⟨i, _, hbefore, rfl⟩ := (mem_kernel hk).mp hj
        exact ⟨hbefore.lt.1, hbefore.lt.2⟩
      · obtain ⟨i, _, _, rfl⟩ := (mem_kernel hk).mp hj
        exact Nat.succ_pos _
  · simp only [hmoves, Array.getElem?_push] at hid
    split at hid
    · rename_i heq
      obtain rfl := Option.some.inj hid
      exact ⟨items, hkeep _ _ (heq ▸ hitems), hleads⟩
    · obtain ⟨items', hitems', hleads'⟩ := h.leads id moves hid
      exact ⟨items', hkeep _ _ hitems', hleads'.mono hkeep⟩

/-! ## 4. The exploration ends -/

theorem IsState.valid {items : List Item} (h : g.IsState items) {i : Item} (hi : i ∈ items) :
    i.Valid g := by
  obtain ⟨kernel, rfl, hvalid, _⟩ := h
  exact (mem_closure.mp hi).valid hvalid

/-- The items of a state are in order, so that equal sets are equal lists. -/
theorem IsState.increasing {items : List Item} (h : g.IsState items) : Sorted.Increasing items := by
  obtain ⟨kernel, rfl, _⟩ := h
  exact g.increasing_closure kernel

/-- There are no more states than sets of items. -/
theorem Sound.size_le (h : g.Sound e) : e.sets.size ≤ 2 ^ g.itemCount := by
  classical
  let all : Finset Item := (itemsFrom 0 g.rules).toFinset
  have hall : all.card ≤ g.itemCount := by
    rw [itemCount, ← length_itemsFrom 0]
    exact List.toFinset_card_le _
  have hmaps : ∀ set ∈ e.sets.toList.toFinset, set.toFinset ∈ all.powerset := by
    intro set hset
    refine Finset.mem_powerset.mpr fun i hi => List.mem_toFinset.mpr ?_
    have hset : set ∈ e.sets := by simpa using hset
    exact mem_itemsFrom_of_valid ((h.isState set hset).valid (List.mem_toFinset.mp hi))
  have hinj : Set.InjOn List.toFinset (e.sets.toList.toFinset : Set (List Item)) := by
    intro s hs t ht hst
    have hs : s ∈ e.sets := by simpa using hs
    have ht : t ∈ e.sets := by simpa using ht
    refine (h.isState s hs).increasing.eq_of_mem_iff (h.isState t ht).increasing fun i => ?_
    rw [← List.mem_toFinset, hst, List.mem_toFinset]
  calc e.sets.size = e.sets.toList.toFinset.card := by
        rw [List.toFinset_card_of_nodup h.nodup, Array.length_toList]
    _ ≤ all.powerset.card := Finset.card_le_card_of_injOn _ hmaps hinj
    _ = 2 ^ all.card := Finset.card_powerset _
    _ ≤ 2 ^ g.itemCount := Nat.pow_le_pow_right (by omega) hall

/-- The invariant holds at the end, and with enough rounds all states have been explored. -/
theorem Sound.explore : ∀ (fuel : Nat) {e : Exploration}, g.Sound e →
    2 ^ g.itemCount < fuel + e.moves.size →
    g.Sound (g.explore fuel e) ∧ (g.explore fuel e).sets.size ≤ (g.explore fuel e).moves.size
  | 0, e, h, hfuel => by
    have := h.size_le
    exact ⟨h, by simp only [Grammar.explore]; omega⟩
  | fuel + 1, e, h, hfuel => by
    simp only [Grammar.explore]
    split
    · rename_i hnone
      exact ⟨h, Array.getElem?_eq_none_iff.mp hnone⟩
    · rename_i items hitems
      refine Sound.explore fuel (h.exploreOne hitems) ?_
      have hmoves := (exploreMoves_spec (g := g) (g.kernels items) e h.nodup).2.1
      simp only [hmoves, Array.size_push]
      omega

/-- The exploration begins with the closure of the start item. -/
theorem sound_initial (hstart : g.startRule < g.rules.length) :
    g.Sound ⟨#[g.closure [⟨g.startRule, 0⟩]], #[]⟩ := by
  refine ⟨rfl, by simp, fun set hset => ?_, fun id moves h => by simp at h⟩
  obtain rfl : set = g.closure [⟨g.startRule, 0⟩] := by simpa using hset
  refine ⟨_, rfl, fun i hi => ?_, .inl rfl⟩
  obtain rfl : i = ⟨g.startRule, 0⟩ := by simpa using hi
  exact ⟨hstart, Nat.zero_le _⟩

/-- **The exploration ends**: the invariant holds, and every state has been explored. -/
theorem exploration_complete (hstart : g.startRule < g.rules.length) :
    g.Sound g.exploration ∧ g.exploration.sets.size ≤ g.exploration.moves.size :=
  Sound.explore _ (sound_initial hstart) (by simp)

end Grammar

/-! ## 5. The automaton as the rest of the theory sees it -/

namespace Automaton

/-- The states of the automaton hold the items of the grammar that can be reached. -/
structure Tracks (a : Automaton) (g : Grammar) : Prop where
  /-- State zero holds what the start rule predicts. -/
  start : ∀ i, i ∈ a.items 0 ↔ g.Predicts (· = ⟨g.startRule, 0⟩) i
  /-- A move exists over every symbol after a point. -/
  move : ∀ {s i X}, i ∈ a.items s → i.Before g X → ∃ t, a.goto? s X = some t
  /-- A move is over a symbol after a point. -/
  before : ∀ {s X t}, a.goto? s X = some t → ∃ i ∈ a.items s, i.Before g X
  /-- The target holds what the advanced items predict. -/
  target : ∀ {s X t}, a.goto? s X = some t → ∀ j, j ∈ a.items t ↔
    g.Predicts (fun j => ∃ i ∈ a.items s, i.Before g X ∧ j = i.advance) j
  /-- States are closed under prediction. -/
  closed : ∀ {s i id}, i ∈ a.items s → id < g.rules.length →
    i.Before g (.nonterminal (g.rule id).lhs) → ⟨id, 0⟩ ∈ a.items s
  /-- What stands in front of nothing read was predicted, or is the start rule. -/
  predicted : ∀ {s id}, ⟨id, 0⟩ ∈ a.items s →
    id = g.startRule ∨ ∃ i ∈ a.items s, i.Before g (.nonterminal (g.rule id).lhs)
  valid : ∀ {s i}, i ∈ a.items s → i.Valid g
  bound : ∀ {s X t}, a.goto? s X = some t → t < a.states.size

variable {g : Grammar} {a : Automaton}

theorem states_eq (h : ofGrammar g = .ok a) :
    a.states = (g.exploration.sets.zip g.exploration.moves).map fun (items, moves) =>
      ⟨items, moves, (modesOf g items).head?⟩ := by
  simp only [ofGrammar] at h
  split at h
  · exact (Except.ok.inj h) ▸ rfl
  · simp at h

theorem getElem?_states (h : ofGrammar g = .ok a) (s : StateId) (state : State)
    (hs : a.states[s]? = some state) : g.exploration.sets[s]? = some state.items ∧
      g.exploration.moves[s]? = some state.moves ∧
      state.mode = (modesOf g state.items).head? := by
  rw [states_eq h, Array.getElem?_map, Option.map_eq_some_iff] at hs
  obtain ⟨⟨items, moves⟩, hzip, rfl⟩ := hs
  obtain ⟨hitems, hmoves⟩ := Array.getElem?_zip_eq_some.mp hzip
  exact ⟨hitems, hmoves, rfl⟩

theorem exists_state (h : ofGrammar g = .ok a) (hstart : g.startRule < g.rules.length)
    {s : StateId} {items : List Item} (hs : g.exploration.sets[s]? = some items) :
    ∃ state, a.states[s]? = some state ∧ state.items = items := by
  have hlt := (Array.getElem?_eq_some_iff.mp hs).1
  have hmoves := Nat.lt_of_lt_of_le hlt (Grammar.exploration_complete hstart).2
  have hzip : (g.exploration.sets.zip g.exploration.moves)[s]? =
      some (items, g.exploration.moves[s]) :=
    Array.getElem?_zip_eq_some.mpr ⟨hs, Array.getElem?_eq_getElem hmoves⟩
  exact ⟨_, by rw [states_eq h, Array.getElem?_map, hzip, Option.map_some], rfl⟩

theorem items_eq (h : ofGrammar g = .ok a) (hstart : g.startRule < g.rules.length)
    {s : StateId} {items : List Item} (hs : g.exploration.sets[s]? = some items) :
    a.items s = items := by
  obtain ⟨state, hstate, hitems⟩ := exists_state h hstart hs
  simp [Automaton.items, hstate, hitems]

/-- A state that has an item is one that was explored. -/
theorem isState_of_mem (h : ofGrammar g = .ok a) (hstart : g.startRule < g.rules.length)
    {s : StateId} {i : Item} (hi : i ∈ a.items s) :
    g.exploration.sets[s]? = some (a.items s) ∧ g.IsState (a.items s) := by
  unfold Automaton.items at hi ⊢
  cases hs : a.states[s]? with
  | none => simp [hs] at hi
  | some state =>
    have hset := (getElem?_states h s state hs).1
    exact ⟨hset, (Grammar.exploration_complete hstart).1.isState _ (Array.mem_of_getElem? hset)⟩

theorem find?_leads {sets : Array (List Item)} {X : Symbol} {t : StateId}
    {kernels : List (Symbol × List Item)} {moves : List (Symbol × StateId)}
    (h : g.Leads sets kernels moves) (hfind : find? X moves = some t) :
    ∃ kernel, (X, kernel) ∈ kernels ∧ sets[t]? = some (g.closure kernel) := by
  induction h with
  | nil => simp [find?] at hfind
  | @cons kernel move _ _ hmove _ ih =>
    obtain ⟨Y, kernel⟩ := kernel
    obtain ⟨_, u⟩ := move
    obtain ⟨rfl, hu⟩ := hmove
    by_cases hX : X = Y
    · subst hX
      rw [Sorted.find?_cons_self, Option.some.injEq] at hfind
      exact ⟨kernel, List.mem_cons_self, hfind ▸ hu⟩
    · rw [Sorted.find?_cons_ne hX] at hfind
      obtain ⟨k, hk, ht⟩ := ih hfind
      exact ⟨k, List.mem_cons_of_mem _ hk, ht⟩

theorem keys_leads {sets : Array (List Item)} {kernels : List (Symbol × List Item)}
    {moves : List (Symbol × StateId)} (h : g.Leads sets kernels moves) :
    moves.map Prod.fst = kernels.map Prod.fst := by
  induction h with
  | nil => rfl
  | cons hmove _ ih => rw [List.map_cons, List.map_cons, hmove.1, ih]

/-- The moves of a state are in the order of their symbols. -/
theorem increasingKeys_moves (h : ofGrammar g = .ok a) (hstart : g.startRule < g.rules.length)
    {s : StateId} {state : State} (hs : a.states[s]? = some state) :
    IncreasingKeys state.moves := by
  obtain ⟨_, hmoves, _⟩ := getElem?_states h s state hs
  obtain ⟨items, _, hleads⟩ := (Grammar.exploration_complete hstart).1.leads s _ hmoves
  unfold IncreasingKeys
  rw [keys_leads hleads]
  exact g.kernels_increasing items

/-- A move leads from a state to the closure of a kernel. -/
theorem goto?_spec (h : ofGrammar g = .ok a) (hstart : g.startRule < g.rules.length)
    {s t : StateId} {X : Symbol} (hgoto : a.goto? s X = some t) :
    ∃ kernel, (X, kernel) ∈ g.kernels (a.items s) ∧
      g.exploration.sets[t]? = some (g.closure kernel) := by
  unfold goto? at hgoto
  obtain ⟨state, hstate, hfind⟩ := Option.bind_eq_some_iff.mp hgoto
  obtain ⟨hset, hmoves, _⟩ := getElem?_states h s state hstate
  obtain ⟨items, hitems, hleads⟩ := (Grammar.exploration_complete hstart).1.leads s _ hmoves
  rw [items_eq h hstart hitems]
  exact find?_leads hleads hfind

/-- There is a move over every symbol behind a point. -/
theorem exists_goto? (h : ofGrammar g = .ok a) (hstart : g.startRule < g.rules.length)
    {s : StateId} {i : Item} {X : Symbol} (hi : i ∈ a.items s) (hbefore : i.Before g X) :
    ∃ t, a.goto? s X = some t := by
  obtain ⟨hset, _⟩ := isState_of_mem h hstart hi
  obtain ⟨state, hstate, hitems⟩ := exists_state h hstart hset
  obtain ⟨_, hmoves, _⟩ := getElem?_states h s state hstate
  obtain ⟨items, hitems', hleads⟩ := (Grammar.exploration_complete hstart).1.leads s _ hmoves
  obtain rfl : a.items s = items := Option.some.inj (hset.symm.trans hitems')
  have hkey : X ∈ state.moves.map Prod.fst := by
    rw [keys_leads hleads]
    exact Grammar.mem_keys_kernels.mpr ⟨i, hi, hbefore⟩
  obtain ⟨t, ht⟩ := Option.isSome_iff_exists.mp (Sorted.find?_isSome_iff.mpr hkey)
  exact ⟨t, by simp [goto?, hstate, ht]⟩

/-- **The automaton of a grammar tracks its items.** -/
theorem tracks_ofGrammar (h : ofGrammar g = .ok a) (hstart : g.startRule < g.rules.length) :
    a.Tracks g where
  start i := by
    rw [items_eq h hstart (Grammar.exploration_complete hstart).1.start, Grammar.mem_closure]
    simp only [List.mem_singleton]
  move hi hbefore := exists_goto? h hstart hi hbefore
  before hgoto := by
    obtain ⟨kernel, hk, _⟩ := goto?_spec h hstart hgoto
    exact Grammar.mem_keys_kernels.mp (List.mem_map.mpr ⟨_, hk, rfl⟩)
  target hgoto j := by
    obtain ⟨kernel, hk, ht⟩ := goto?_spec h hstart hgoto
    rw [items_eq h hstart ht, Grammar.mem_closure]
    simp only [Grammar.mem_kernel hk]
  closed hi hid hbefore := by
    obtain ⟨_, kernel, heq, _⟩ := isState_of_mem h hstart hi
    rw [heq] at hi ⊢
    exact Grammar.mem_closure.mpr (.rule (Grammar.mem_closure.mp hi) hid hbefore)
  predicted {s id} hi := by
    obtain ⟨_, kernel, heq, _, hkernel⟩ := isState_of_mem h hstart hi
    rw [heq] at hi ⊢
    cases Grammar.mem_closure.mp hi with
    | kernel hmem =>
      rcases hkernel with rfl | hpos
      · exact .inl (by simpa using hmem)
      · exact absurd (hpos _ hmem) (Nat.lt_irrefl 0)
    | rule hpred _ hbefore => exact .inr ⟨_, Grammar.mem_closure.mpr hpred, hbefore⟩
  valid hi := (isState_of_mem h hstart hi).2.valid hi
  bound hgoto := by
    obtain ⟨kernel, _, ht⟩ := goto?_spec h hstart hgoto
    obtain ⟨state, hstate, _⟩ := exists_state h hstart ht
    exact (Array.getElem?_eq_some_iff.mp hstate).1

namespace Tracks

variable (ha : a.Tracks g)
include ha

/-- The point moves with the state. -/
theorem advance_mem {s t : StateId} {i : Item} {X : Symbol} (hi : i ∈ a.items s)
    (hbefore : i.Before g X) (hgoto : a.goto? s X = some t) : i.advance ∈ a.items t :=
  (ha.target hgoto _).mpr (.kernel ⟨i, hi, hbefore, rfl⟩)

/-- An item that has read something was moved over the symbol that led to its state. -/
theorem retreat_mem {s t : StateId} {id : RuleId} {k : Nat} {X : Symbol}
    (hgoto : a.goto? s X = some t) (hi : ⟨id, k + 1⟩ ∈ a.items t) :
    ⟨id, k⟩ ∈ a.items s ∧ (⟨id, k⟩ : Item).Before g X := by
  obtain ⟨i, hi', hbefore, heq⟩ := ((ha.target hgoto _).mp hi).kernel_of_pos (Nat.succ_pos k)
  simp only [Item.advance, Item.mk.injEq, Nat.add_right_cancel_iff] at heq
  obtain ⟨rfl, rfl⟩ := heq
  exact ⟨hi', hbefore⟩

/-- Nothing has been read in state zero. -/
theorem point_eq_zero {i : Item} (hi : i ∈ a.items 0) : i.point = 0 := by
  cases (ha.start i).mp hi with
  | kernel h => rw [h]
  | rule _ _ _ => rfl

/-- If the start nonterminal stands in no right-hand side, no move leads to the start rule. -/
theorem startRule_not_mem {s t : StateId} {X : Symbol} (hgoto : a.goto? s X = some t)
    (hfree : ∀ i : Item, ¬ i.Before g (.nonterminal (g.rule g.startRule).lhs)) :
    ⟨g.startRule, 0⟩ ∉ a.items t := by
  intro hmem
  cases (ha.target hgoto _).mp hmem with
  | kernel h =>
    obtain ⟨i, _, _, heq⟩ := h
    simp [Item.advance] at heq
  | rule _ _ hbefore => exact hfree _ hbefore

end Tracks

end Automaton

end Lode
