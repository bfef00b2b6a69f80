/-
# Lookaheads are those of the valid items

An item is valid for a row of symbols and a terminal if the canonical construction with one terminal of
lookahead puts it, with the terminal, into the state that the row leads to (`ValidItem`).  Every such
terminal is among the lookaheads of a completed rule, and if the grammar has an end terminal and every
nonterminal has a beginning, no others are (`lookaheads_valid`).

The lookaheads are Follow sets of path symbols.  A path symbol knows the state that it leads from, so what
follows it is what follows its nonterminal there: the places of routes begin with the same terminals as the
slots (`firstOf_of_along`, `exists_route_first`), and the reasons to add a terminal to a Follow set are
those to add an item with that terminal (`followed_of_valid`, `exists_valid`).

Many rows lead to one state, and the path symbols of the state belong to all of them.  A terminal is a
lookahead if the rule is valid with it for some row, which is the union over the states of the canonical
construction that share their items.  The second direction has to find that row, and to find it a rule has
to be valid for some terminal at all; this is what the two conditions are for.  Neither can be left out, and
section 7 ends with a grammar for each: in one, nothing ever comes of the nonterminal behind a rule, and in the
other nothing stands at the end of a text (`lookaheads_not_always_valid`).
-/
import Lode.Proofs.Grammar.Routes
import Lode.Proofs.Grammar.SententialForms
import Lode.Proofs.Grammar.Viable

namespace Lode

open Sorted (find?)

variable {g : Grammar} {a : Automaton}

namespace Grammar

/-! ## 1. Rows without markers -/

theorem erase_eq_self {row : List Symbol} (h : .terminal .empty ∉ row) : erase row = row :=
  List.filter_eq_self.mpr fun _ hX => bne_iff_ne.mpr fun heq => h (heq ▸ hX)

theorem marker_not_mem_erase (row : List Symbol) : .terminal .empty ∉ erase row := by
  simp [erase]

section Plain

variable (hempty : .terminal .empty ∉ rhsSymbols g.rules)
include hempty

theorem develops_eq_rewrites : g.Develops = g.Rewrites := by
  funext row row'
  refine propext ⟨?_, ?_⟩
  · rintro @⟨id, choice, front, back, hid, hchoice⟩
    rw [erase_eq_self fun h => hempty (mem_rhsSymbols_of_expands hchoice h)]
    exact .expand front back hid hchoice
  · rintro @⟨id, choice, front, back, hid, hchoice⟩
    have hstep := Develops.expand (g := g) front back hid hchoice
    rwa [erase_eq_self fun h => hempty (mem_rhsSymbols_of_expands hchoice h)] at hstep

theorem forms_iff_expands {row row' : List Symbol} : g.Forms row row' ↔ g.Expands row row' := by
  rw [Forms, Expands, develops_eq_rewrites hempty]

end Plain

/-! ## 2. Forms of two rows -/

/-- What two rows develop to is what each of them develops to. -/
theorem Forms.split {u v row : List Symbol} (h : g.Forms (u ++ v) row) :
    ∃ u' v', row = u' ++ v' ∧ g.Forms u u' ∧ g.Forms v v' := by
  induction h with
  | refl => exact ⟨u, v, rfl, .refl, .refl⟩
  | tail _ hstep ih =>
    obtain ⟨u', v', rfl, hu, hv⟩ := ih
    generalize hrow : u' ++ v' = row at hstep
    obtain @⟨id, choice, front, back, hid, hchoice⟩ := hstep
    obtain ⟨mid, rfl, rfl⟩ | ⟨mid, rfl, rfl⟩ := append_eq_append_cons hrow
    · exact ⟨_, v', by rw [List.append_assoc _ mid], hu.tail (.expand front mid hid hchoice), hv⟩
    · exact ⟨u', _, by simp only [List.append_assoc], hu, hv.tail (.expand mid back hid hchoice)⟩

/-- A terminal develops to nothing else. -/
theorem Forms.of_terminal {t : Terminal} {row : List Symbol} (h : g.Forms [.terminal t] row) :
    row = [.terminal t] := by
  induction h with
  | refl => rfl
  | tail _ hstep ih =>
    subst ih
    generalize hrow : [Symbol.terminal t] = row at hstep
    obtain @⟨id, choice, front, back, -, -⟩ := hstep
    have hmem : Symbol.nonterminal (g.rule id).lhs ∈ [Symbol.terminal t] :=
      hrow ▸ List.mem_append_right _ List.mem_cons_self
    simp at hmem

theorem Forms.marker_not_mem {row row' : List Symbol} (h : g.Forms row row')
    (hrow : .terminal .empty ∉ row) : .terminal .empty ∉ row' := by
  induction h with
  | refl => exact hrow
  | tail _ hstep ih =>
    obtain @⟨id, choice, front, back, -, -⟩ := hstep
    simp only [List.mem_append, List.mem_cons, not_or] at ih ⊢
    exact ⟨⟨ih.1, marker_not_mem_erase choice⟩, ih.2.2⟩

/-! ## 3. Valid items -/

/-- A choice of the slots with a terminal behind it can begin with another. -/
def Begins (g : Grammar) (slots : List Slot) (t u : Terminal) : Prop :=
  ∃ choice rest, List.Forall₂ (fun slot X => X ∈ slot.symbols) slots choice ∧
    g.Expands (choice ++ [.terminal t]) (.terminal u :: rest)

/-- The items with one terminal of lookahead that the canonical construction makes valid for a row. -/
inductive ValidItem (g : Grammar) : List Symbol → Item → Terminal → Prop
  | start {t : Terminal} : t ∈ g.ends → ValidItem g [] ⟨g.startRule, 0⟩ t
  | read {row : List Symbol} {i : Item} {t : Terminal} {X : Symbol} : ValidItem g row i t →
      i.Before g X → ValidItem g (row ++ [X]) i.advance t
  | predict {row : List Symbol} {i : Item} {t u : Terminal} {id : RuleId} : ValidItem g row i t →
      id < g.rules.length → i.Before g (.nonterminal (g.rule id).lhs) →
      g.Begins ((g.rule i.rule).rhs.drop (i.point + 1)) t u → ValidItem g row ⟨id, 0⟩ u

/-- What slots can begin with is among their first terminals, or they can be empty. -/
theorem begins_iff (hempty : .terminal .empty ∉ rhsSymbols g.rules) {slots : List Slot}
    (hslots : ∀ slot ∈ slots, ∀ X ∈ slot.symbols, X ∈ rhsSymbols g.rules) {t u : Terminal} :
    g.Begins slots t u ↔ (FirstOf g.productions (slots.map Slot.symbols) u ∧ u ≠ .empty) ∨
      (FirstOf g.productions (slots.map Slot.symbols) .empty ∧ u = t) := by
  -- rules have no marker, so neither has a choice of their symbols
  have hplain : ∀ {choice}, Picks (slots.map Slot.symbols) choice → .terminal .empty ∉ choice := by
    intro choice hchoice hmem
    obtain ⟨front, back, rfl⟩ := List.append_of_mem hmem
    obtain ⟨pre, slot, post, heq, -, hX, -⟩ := hchoice.split
    obtain ⟨slot, hslot, rfl⟩ := List.mem_map.mp
      (heq ▸ List.mem_append_right pre List.mem_cons_self : slot ∈ slots.map Slot.symbols)
    exact hempty (hslots slot hslot _ hX)
  have hpicks : ∀ {choice}, Picks (slots.map Slot.symbols) choice ↔
      List.Forall₂ (fun slot X => X ∈ slot.symbols) slots choice := List.forall₂_map_left_iff
  constructor
  · rintro ⟨choice, rest, hchoice, hexpands⟩
    obtain ⟨front, back, heq, hfront, hback⟩ := ((forms_iff_expands hempty).mpr hexpands).split
    obtain rfl := hback.of_terminal
    have hmarker := hplain (hpicks.mpr hchoice)
    have herase := erase_eq_self hmarker
    cases front with
    | nil =>
      -- nothing comes of the slots, so the terminal is the one behind them
      refine .inr ⟨firstOf_of_picks (hpicks.mpr hchoice) (firstOf_of_opens (.inl ⟨rfl, ?_⟩)), ?_⟩
      · rwa [herase]
      · simpa using (List.cons.inj heq).1
    | cons X front =>
      -- the first terminal comes of the slots
      obtain ⟨rfl, -⟩ := List.cons.inj heq
      have hne : u ≠ .empty := fun h => hfront.marker_not_mem hmarker (h ▸ List.mem_cons_self)
      refine .inl ⟨firstOf_of_picks (hpicks.mpr hchoice) (firstOf_of_opens (.inr ⟨hne, front, ?_⟩)), hne⟩
      rwa [herase]
  · have hne : ∀ slot ∈ slots.map Slot.symbols, slot ≠ [] := by
      intro slot hslot
      obtain ⟨slot, -, rfl⟩ := List.mem_map.mp hslot
      exact slot.nonempty
    rintro (⟨hfirst, hu⟩ | ⟨hfirst, rfl⟩)
    · obtain ⟨choice, hchoice, ⟨rfl, -⟩ | ⟨-, rest, hopens⟩⟩ := exists_opens hfirst hne
      · exact absurd rfl hu
      · rw [erase_eq_self (hplain hchoice)] at hopens
        exact ⟨choice, rest ++ [.terminal t], hpicks.mp hchoice,
          (forms_iff_expands hempty).mp (hopens.append_right _)⟩
    · obtain ⟨choice, hchoice, ⟨-, hopens⟩ | ⟨hu, -⟩⟩ := exists_opens hfirst hne
      · rw [erase_eq_self (hplain hchoice)] at hopens
        exact ⟨choice, [], hpicks.mp hchoice, (forms_iff_expands hempty).mp (hopens.append_right _)⟩
      · exact absurd rfl hu

theorem mem_rhsSymbols_drop {id : RuleId} {k : Nat} :
    ∀ slot ∈ (g.rule id).rhs.drop k, ∀ X ∈ slot.symbols, X ∈ rhsSymbols g.rules :=
  fun _ hslot _ hX => mem_rhsSymbols (List.mem_of_mem_drop hslot) hX

theorem mem_rhsSymbols_behind {id : RuleId} {front back : List Slot} {slot : Slot}
    (hrhs : (g.rule id).rhs = front ++ slot :: back) :
    ∀ slot ∈ back, ∀ X ∈ slot.symbols, X ∈ rhsSymbols g.rules :=
  fun _ hslot _ hX => mem_rhsSymbols
    (hrhs ▸ List.mem_append_right _ (List.mem_cons_of_mem _ hslot)) hX

/-- A rule is predicted where its left-hand side is behind the point of a valid item. -/
theorem ValidItem.predict_behind {row : List Symbol} {j id : RuleId} {t u : Terminal}
    {front back : List Slot} {slot : Slot} (h : g.ValidItem row ⟨j, 0 + front.length⟩ t)
    (hrhs : (g.rule j).rhs = front ++ slot :: back) (hid : id < g.rules.length)
    (hX : .nonterminal (g.rule id).lhs ∈ slot.symbols) (hbegins : g.Begins back t u) :
    g.ValidItem row ⟨id, 0⟩ u := by
  rw [Nat.zero_add] at h
  refine h.predict hid ⟨slot, ?_, hX⟩ ?_
  · simp [Item.next?, hrhs]
  · simpa [hrhs] using hbegins

/-- Every nonterminal of a right-hand side develops to nothing or to a row that begins with a terminal. -/
def Begun (g : Grammar) : Prop :=
  ∀ name, .nonterminal name ∈ rhsSymbols g.rules → ∃ t, g.Opens [.nonterminal name] t

/-- Slots have something to begin with, if their nonterminals have. -/
theorem Begun.exists_first (h : g.Begun) (hempty : .terminal .empty ∉ rhsSymbols g.rules) :
    ∀ {slots : List Slot}, (∀ slot ∈ slots, ∀ X ∈ slot.symbols, X ∈ rhsSymbols g.rules) →
    ∃ t, FirstOf g.productions (slots.map Slot.symbols) t
  | [], _ => ⟨_, .nil⟩
  | slot :: slots, hslots => by
    obtain ⟨hslot, hslots⟩ := List.forall_mem_cons.mp hslots
    obtain ⟨X, hX⟩ := List.exists_mem_of_ne_nil _ slot.nonempty
    cases X with
    | terminal t => exact ⟨t, .terminal hX rfl fun heq => hempty (heq ▸ hslot _ hX)⟩
    | nonterminal name =>
      obtain ⟨t, ht⟩ := h name (hslot _ hX)
      obtain ⟨p, hp, hlhs, hfirst⟩ := firstOfSymbol_iff.mpr ht
      by_cases hne : t = .empty
      · obtain ⟨u, hu⟩ := exists_first h hempty hslots
        exact ⟨u, .skip hp (hlhs ▸ hX) (by rw [hlhs]; rfl) (hne ▸ hfirst) hu⟩
      · exact ⟨t, .inner hp (hlhs ▸ hX) (by rw [hlhs]; rfl) hfirst hne⟩

/-- Something can stand at the beginning of slots with a terminal behind them. -/
theorem Begun.exists_begins (h : g.Begun) (hempty : .terminal .empty ∉ rhsSymbols g.rules)
    {slots : List Slot} (hslots : ∀ slot ∈ slots, ∀ X ∈ slot.symbols, X ∈ rhsSymbols g.rules)
    (t : Terminal) : ∃ u, g.Begins slots t u := by
  obtain ⟨u, hu⟩ := h.exists_first hempty hslots
  by_cases hne : u = .empty
  · exact ⟨t, (begins_iff hempty hslots).mpr (.inr ⟨hne ▸ hu, rfl⟩)⟩
  · exact ⟨u, (begins_iff hempty hslots).mpr (.inl ⟨hu, hne⟩)⟩

/-- What is predicted by items that are valid for some terminal is valid for some terminal. -/
theorem Predicts.exists_valid (h : g.Begun) (hempty : .terminal .empty ∉ rhsSymbols g.rules)
    {kernel : Item → Prop} {row : List Symbol} (hkernel : ∀ i, kernel i → ∃ t, g.ValidItem row i t)
    {i : Item} (hi : g.Predicts kernel i) : ∃ t, g.ValidItem row i t := by
  induction hi with
  | kernel hi => exact hkernel _ hi
  | rule _ hid hbefore ih =>
    obtain ⟨t, ht⟩ := ih
    obtain ⟨u, hu⟩ := h.exists_begins hempty mem_rhsSymbols_drop t
    exact ⟨u, ht.predict hid hbefore hu⟩

end Grammar

namespace Automaton

/-! ## 4. Along routes -/

/-- A route goes on where another one ends. -/
theorem Route.append {slots more : List Slot} {s : StateId} {route route' : List StateId}
    (h : a.Route slots s route) (h' : a.Route more (route.getLastD s) route') :
    a.Route (slots ++ more) s (route ++ route') := by
  induction h with
  | nil => exact h'
  | cons hX hgoto _ ih =>
    rw [List.getLastD_cons] at h'
    exact .cons hX hgoto (ih h')

/-- The places of two routes, one behind the other. -/
theorem Route.along_append {slots : List Slot} {s : StateId} {route : List StateId}
    (h : a.Route slots s route) (more : List Slot) (route' : List StateId) : a.along (slots ++ more) s (route ++ route') =
      a.along slots s route ++ a.along more (route.getLastD s) route' := by
  induction h with
  | nil => rfl
  | cons hX hgoto _ ih =>
    rw [List.getLastD_cons]
    exact congrArg _ ih

theorem getLastD_append {α : Type} (d : α) : ∀ (as bs : List α),
    (as ++ bs).getLastD d = bs.getLastD (as.getLastD d)
  | [], _ => rfl
  | a :: as, bs => by rw [List.cons_append, List.getLastD_cons, List.getLastD_cons, getLastD_append a]

/-- Where a place of a route comes from. -/
theorem Route.split : ∀ {slots : List Slot} {s : StateId} {route : List StateId}
    {pre post : List (List PathSymbol)} {place : List PathSymbol}, a.Route slots s route →
    a.along slots s route = pre ++ place :: post →
    ∃ front slot back before u after, slots = front ++ slot :: back ∧ a.Route front s before ∧
      place = a.between slot (before.getLastD s) u ∧ a.Route back u after ∧ post = a.along back u after
  | _, _, _, pre, _, _, .nil, h => by cases pre <;> cases h
  | _, _, _, [], _, _, @Route.cons _ slot slots _ t route _ hX hgoto hroute, h => by
    obtain ⟨rfl, rfl⟩ := List.cons.inj h
    exact ⟨[], slot, slots, [], t, route, rfl, .nil, rfl, hroute, rfl⟩
  | _, _, _, _ :: pre, _, _, @Route.cons _ slot slots _ t route _ hX hgoto hroute, h => by
    obtain ⟨front, slot', back, before, u, after, rfl, hbefore, hplace, hafter, hpost⟩ :=
      hroute.split (List.cons.inj h).2
    refine ⟨slot :: front, slot', back, t :: before, u, after, rfl, .cons hX hgoto hbefore, ?_, hafter, hpost⟩
    rwa [List.getLastD_cons]

section Tracks

variable (ha : a.Tracks g)
include ha

/-- An item that begins a route stands at its end behind the slots passed. -/
theorem Route.mem_items {id : RuleId} : ∀ {front rest : List Slot} {s : StateId} {route : List StateId}
    {k : Nat}, a.Route front s route → (g.rule id).rhs.drop k = front ++ rest → ⟨id, k⟩ ∈ a.items s →
    ⟨id, k + front.length⟩ ∈ a.items (route.getLastD s)
  | _, _, _, _, _, .nil, _, hi => hi
  | _, _, _, _, k, @Route.cons _ slot slots _ t route _ hX hgoto hroute, hdrop, hi => by
    obtain ⟨hslot, hdrop'⟩ := drop_rhs_cons hdrop
    have hmem := Route.mem_items hroute hdrop' (ha.advance_mem hi ⟨slot, hslot, hX⟩ hgoto)
    rwa [List.length_cons, List.getLastD_cons, ← Nat.add_assoc, Nat.add_right_comm]

/-- The move over a symbol behind a point. -/
theorem Tracks.exists_step {id : RuleId} {slot : Slot} {slots : List Slot} {s : StateId} {k : Nat}
    {X : Symbol} (hdrop : (g.rule id).rhs.drop k = slot :: slots) (hi : ⟨id, k⟩ ∈ a.items s)
    (hX : X ∈ slot.symbols) : ∃ t, a.goto? s X = some t ∧ (g.rule id).rhs.drop (k + 1) = slots ∧
      ⟨id, k + 1⟩ ∈ a.items t := by
  obtain ⟨hslot, hdrop'⟩ := drop_rhs_cons hdrop
  obtain ⟨t, hgoto⟩ := ha.move hi ⟨slot, hslot, hX⟩
  exact ⟨t, hgoto, hdrop', ha.advance_mem hi ⟨slot, hslot, hX⟩ hgoto⟩

/-- What is behind a point can be followed. -/
theorem exists_route {id : RuleId} : ∀ {slots : List Slot} {s : StateId} {k : Nat},
    (g.rule id).rhs.drop k = slots → ⟨id, k⟩ ∈ a.items s → ∃ route, a.Route slots s route
  | [], _, _, _, _ => ⟨[], .nil⟩
  | slot :: slots, s, k, hdrop, hi => by
    obtain ⟨X, hX⟩ := List.exists_mem_of_ne_nil _ slot.nonempty
    obtain ⟨t, hgoto, hdrop', hi'⟩ := ha.exists_step hdrop hi hX
    obtain ⟨route, hroute⟩ := exists_route hdrop' hi'
    exact ⟨t :: route, .cons hX hgoto hroute⟩

/-- An item of a state that a row leads to was begun in a state that some row leads to. -/
theorem exists_begin {id : RuleId} : ∀ {k : Nat} {s : StateId} {row : List Symbol}, a.LeadsTo s row →
    ⟨id, k⟩ ∈ a.items s → ∃ p route, ⟨id, 0⟩ ∈ a.items p ∧ a.Route ((g.rule id).rhs.take k) p route ∧
      route.getLastD p = s
  | 0, s, _, _, hi => ⟨s, [], hi, .nil, rfl⟩
  | k + 1, _, _, .nil, hi => absurd (ha.point_eq_zero hi) (Nat.succ_ne_zero k)
  | k + 1, _, _, .concat (X := X) hs hgoto, hi => by
    obtain ⟨hi', slot, hslot, hX⟩ := ha.retreat_mem hgoto hi
    obtain ⟨p, route, hp, hroute, rfl⟩ := exists_begin hs hi'
    refine ⟨p, route ++ [_], hp, ?_, by rw [getLastD_append]; rfl⟩
    rw [List.take_add_one]
    exact hroute.append (congrArg (Route a ·.toList _ _) hslot ▸ .cons hX hgoto .nil)

end Tracks

/-! ## 5. First terminals along routes -/

section First

variable {paths : List PathRule} (hpaths : a.RoutesFound g paths) (ha : a.Tracks g)
include hpaths

/-- The productions over path symbols are the routes of rules. -/
theorem mem_pathProductions {p : Production PathSymbol} : p ∈ pathProductions paths ↔
    ∃ s id route, ⟨id, 0⟩ ∈ a.items s ∧ a.Route (g.rule id).rhs s route ∧
      p = ⟨lhsPath g a s id, a.along (g.rule id).rhs s route⟩ := by
  simp only [pathProductions, List.mem_map, hpaths.mem]
  constructor
  · rintro ⟨_, ⟨s, id, route, hi, hroute, rfl⟩, rfl⟩
    exact ⟨s, id, route, hi, hroute, rfl⟩
  · rintro ⟨s, id, route, hi, hroute, rfl⟩
    exact ⟨_, ⟨s, id, route, hi, hroute, rfl⟩, rfl⟩

include ha

/-- What the places of a route begin with, the slots begin with. -/
theorem firstOf_of_along {places : List (List PathSymbol)} {t : Terminal}
    (h : FirstOf (pathProductions paths) places t) : ∀ {slots : List Slot} {s : StateId}
    {route : List StateId}, a.Route slots s route → places = a.along slots s route →
    FirstOf g.productions (slots.map Slot.symbols) t := by
  induction h with
  | nil =>
    rintro _ _ _ (_ | _) heq
    · exact .nil
    · cases heq
  | terminal hs hterm hne =>
    rintro _ _ _ (_ | ⟨-, -, -⟩) heq
    · cases heq
    · obtain ⟨rfl, -⟩ := List.cons.inj heq
      obtain ⟨X, hX, -, rfl⟩ := mem_between.mp hs
      exact .terminal hX hterm hne
  | marker hs hterm _ ih =>
    rintro _ _ _ (_ | ⟨-, -, hroute⟩) heq
    · cases heq
    · obtain ⟨rfl, rfl⟩ := List.cons.inj heq
      obtain ⟨X, hX, -, rfl⟩ := mem_between.mp hs
      exact .marker hX hterm (ih hroute rfl)
  | inner hp hlhs hterm _ hne ih =>
    rintro _ _ _ (_ | ⟨-, -, -⟩) heq
    · cases heq
    · obtain ⟨rfl, -⟩ := List.cons.inj heq
      -- a rule of paths is a walk along a rule of the grammar
      obtain ⟨p, id, route, hi, hroute, rfl⟩ := (mem_pathProductions hpaths).mp hp
      obtain ⟨X, hX, -, hx⟩ := mem_between.mp hlhs
      obtain ⟨rfl, rfl, -⟩ := PathSymbol.mk.inj hx
      exact .inner (Grammar.mem_productions.mpr ⟨id, (ha.valid hi).1, rfl⟩) hX rfl (ih hroute rfl) hne
  | skip hp hlhs hterm _ _ ihempty ih =>
    rintro _ _ _ (_ | ⟨-, -, hrest⟩) heq
    · cases heq
    · obtain ⟨rfl, rfl⟩ := List.cons.inj heq
      obtain ⟨p, id, route, hi, hroute, rfl⟩ := (mem_pathProductions hpaths).mp hp
      obtain ⟨X, hX, -, hx⟩ := mem_between.mp hlhs
      obtain ⟨rfl, rfl, -⟩ := PathSymbol.mk.inj hx
      exact .skip (Grammar.mem_productions.mpr ⟨id, (ha.valid hi).1, rfl⟩) hX rfl (ihempty hroute rfl)
        (ih hrest rfl)

/-- What the slots behind a point begin with, the places of some route from there begin with. -/
theorem exists_route_first {places : List (List Symbol)} {t : Terminal}
    (h : FirstOf g.productions places t) : ∀ {slots : List Slot} {s : StateId} {id : RuleId} {k : Nat},
    places = slots.map Slot.symbols → (g.rule id).rhs.drop k = slots → ⟨id, k⟩ ∈ a.items s →
    ∃ route, a.Route slots s route ∧ FirstOf (pathProductions paths) (a.along slots s route) t := by
  induction h with
  | nil =>
    rintro (_ | ⟨slot, slots⟩) s id k heq - -
    · exact ⟨[], .nil, .nil⟩
    · cases heq
  | terminal hX hterm hne =>
    rintro (_ | ⟨slot, slots⟩) s id k heq hdrop hi
    · cases heq
    · obtain ⟨rfl, rfl⟩ := List.cons.inj heq
      obtain ⟨u, hgoto, hdrop', hi'⟩ := ha.exists_step hdrop hi hX
      obtain ⟨route, hroute⟩ := exists_route ha hdrop' hi'
      exact ⟨u :: route, .cons hX hgoto hroute, .terminal (mem_between.mpr ⟨_, hX, hgoto, rfl⟩) hterm hne⟩
  | marker hX hterm _ ih =>
    rintro (_ | ⟨slot, slots⟩) s id k heq hdrop hi
    · cases heq
    · obtain ⟨rfl, rfl⟩ := List.cons.inj heq
      obtain ⟨u, hgoto, hdrop', hi'⟩ := ha.exists_step hdrop hi hX
      obtain ⟨route, hroute, hfirst⟩ := ih rfl hdrop' hi'
      exact ⟨u :: route, .cons hX hgoto hroute,
        .marker (mem_between.mpr ⟨_, hX, hgoto, rfl⟩) hterm hfirst⟩
  | inner hp hX _ _ hne ih =>
    rintro (_ | ⟨slot, slots⟩) s id k heq hdrop hi
    · cases heq
    · obtain ⟨rfl, rfl⟩ := List.cons.inj heq
      obtain ⟨j, hj, rfl⟩ := Grammar.mem_productions.mp hp
      obtain ⟨u, hgoto, hdrop', hi'⟩ := ha.exists_step hdrop hi hX
      obtain ⟨route, hroute⟩ := exists_route ha hdrop' hi'
      -- the state holds the rules of the nonterminal, so one of their walks begins with the terminal
      have hpredicted := ha.closed hi hj ⟨slot, (drop_rhs_cons hdrop).1, hX⟩
      obtain ⟨inner, hinner, hfirst⟩ := ih rfl List.drop_zero hpredicted
      refine ⟨u :: route, .cons hX hgoto hroute, .inner
        ((mem_pathProductions hpaths).mpr ⟨s, j, inner, hpredicted, hinner, rfl⟩) ?_ rfl hfirst hne⟩
      exact mem_between.mpr ⟨_, hX, hgoto, by rw [lhsPath, hgoto]⟩
  | skip hp hX _ _ _ ihempty ih =>
    rintro (_ | ⟨slot, slots⟩) s id k heq hdrop hi
    · cases heq
    · obtain ⟨rfl, rfl⟩ := List.cons.inj heq
      obtain ⟨j, hj, rfl⟩ := Grammar.mem_productions.mp hp
      obtain ⟨u, hgoto, hdrop', hi'⟩ := ha.exists_step hdrop hi hX
      obtain ⟨route, hroute, hrest⟩ := ih rfl hdrop' hi'
      have hpredicted := ha.closed hi hj ⟨slot, (drop_rhs_cons hdrop).1, hX⟩
      obtain ⟨inner, hinner, hfirst⟩ := ihempty rfl List.drop_zero hpredicted
      refine ⟨u :: route, .cons hX hgoto hroute, .skip
        ((mem_pathProductions hpaths).mpr ⟨s, j, inner, hpredicted, hinner, rfl⟩) ?_ rfl hfirst hrest⟩
      exact mem_between.mpr ⟨_, hX, hgoto, by rw [lhsPath, hgoto]⟩

end First

/-! ## 6. What follows path symbols -/

theorem LeadsTo.eq_zero {s : StateId} (h : a.LeadsTo s []) : s = 0 := by
  generalize hrow : ([] : List Symbol) = row at h
  cases h with
  | nil => rfl
  | concat => exact absurd hrow.symm (List.append_ne_nil_of_right_ne_nil _ (List.cons_ne_nil _ _))

/-- A row leads to a state by a move over its last symbol. -/
theorem LeadsTo.exists_last {s : StateId} {row : List Symbol} {X : Symbol}
    (h : a.LeadsTo s (row ++ [X])) : ∃ p, a.LeadsTo p row ∧ a.goto? p X = some s := by
  generalize hrow : row ++ [X] = row' at h
  cases h with
  | nil => exact absurd hrow (List.append_ne_nil_of_right_ne_nil _ (List.cons_ne_nil _ _))
  | concat hp hgoto =>
    obtain ⟨rfl, hX⟩ := List.append_inj' hrow rfl
    obtain rfl := List.singleton_inj.mp hX
    exact ⟨_, hp, hgoto⟩

/-- What the rounds put behind a path symbol. -/
abbrev FollowedAt (g : Grammar) (paths : List PathRule) (x : PathSymbol) (t : Terminal) : Prop :=
  FollowOf (pathProductions paths) ⟨0, .nonterminal g.start, none⟩ g.ends x t

/-- A valid item stays valid along a route over what is behind its point. -/
theorem valid_along {id : RuleId} {t : Terminal} : ∀ {front rest : List Slot} {s : StateId}
    {route : List StateId} {k : Nat} {row : List Symbol}, a.Route front s route →
    (g.rule id).rhs.drop k = front ++ rest → a.LeadsTo s row → g.ValidItem row ⟨id, k⟩ t →
    ∃ row', a.LeadsTo (route.getLastD s) row' ∧ g.ValidItem row' ⟨id, k + front.length⟩ t
  | _, _, _, _, _, row, .nil, _, hs, h => ⟨row, hs, h⟩
  | _, _, _, _, k, row, @Route.cons _ slot slots _ u route X hX hgoto hroute, hdrop, hs, h => by
    obtain ⟨hslot, hdrop'⟩ := drop_rhs_cons hdrop
    obtain ⟨row', hrow', h'⟩ := valid_along hroute hdrop' (hs.concat hgoto) (h.read ⟨slot, hslot, hX⟩)
    rw [List.length_cons, List.getLastD_cons, ← Nat.add_assoc, Nat.add_right_comm]
    exact ⟨row', hrow', h'⟩

section Follow

variable {paths : List PathRule} (hpaths : a.RoutesFound g paths) (ha : a.Tracks g)
include hpaths

/-- The places of a rule around one of its slots. -/
theorem exists_place {p s u : StateId} {id : RuleId} {k : Nat} {slot : Slot} {before after : List StateId}
    (hp : ⟨id, 0⟩ ∈ a.items p) (hbefore : a.Route ((g.rule id).rhs.take k) p before)
    (hs : before.getLastD p = s) (hslot : (g.rule id).rhs[k]? = some slot) {X : Symbol}
    (hX : X ∈ slot.symbols) (hgoto : a.goto? s X = some u)
    (hafter : a.Route ((g.rule id).rhs.drop (k + 1)) u after) :
    ∃ pre, ⟨lhsPath g a p id, pre ++ a.between slot s u :: a.along ((g.rule id).rhs.drop (k + 1)) u after⟩ ∈
      pathProductions paths := by
  subst hs
  have hrhs : (g.rule id).rhs = (g.rule id).rhs.take k ++ slot :: (g.rule id).rhs.drop (k + 1) := by
    obtain ⟨hlt, rfl⟩ := List.getElem?_eq_some_iff.mp hslot
    rw [List.getElem_cons_drop, List.take_append_drop]
  have hroute := hbefore.append (.cons hX hgoto hafter)
  rw [← hrhs] at hroute
  refine ⟨a.along ((g.rule id).rhs.take k) p before, (mem_pathProductions hpaths).mpr ⟨p, id, _, hp, hroute, ?_⟩⟩
  rw [Production.mk.injEq]
  refine ⟨rfl, ?_⟩
  conv_rhs => rw [hrhs]
  exact (hbefore.along_append (slot :: (g.rule id).rhs.drop (k + 1)) (u :: after)).symm

include ha

/-- **A valid item is followed by its terminal** in the state where it was begun. -/
theorem followed_of_valid (hg : g.Proper) (hfree : .nonterminal g.start ∉ Grammar.rhsSymbols g.rules)
    (hempty : .terminal .empty ∉ Grammar.rhsSymbols g.rules) {row : List Symbol} {i : Item} {t : Terminal}
    (h : g.ValidItem row i t) : ∀ {s : StateId}, a.LeadsTo s row →
    ∃ p route, ⟨i.rule, 0⟩ ∈ a.items p ∧ a.Route ((g.rule i.rule).rhs.take i.point) p route ∧
      route.getLastD p = s ∧ FollowedAt g paths (lhsPath g a p i.rule) t := by
  induction h with
  | start ht =>
    intro s hs
    obtain rfl := hs.eq_zero
    refine ⟨0, [], (ha.start _).mpr (.kernel rfl), .nil, rfl, ?_⟩
    -- no move leads over the start nonterminal
    have hnone : a.goto? 0 (.nonterminal g.start) = none := by
      by_contra hsome
      obtain ⟨t, hgoto⟩ := Option.ne_none_iff_exists'.mp hsome
      obtain ⟨i, -, hbefore⟩ := ha.before hgoto
      exact hfree hbefore.mem_rhsSymbols
    rw [lhsPath, hg.lhs_startRule, hnone]
    exact .ends ht
  | @read row i t X _ hbefore ih =>
    intro s hs
    -- the route goes on over the symbol that was read
    obtain ⟨q, hq, hgoto⟩ := hs.exists_last
    obtain ⟨p, route, hp, hroute, rfl, hfollow⟩ := ih hq
    obtain ⟨slot, hslot, hX⟩ := hbefore
    refine ⟨p, route ++ [s], hp, ?_, getLastD_append .., hfollow⟩
    rw [Item.advance, List.take_add_one]
    exact hroute.append (congrArg (Route a ·.toList _ _) hslot ▸ .cons hX hgoto .nil)
  | @predict row i t u id _ hid hbefore hbegins ih =>
    intro s hs
    obtain ⟨p, route, hp, hroute, hlast, hfollow⟩ := ih hs
    -- the rule that predicts stands in the same state, with its point before the nonterminal
    have hi : i ∈ a.items s := by
      have hrhs : (g.rule i.rule).rhs.drop 0 =
          (g.rule i.rule).rhs.take i.point ++ (g.rule i.rule).rhs.drop i.point := by
        rw [List.drop_zero, List.take_append_drop]
      have hmem := hroute.mem_items ha hrhs hp
      rwa [hlast, Nat.zero_add, List.length_take_of_le (Nat.le_of_lt hbefore.lt.2)] at hmem
    obtain ⟨v, hgoto⟩ := ha.move hi hbefore
    have hi' := ha.advance_mem hi hbefore hgoto
    obtain ⟨slot, hslot, hX⟩ := hbefore
    have hx : lhsPath g a s id ∈ a.between slot s v := mem_between.mpr ⟨_, hX, hgoto, by rw [lhsPath, hgoto]⟩
    refine ⟨s, [], ha.closed hi hid ⟨slot, hslot, hX⟩, .nil, rfl, ?_⟩
    -- the terminal begins what is behind the nonterminal, or follows the rule if that can be empty
    rcases (Grammar.begins_iff hempty Grammar.mem_rhsSymbols_drop).mp hbegins with ⟨hfirst, hne⟩ | ⟨hfirst, rfl⟩
    · obtain ⟨after, hafter, hfirst⟩ := exists_route_first hpaths ha hfirst rfl rfl hi'
      obtain ⟨pre, hmem⟩ := exists_place hpaths hp hroute hlast hslot hX hgoto hafter
      exact .next hmem rfl hx rfl hfirst hne
    · obtain ⟨after, hafter, hfirst⟩ := exists_route_first hpaths ha hfirst rfl rfl hi'
      obtain ⟨pre, hmem⟩ := exists_place hpaths hp hroute hlast hslot hX hgoto hafter
      exact .last hmem rfl hx rfl hfirst hfollow

/-- **What follows a path symbol makes the rules of its nonterminal valid** for a row that leads to its
state, if every item there is valid for some terminal. -/
theorem exists_valid (hg : g.Proper) (hempty : .terminal .empty ∉ Grammar.rhsSymbols g.rules)
    (hreach : ∀ {s i}, i ∈ a.items s → ∃ row, a.LeadsTo s row)
    (hvalid : ∀ {s i row}, i ∈ a.items s → a.LeadsTo s row → ∃ t, g.ValidItem row i t)
    {x : PathSymbol} {t : Terminal} (h : FollowedAt g paths x t) :
    ∃ row, a.LeadsTo x.start row ∧ ∀ id, id < g.rules.length → x.symbol = .nonterminal (g.rule id).lhs →
      g.ValidItem row ⟨id, 0⟩ t := by
  induction h with
  | ends ht =>
    refine ⟨[], .nil, fun id hid hlhs => ?_⟩
    obtain rfl := hg.startRule_unique id hid (Symbol.nonterminal.inj hlhs).symm
    exact .start ht
  | next hp hslots hx _ hfirst hne =>
    obtain ⟨q, j, route, hj, hroute, rfl⟩ := (mem_pathProductions hpaths).mp hp
    obtain ⟨front, slot, back, before, u, after, hrhs, hbefore, rfl, hafter, rfl⟩ := hroute.split hslots
    obtain ⟨X, hX, -, rfl⟩ := mem_between.mp hx
    obtain ⟨row, hrow⟩ := hreach hj
    obtain ⟨w, hw⟩ := hvalid hj hrow
    obtain ⟨row', hrow', hat⟩ := valid_along (k := 0) hbefore hrhs hrow hw
    refine ⟨row', hrow', fun id hid hlhs => hat.predict_behind hrhs hid (hlhs ▸ hX) ?_⟩
    exact (Grammar.begins_iff hempty (Grammar.mem_rhsSymbols_behind hrhs)).mpr
      (.inl ⟨firstOf_of_along hpaths ha hfirst hafter rfl, hne⟩)
  | last hp hslots hx _ hfirst _ ih =>
    obtain ⟨q, j, route, hj, hroute, rfl⟩ := (mem_pathProductions hpaths).mp hp
    obtain ⟨front, slot, back, before, u, after, hrhs, hbefore, rfl, hafter, rfl⟩ := hroute.split hslots
    obtain ⟨X, hX, -, rfl⟩ := mem_between.mp hx
    obtain ⟨row, hrow, hw⟩ := ih
    obtain ⟨row', hrow', hat⟩ := valid_along (k := 0) hbefore hrhs hrow (hw j (ha.valid hj).1 rfl)
    refine ⟨row', hrow', fun id hid hlhs => hat.predict_behind hrhs hid (hlhs ▸ hX) ?_⟩
    exact (Grammar.begins_iff hempty (Grammar.mem_rhsSymbols_behind hrhs)).mpr
      (.inr ⟨firstOf_of_along hpaths ha hfirst hafter rfl, rfl⟩)

end Follow

/-- Every item of a state is valid for some terminal. -/
theorem LeadsTo.exists_valid (ha : a.Tracks g) (hends : g.ends ≠ []) (hbegun : g.Begun)
    (hempty : .terminal .empty ∉ Grammar.rhsSymbols g.rules) {s : StateId} {row : List Symbol}
    (h : a.LeadsTo s row) : ∀ {i}, i ∈ a.items s → ∃ t, g.ValidItem row i t := by
  induction h with
  | nil =>
    intro i hi
    refine Grammar.Predicts.exists_valid hbegun hempty ?_ ((ha.start i).mp hi)
    rintro _ rfl
    obtain ⟨t, ht⟩ := List.exists_mem_of_ne_nil _ hends
    exact ⟨t, .start ht⟩
  | concat _ hgoto ih =>
    intro i hi
    refine Grammar.Predicts.exists_valid hbegun hempty ?_ ((ha.target hgoto i).mp hi)
    rintro _ ⟨j, hj, hbefore, rfl⟩
    obtain ⟨t, ht⟩ := ih hj
    exact ⟨t, ht.read hbefore⟩

/-! ## 7. Lookaheads -/

/-- Some row leads to every state that has items. -/
theorem exists_leadsTo (h : ofGrammar g = .ok a) (hstart : g.startRule < g.rules.length) {s : StateId}
    {i : Item} (hi : i ∈ a.items s) : ∃ row, a.LeadsTo s row := by
  have hlt := (Array.getElem?_eq_some_iff.mp (isState_of_mem h hstart hi).1).1
  have hreach := (Grammar.exploration_canonical hstart).reachable s hlt
  clear hlt hi
  induction hreach with
  | refl => exact ⟨[], .nil⟩
  | tail _ hmove ih =>
    obtain ⟨row, hrow⟩ := ih
    obtain ⟨X, hX⟩ := hmove
    exact ⟨row ++ [X], hrow.concat (((exploration_kept h hstart).2 _ X).trans hX)⟩

/-- The lookaheads of a completion are what follows the left-hand sides of its walks. -/
theorem find?_lookaheads {paths : List PathRule} (hends : Sorted.Increasing g.ends) {path : PathRule}
    (hpath : path ∈ paths) : ∃ ts, find? ⟨path.final, path.rule⟩ (lookaheads g paths) = some ts ∧
      ∀ t, t ∈ ts ↔ ∃ other ∈ paths, (⟨path.final, path.rule⟩ : Completion) = ⟨other.final, other.rule⟩ ∧
        FollowedAt g paths other.lhs t := by
  obtain ⟨ts, hts⟩ := Option.isSome_iff_exists.mp
    (Sorted.find?_isSome_iff.mpr (mem_keys_lookaheads.mpr ⟨path, hpath, rfl⟩))
  refine ⟨ts, hts, fun t => ?_⟩
  have hinc := (lookaheads_spec (pathFollow g paths) paths [] List.Pairwise.nil).1
  simp only [FollowedAt, ← mem_followSets_iff hends]
  refine Iff.trans ⟨fun ht => ⟨ts, Sorted.mem_of_find? hts, ht⟩, ?_⟩ mem_lookaheads
  rintro ⟨ts', hmem, ht⟩
  obtain rfl := Option.some.inj (hts.symm.trans (Sorted.find?_of_mem hinc hmem))
  exact ht

/-- The walks of a rule to a state in which it is complete. -/
theorem RoutesFound.mem_completion {paths : List PathRule} (hpaths : a.RoutesFound g paths)
    {s : StateId} {id : RuleId} {x : PathSymbol} :
    (∃ path ∈ paths, (⟨s, id⟩ : Completion) = ⟨path.final, path.rule⟩ ∧ x = path.lhs) ↔
      ∃ p route, ⟨id, 0⟩ ∈ a.items p ∧ a.Route (g.rule id).rhs p route ∧ route.getLastD p = s ∧
        x = lhsPath g a p id := by
  constructor
  · rintro ⟨path, hpath, heq, rfl⟩
    obtain ⟨p, id', route, hp, hroute, rfl⟩ := (hpaths.mem path).mp hpath
    obtain ⟨rfl, rfl⟩ := Completion.mk.inj heq
    exact ⟨p, route, hp, hroute, rfl, rfl⟩
  · rintro ⟨p, route, hp, hroute, rfl, rfl⟩
    exact ⟨_, (hpaths.mem _).mpr ⟨p, id, route, hp, hroute, rfl⟩, rfl, rfl⟩

/-- A terminal with which the complete rule is valid for some row that leads to the state. -/
def ValidBefore (g : Grammar) (a : Automaton) (s : StateId) (id : RuleId) (t : Terminal) : Prop :=
  ∃ row, a.LeadsTo s row ∧ g.ValidItem row ⟨id, (g.rule id).rhs.length⟩ t

/-- **Lookaheads and valid items.**  Every terminal with which a rule is valid in a state in which it is
complete is a lookahead; and if there is an end terminal and every nonterminal has a beginning, every
lookahead is such a terminal. -/
theorem lookaheads_valid {start : String} {rules : List Rule} {ends : List Terminal}
    (h : Grammar.ofRules start rules ends = .ok g)
    (hfree : .nonterminal start ∉ Grammar.rhsSymbols rules)
    (hempty : .terminal .empty ∉ Grammar.rhsSymbols rules) (ha : ofGrammar g = .ok a) :
    ∃ paths, a.pathRules g = .ok paths ∧
      ∀ s id, ⟨id, (g.rule id).rhs.length⟩ ∈ a.items s →
        ∃ ts, find? ⟨s, id⟩ (lookaheads g paths) = some ts ∧ (∀ t, a.ValidBefore g s id t → t ∈ ts) ∧
          (ends ≠ [] → g.Begun → ∀ t, t ∈ ts ↔ a.ValidBefore g s id t) := by
  have hg := Grammar.proper_ofRules h
  obtain ⟨rfl, rfl, hends, -⟩ := Grammar.ofRules_eq h
  have htracks := tracks_ofGrammar ha hg.startRule_lt
  obtain ⟨paths, hpaths⟩ := pathRules_ok htracks
  have hfound := routesFound (nodup_items ha hg.startRule_lt) hpaths
  refine ⟨paths, hpaths, fun s id hi => ?_⟩
  have hbegin : ∀ {p route}, a.Route ((g.rule id).rhs.take (g.rule id).rhs.length) p route ↔
      a.Route (g.rule id).rhs p route := by simp
  obtain ⟨row, hrow⟩ := exists_leadsTo ha hg.startRule_lt hi
  obtain ⟨p, route, hp, hroute, hlast⟩ := exists_begin htracks hrow hi
  obtain ⟨path, hpath, heq, -⟩ := hfound.mem_completion.mpr ⟨p, route, hp, hbegin.mp hroute, hlast, rfl⟩
  obtain ⟨ts, hts, hmem⟩ := find?_lookaheads hg.ends hpath
  rw [← heq] at hts hmem
  -- the lookaheads are what follows the path symbols from which the rule was walked
  have hmem' : ∀ t, t ∈ ts ↔ ∃ p route, ⟨id, 0⟩ ∈ a.items p ∧ a.Route (g.rule id).rhs p route ∧
      route.getLastD p = s ∧ FollowedAt g paths (lhsPath g a p id) t := by
    intro t
    rw [hmem]
    constructor
    · rintro ⟨path, hpath, heq, hfollow⟩
      obtain ⟨p, route, hp, hroute, hlast, hx⟩ := hfound.mem_completion.mp ⟨path, hpath, heq, rfl⟩
      exact ⟨p, route, hp, hroute, hlast, hx ▸ hfollow⟩
    · rintro ⟨p, route, hp, hroute, hlast, hfollow⟩
      obtain ⟨path, hpath, heq, hx⟩ := hfound.mem_completion.mpr ⟨p, route, hp, hroute, hlast, rfl⟩
      exact ⟨path, hpath, heq, hx ▸ hfollow⟩
  have hcontains : ∀ t, a.ValidBefore g s id t → t ∈ ts := by
    rintro t ⟨row, hrow, hvalid⟩
    obtain ⟨p, route, hp, hroute, hlast, hfollow⟩ :=
      followed_of_valid hfound htracks hg hfree hempty hvalid hrow
    exact (hmem' t).mpr ⟨p, route, hp, hbegin.mp hroute, hlast, hfollow⟩
  refine ⟨ts, hts, hcontains, fun hsome hbegun t => ⟨fun ht => ?_, hcontains t⟩⟩
  -- what follows there follows in some row, and the rule is walked from that row
  obtain ⟨p, route, hp, hroute, rfl, hfollow⟩ := (hmem' t).mp ht
  have hsome : g.ends ≠ [] := by
    obtain ⟨e, he⟩ := List.exists_mem_of_ne_nil _ hsome
    exact List.ne_nil_of_mem (hends ▸ Sorted.mem_ofList.mpr he)
  obtain ⟨row, hrow, hat⟩ := exists_valid hfound htracks hg hempty
    (exists_leadsTo ha hg.startRule_lt)
    (fun hi hrow => hrow.exists_valid htracks hsome hbegun hempty hi) hfollow
  have hrhs : (g.rule id).rhs.drop 0 = (g.rule id).rhs ++ [] := by rw [List.append_nil, List.drop_zero]
  obtain ⟨row', hrow', hvalid⟩ := valid_along hroute hrhs hrow (hat id (htracks.valid hp).1 rfl)
  exact ⟨row', hrow', by rwa [Nat.zero_add] at hvalid⟩

theorem lookaheads_valid_letters : ∃ a paths, ofGrammar Grammar.letters = .ok a ∧
    a.pathRules Grammar.letters = .ok paths ∧
    ∀ s id, ⟨id, (Grammar.letters.rule id).rhs.length⟩ ∈ a.items s →
      ∃ ts, find? ⟨s, id⟩ (lookaheads Grammar.letters paths) = some ts ∧
        ∀ t, t ∈ ts ↔ a.ValidBefore Grammar.letters s id t := by
  obtain ⟨a, ha⟩ := exists_ofGrammar_letters
  have hbegun : Grammar.letters.Begun := by
    intro name hname
    have hname : name = "letters" := by
      simpa [Grammar.rhsSymbols, Grammar.letters, Slot.one] using hname
    subst hname
    have hstep : Grammar.letters.Develops [.nonterminal "letters"] [] :=
      @Grammar.Develops.expand Grammar.letters 1 [] [] [] (by decide) .nil
    exact ⟨.empty, .inl ⟨rfl, .single hstep⟩⟩
  obtain ⟨paths, hpaths, hall⟩ := lookaheads_valid Grammar.ofRules_letters (by decide) (by decide) ha
  refine ⟨a, paths, ha, hpaths, fun s id hi => ?_⟩
  obtain ⟨ts, hts, -, hmem⟩ := hall s id hi
  exact ⟨ts, hts, hmem (by decide) hbegun⟩

/-- A row that ends with a nonterminal of which nothing ever comes. -/
def stalled : Grammar :=
  ⟨"start", [⟨"start", [.one (.nonterminal "C"), .one (.nonterminal "X")], none, false, none, none⟩,
    ⟨"X", [.one (.nonterminal "X")], none, false, none, none⟩,
    ⟨"C", [.one (.nonterminal "A"), .one (.terminal (.kind "b"))], none, false, none, none⟩,
    ⟨"A", [.one (.terminal (.kind "a"))], none, false, none, none⟩], [.eof], 0⟩

/-- A grammar without end terminals. -/
def endless : Grammar :=
  ⟨"start", [⟨"start", [.one (.nonterminal "A"), .one (.terminal (.kind "b"))], none, false, none, none⟩,
    ⟨"A", [.one (.terminal (.kind "a"))], none, false, none, none⟩], [], 0⟩

/-- Nothing comes of a nonterminal without rules. -/
theorem stalled_expands {t : Terminal} {row : List Symbol}
    (h : stalled.Expands [.nonterminal "X", .terminal t] row) : row = [.nonterminal "X", .terminal t] := by
  induction h with
  | refl => rfl
  | tail _ hstep ih =>
    subst ih
    generalize hrow : [Symbol.nonterminal "X", .terminal t] = row at hstep
    obtain @⟨id, choice, front, back, hid, hchoice⟩ := hstep
    rcases front with _ | ⟨_, _ | ⟨_, front⟩⟩
    · obtain ⟨hlhs, rfl⟩ := List.cons.inj hrow
      have hone : ∀ id < stalled.rules.length, (stalled.rule id).lhs = "X" → id = 1 := by decide
      obtain rfl := hone id hid (Symbol.nonterminal.inj hlhs).symm
      obtain _ | ⟨hX, _ | _⟩ := hchoice
      rw [List.mem_singleton.mp hX]
      rfl
    · simp at hrow
    · simp at hrow

/-- Only the start rule and the nonterminal behind it are ever valid. -/
theorem stalled_valid {row : List Symbol} {i : Item} {t : Terminal} (h : stalled.ValidItem row i t) :
    i.rule ≤ 1 := by
  induction h with
  | start => exact Nat.zero_le _
  | read _ _ ih => exact ih
  | @predict row i t u id _ hid hbefore hbegins ih =>
    -- of the rules that the start rule predicts, the first comes before the nonterminal that never ends
    have hfirst : ∀ j < 2, ∀ k < (stalled.rule j).rhs.length, ∀ id < stalled.rules.length,
        (((stalled.rule j).rhs[k]?).any fun slot =>
          slot.symbols.contains (.nonterminal (stalled.rule id).lhs)) = true →
        id ≤ 1 ∨ j + k = 0 := by decide
    obtain ⟨j, k⟩ := i
    have hlt := hbefore.lt.2
    obtain ⟨slot, hslot, hX⟩ := hbefore
    rcases hfirst j (Nat.lt_succ_of_le ih) k hlt id hid (by
      rw [show (stalled.rule j).rhs[k]? = some slot from hslot]
      simpa using hX) with hle | hzero
    · exact hle
    · obtain ⟨rfl, rfl⟩ := Nat.add_eq_zero_iff.mp hzero
      obtain ⟨choice, rest, hchoice, hexpands⟩ := hbegins
      obtain _ | ⟨hY, _ | _⟩ := hchoice
      rw [List.mem_singleton.mp hY] at hexpands
      cases stalled_expands hexpands

theorem endless_valid {row : List Symbol} {i : Item} {t : Terminal} (h : endless.ValidItem row i t) :
    False := by
  induction h with
  | start ht => cases ht
  | read _ _ ih => exact ih
  | predict _ _ _ _ ih => exact ih

/-- Some lookaheads are no valid ones: those of a rule that is never valid because nothing comes of what
stands behind it, and all those of a grammar without end terminals. -/
theorem lookaheads_not_always_valid :
    (Grammar.ofRules "start" stalled.rules [.eof] = .ok stalled ∧ ∃ a paths ts,
      ofGrammar stalled = .ok a ∧ a.pathRules stalled = .ok paths ∧
      ⟨3, 1⟩ ∈ a.items 1 ∧ find? ⟨1, 3⟩ (lookaheads stalled paths) = some ts ∧ .kind "b" ∈ ts ∧
      ¬ a.ValidBefore stalled 1 3 (.kind "b")) ∧
    (Grammar.ofRules "start" endless.rules [] = .ok endless ∧ ∃ a paths ts,
      ofGrammar endless = .ok a ∧ a.pathRules endless = .ok paths ∧
      ⟨1, 1⟩ ∈ a.items 1 ∧ find? ⟨1, 1⟩ (lookaheads endless paths) = some ts ∧ .kind "b" ∈ ts ∧
      ¬ a.ValidBefore endless 1 1 (.kind "b")) := by
  have hstalled : (ofGrammar stalled >>= fun a => a.pathRules stalled >>= fun paths =>
      .ok ((a.items 1).contains ⟨3, 1⟩, find? ⟨1, 3⟩ (lookaheads stalled paths))) =
        .ok (true, some [.kind "b"]) := by decide +kernel
  have hendless : (ofGrammar endless >>= fun a => a.pathRules endless >>= fun paths =>
      .ok ((a.items 1).contains ⟨1, 1⟩, find? ⟨1, 1⟩ (lookaheads endless paths))) =
        .ok (true, some [.kind "b"]) := by decide +kernel
  obtain ⟨a, ha, hstalled⟩ := bind_eq_ok.mp hstalled
  obtain ⟨paths, hpaths, hstalled⟩ := bind_eq_ok.mp hstalled
  obtain ⟨hitem, hfind⟩ := Prod.mk.inj (Except.ok.inj hstalled)
  obtain ⟨a', ha', hendless⟩ := bind_eq_ok.mp hendless
  obtain ⟨paths', hpaths', hendless⟩ := bind_eq_ok.mp hendless
  obtain ⟨hitem', hfind'⟩ := Prod.mk.inj (Except.ok.inj hendless)
  refine ⟨⟨rfl, a, paths, _, ha, hpaths, List.contains_iff_mem.mp hitem, hfind, List.mem_singleton.mpr rfl, ?_⟩,
    rfl, a', paths', _, ha', hpaths', List.contains_iff_mem.mp hitem', hfind', List.mem_singleton.mpr rfl, ?_⟩
  · rintro ⟨row, -, hvalid⟩
    exact absurd (stalled_valid hvalid) (by decide)
  · rintro ⟨row, -, hvalid⟩
    exact endless_valid hvalid

end Automaton

end Lode
