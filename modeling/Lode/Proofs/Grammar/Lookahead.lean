/-
# Lookaheads are large enough

A trail follows a row of symbols from state to state through the automaton, along the places of a walk.
When the row yields a word, the first terminal of the word is among the first terminals of the places
(`Trail.first`), and what comes after a nonterminal of the row is in the Follow set of its path symbol
(`Trail.follow`).  So a rule has every lookahead before which a derivation wants it reduced.

Both are shown by induction on the tree of the derivation and not on the trail: the places of a walk say
what a symbol begins with, but this was found by rounds over all rules, and the rule that a nonterminal is
expanded by has a walk of its own from the same state (`exists_trail`).  The First and Follow sets enter
only as solutions of their equations, so nothing is used here of how they were computed.
-/
import Lode.Proofs.Grammar.Derivation
import Lode.Proofs.Grammar.Table

namespace Lode

variable {g : Grammar} {a : Automaton} {paths : List PathRule}

/-! ## 1. Trails -/

/-- A row of symbols that can be followed from a state, the places of a walk it goes along, and the
states it passes. -/
inductive Trail (g : Grammar) (a : Automaton) :
    StateId → List Symbol → List (List PathSymbol) → List StateId → Prop
  | nil {s : StateId} : Trail g a s [] [] []
  | cons {s t : StateId} {X : Symbol} {row : List Symbol} {place : List PathSymbol}
      {path : List (List PathSymbol)} {states : List StateId} (i : Item) :
      i ∈ a.items s → i.Before g X → a.goto? s X = some t → ⟨s, X, some t⟩ ∈ place →
      Trail g a t row path states → Trail g a s (X :: row) (place :: path) (t :: states)

/-- The last of the states of a trail. -/
def lastState : StateId → List StateId → StateId
  | s, [] => s
  | _, t :: states => lastState t states

/-- A choice of symbols for the slots behind a point can be followed from the state. -/
theorem Automaton.exists_choice (ha : a.Tracks g) {id : RuleId} : ∀ {slots : List Slot} {s : StateId}
    {k : Nat} {row : List Symbol}, (g.rule id).rhs.drop k = slots → ⟨id, k⟩ ∈ a.items s →
    List.Forall₂ (fun slot X => X ∈ slot.symbols) slots row →
    ∃ choice final, a.Choice slots s choice final ∧
      ∀ path, List.Forall₂ (· ∈ ·) choice path → ∃ states,
        Trail g a s row path states ∧ lastState s states = final
  | [], s, k, _, _, _, .nil => ⟨[], s, .nil, by rintro _ ⟨⟩; exact ⟨[], .nil, rfl⟩⟩
  | slot :: slots, s, k, X :: row, hdrop, hi, .cons hX hrow => by
    obtain ⟨hslot, hdrop'⟩ := drop_rhs_cons hdrop
    have hbefore : (⟨id, k⟩ : Item).Before g X := ⟨slot, hslot, hX⟩
    obtain ⟨t, hgoto⟩ := ha.move hi hbefore
    obtain ⟨choice, final, hchoice, htrail⟩ :=
      exists_choice ha hdrop' (ha.advance_mem hi hbefore hgoto) hrow
    refine ⟨⟨s, X, some t⟩ :: choice, final, .cons hX hgoto hchoice, ?_⟩
    rintro _ (_ | ⟨hplace, hpath⟩)
    obtain ⟨states, hstates, hlast⟩ := htrail _ hpath
    exact ⟨t :: states, .cons _ hi hbefore hgoto hplace hstates, hlast⟩

/-- A right-hand side can be followed from a state that holds its rule untouched, along one of the
walks of the rule. -/
theorem exists_trail (ha : a.Tracks g) (hpaths : a.pathRules g = .ok paths) {s : StateId}
    {id : RuleId} {row : List Symbol} (hitem : ⟨id, 0⟩ ∈ a.items s) (hrow : (g.rule id).Expands row) :
    ∃ path states, Trail g a s row path states ∧
      ⟨id, Automaton.lhsPath g a s id, path, lastState s states⟩ ∈ paths := by
  obtain ⟨choice, final, hchoice, htrail⟩ := Automaton.exists_choice ha (k := 0) List.drop_zero
    hitem hrow
  obtain ⟨found, hfound⟩ := Automaton.walks_ok ha (k := 0) List.drop_zero hitem
  obtain ⟨path, hmem, hcover⟩ := Automaton.exists_walk hchoice hfound
  obtain ⟨states, hstates, hlast⟩ := htrail path hcover
  exact ⟨path, states, hstates,
    (Automaton.mem_pathRules hpaths).mpr ⟨s, id, found, path, final, hitem, hfound, hmem, by rw [hlast]⟩⟩

namespace Trail

theorem length_eq {s : StateId} {row : List Symbol} {path : List (List PathSymbol)}
    {states : List StateId} (h : Trail g a s row path states) : states.length = row.length := by
  induction h with
  | nil => rfl
  | cons _ _ _ _ _ _ ih => rw [List.length_cons, List.length_cons, ih]

theorem mem_rhsSymbols {s : StateId} {row : List Symbol} {path : List (List PathSymbol)}
    {states : List StateId} (h : Trail g a s row path states) {X : Symbol} (hX : X ∈ row) :
    X ∈ Grammar.rhsSymbols g.rules := by
  induction h with
  | nil => simp at hX
  | cons _ _ hbefore _ _ _ ih =>
    rcases List.mem_cons.mp hX with rfl | hX
    · exact hbefore.mem_rhsSymbols
    · exact ih hX

/-- Only terminals of right-hand sides are yielded along a trail. -/
theorem terminal_mem {s : StateId} {row : List Symbol} {path : List (List PathSymbol)}
    {states : List StateId} (h : Trail g a s row path states) {word : List Terminal}
    (hyields : g.Yields row word) {t : Terminal} (ht : t ∈ word) :
    .terminal t ∈ Grammar.rhsSymbols g.rules :=
  (hyields.mem ht).elim h.mem_rhsSymbols id

/-- The state at the end of a trail from a state with items is one of the automaton. -/
theorem lastState_lt (ha : a.Tracks g) {s : StateId} {row : List Symbol}
    {path : List (List PathSymbol)} {states : List StateId} (h : Trail g a s row path states)
    (hs : s < a.states.size) : lastState s states < a.states.size := by
  induction h with
  | nil => exact hs
  | cons i _ _ hgoto _ _ ih => exact ih (ha.bound hgoto)

end Trail

/-! ## 2. First terminals -/

/-- The first terminal of a word, or the given one. -/
def firstOr (t : Terminal) (word : List Terminal) : Terminal := word.headD t

/-- The first terminal of two words is that of the first, unless that is empty. -/
theorem firstOr_append (t : Terminal) (u w : List Terminal) :
    firstOr t (u ++ w) = firstOr (firstOr t w) u := by
  cases u <;> rfl

section Sets

variable (ha : a.Tracks g) (hpaths : a.pathRules g = .ok paths)
  (hempty : .terminal .empty ∉ Grammar.rhsSymbols g.rules)
include ha hpaths hempty

/-- **What a row yields begins with a first terminal of its places**, the empty marker if it is
nothing. -/
theorem Trail.first {row : List Symbol} {word : List Terminal} (h : g.Yields row word) :
    ∀ {s : StateId} {path : List (List PathSymbol)} {states : List StateId},
      Trail g a s row path states →
      firstOr .empty word ∈ firstOfSlots (firstSets (pathProductions paths)) path := by
  induction h with
  | nil =>
    rintro _ _ _ ⟨⟩
    exact List.mem_singleton.mpr rfl
  | terminal t _ _ =>
    rintro s _ _ (_ | ⟨i, hi, hbefore, _, hplace, _⟩)
    refine mem_firstOfSlots_cons.mpr (.inl ⟨mem_firstOfSlot.mpr ⟨_, hplace, ?_⟩, ?_⟩)
    · exact List.mem_singleton.mpr rfl
    · rintro rfl
      exact hempty hbefore.mem_rhsSymbols
  | @nonterminal row choice word inner id hid hchoice hinner _ ihinner ih =>
    rintro s _ _ (_ | ⟨i, hi, hbefore, hgoto, hplace, hrest⟩)
    obtain ⟨path, states, htrail, hpath⟩ := exists_trail ha hpaths (ha.closed hi hid hbefore) hchoice
    -- the first terminals of the walk are those of its left-hand side
    have hlhs := (firstSets_closed (pathProductions paths)).2 _
      (List.mem_map.mpr ⟨_, hpath, rfl⟩) _ (ihinner htrail)
    have hslot : firstOr .empty inner ∈ firstOfSlot (firstSets (pathProductions paths)) _ :=
      mem_firstOfSlot.mpr ⟨_, hplace, by
        simpa [firstOfSymbol, GrammarSymbol.terminal?, Automaton.lhsPath, hgoto] using hlhs⟩
    rw [mem_firstOfSlots_cons]
    cases inner with
    | nil => exact .inr ⟨hslot, ih hrest⟩
    | cons t inner =>
      refine .inl ⟨hslot, ?_⟩
      rintro rfl
      exact hempty (htrail.terminal_mem hinner List.mem_cons_self)

/-- **What comes after a symbol of a walk follows its path symbol.**  The places behind the symbol
yield `word`, and `t` follows the left-hand side of the walk. -/
theorem Trail.follow (hends : Sorted.Increasing g.ends) {P : Production PathSymbol}
    (hP : P ∈ pathProductions paths) {pre : List (List PathSymbol)} {place : List PathSymbol}
    {path : List (List PathSymbol)} (hslots : P.slots = pre ++ place :: path) {x : PathSymbol}
    (hx : x ∈ place) (hname : x.symbol.nonterminal?.isSome) {s : StateId} {row : List Symbol}
    {states : List StateId} {word : List Terminal} (htrail : Trail g a s row path states)
    (hyields : g.Yields row word) {t : Terminal} (ht : t ∈ (pathFollow g paths).of P.lhs) :
    firstOr t word ∈ (pathFollow g paths).of x := by
  have hterminal : GrammarSymbol.terminal? x = none := by
    cases hX : x.symbol with
    | terminal u => simp [hX, Symbol.nonterminal?] at hname
    | nonterminal name => simp [GrammarSymbol.terminal?, hX]
  refine (followSets_closed (pathProductions paths) ⟨0, .nonterminal g.start, none⟩ hends).2.1 P hP
    pre place path x hslots hx hterminal _ (mem_afterSlot.mpr ?_)
  have hfirst := Trail.first ha hpaths hempty hyields htrail
  cases word with
  | nil => exact .inr ⟨hfirst, ht⟩
  | cons u word =>
    refine .inl ⟨hfirst, ?_⟩
    rintro rfl
    exact hempty (htrail.terminal_mem hyields List.mem_cons_self)

end Sets

end Lode
