/-
# What the rounds of updates find

The First and Follow sets are found by rounds that add terminals.  Here they are compared with two relations
that have a constructor for every reason to add one.  `FirstOf` says what a row of places can begin with,
the empty marker standing for nothing at all, and `FollowOf` what can come after a symbol.

A solution of the equations holds what the relations give, and a round adds nothing else, so at rest the
sets hold exactly that (`mem_firstOfSlots_iff`, `mem_followSets_iff`).  The two directions are of a
different kind.  That nothing else is added is an invariant of the rounds, whatever their number
(`TerminalSets.Holds`).  That all of it is found is an induction on the relation, and it needs that the
rounds have come to rest; this is where their bound counts (`Settles`).

The relations are about productions over any symbols.  They are used twice: for the symbols of a grammar,
where a place holds a choice of symbols, and for the path symbols of an automaton, where it holds all
symbols of a slot that lead to one state.
-/
import Lode.Proofs.Grammar.FirstFollow

namespace Lode

open Sorted (Increasing)

/-! ## 1. Rounds that come to rest -/

/-- Repeating the step leads from `a` to `b`, and a further step changes nothing. -/
def Settles {α : Type} (step : α → α) (a b : α) : Prop := (∃ rounds, step^[rounds] a = b) ∧ step b = b

variable {S : Type} [GrammarSymbol S]

/-- Every member of every set has a property. -/
structure TerminalSets.Holds (P : S → Terminal → Prop) (sets : TerminalSets S) : Prop where
  canonical : sets.Canonical
  member : ∀ x t, t ∈ sets.of x → P x t

/-! ## 2. First -/

/-- What a row of places can begin with, the empty marker if all of it can be empty. -/
inductive FirstOf (productions : List (Production S)) : List (List S) → Terminal → Prop
  | nil : FirstOf productions [] .empty
  | terminal {slot : List S} {slots : List (List S)} {s : S} {t : Terminal} : s ∈ slot →
      GrammarSymbol.terminal? s = some t → t ≠ .empty → FirstOf productions (slot :: slots) t
  | marker {slot : List S} {slots : List (List S)} {s : S} {t : Terminal} : s ∈ slot →
      GrammarSymbol.terminal? s = some .empty → FirstOf productions slots t →
      FirstOf productions (slot :: slots) t
  | inner {slot : List S} {slots : List (List S)} {p : Production S} {t : Terminal} : p ∈ productions →
      p.lhs ∈ slot → GrammarSymbol.terminal? p.lhs = none → FirstOf productions p.slots t → t ≠ .empty →
      FirstOf productions (slot :: slots) t
  | skip {slot : List S} {slots : List (List S)} {p : Production S} {t : Terminal} : p ∈ productions →
      p.lhs ∈ slot → GrammarSymbol.terminal? p.lhs = none → FirstOf productions p.slots .empty →
      FirstOf productions slots t → FirstOf productions (slot :: slots) t

namespace FirstOf

variable {productions : List (Production S)}

/-- A row that begins with a terminal begins with it whatever comes behind. -/
theorem append_left {slots more : List (List S)} {t : Terminal} (h : FirstOf productions slots t)
    (hne : t ≠ .empty) : FirstOf productions (slots ++ more) t := by
  induction h with
  | nil => exact absurd rfl hne
  | terminal hs hterm ht => exact .terminal hs hterm ht
  | marker hs hterm _ ih => exact .marker hs hterm (ih hne)
  | inner hp hlhs hterm hinner ht _ => exact .inner hp hlhs hterm hinner ht
  | skip hp hlhs hterm hempty _ _ ih => exact .skip hp hlhs hterm hempty (ih hne)

/-- A row behind one that can be empty. -/
theorem append_right {slots more : List (List S)} {t : Terminal} (h : FirstOf productions slots .empty)
    (hmore : FirstOf productions more t) : FirstOf productions (slots ++ more) t := by
  induction slots with
  | nil => exact hmore
  | cons slot slots ih =>
    cases h with
    | terminal _ _ hne => exact absurd rfl hne
    | marker hs hterm h => exact .marker hs hterm (ih h)
    | inner _ _ _ _ hne => exact absurd rfl hne
    | skip hp hlhs hterm hempty h => exact .skip hp hlhs hterm hempty (ih h)

/-- A row begins with what its first part begins with, or is empty there and goes on. -/
theorem append_iff {slots more : List (List S)} {t : Terminal} : FirstOf productions (slots ++ more) t ↔
    (FirstOf productions slots t ∧ t ≠ .empty) ∨
      (FirstOf productions slots .empty ∧ FirstOf productions more t) := by
  constructor
  · intro h
    induction slots with
    | nil => exact .inr ⟨.nil, h⟩
    | cons slot slots ih =>
      cases h with
      | terminal hs hterm hne => exact .inl ⟨.terminal hs hterm hne, hne⟩
      | marker hs hterm h =>
        exact (ih h).imp (fun h => ⟨.marker hs hterm h.1, h.2⟩) fun h => ⟨.marker hs hterm h.1, h.2⟩
      | inner hp hlhs hterm hinner hne => exact .inl ⟨.inner hp hlhs hterm hinner hne, hne⟩
      | skip hp hlhs hterm hempty h =>
        exact (ih h).imp (fun h => ⟨.skip hp hlhs hterm hempty h.1, h.2⟩)
          fun h => ⟨.skip hp hlhs hterm hempty h.1, h.2⟩
  · rintro (⟨h, hne⟩ | ⟨h, hmore⟩)
    · exact h.append_left hne
    · exact h.append_right hmore

end FirstOf

/-- The First set of a symbol holds only what one of its right-hand sides begins with. -/
def FirstOfSymbol (productions : List (Production S)) (x : S) (t : Terminal) : Prop :=
  ∃ p ∈ productions, p.lhs = x ∧ FirstOf productions p.slots t

variable {productions : List (Production S)}

/-- What is found for a row is what it can begin with, if this is so for symbols. -/
theorem firstOf_of_mem {first : TerminalSets S} (h : first.Holds (FirstOfSymbol productions)) {t : Terminal} :
    ∀ {slots : List (List S)}, t ∈ firstOfSlots first slots → FirstOf productions slots t
  | [], ht => by
    obtain rfl : t = .empty := by simpa [firstOfSlots] using ht
    exact .nil
  | slot :: slots, ht => by
    rcases mem_firstOfSlots_cons.mp ht with ⟨ht, hne⟩ | ⟨hempty, ht⟩
    · obtain ⟨s, hs, ht⟩ := mem_firstOfSlot.mp ht
      unfold firstOfSymbol at ht
      split at ht
      · rename_i u hterm
        obtain rfl : t = u := by simpa using ht
        exact .terminal hs hterm hne
      · rename_i hterm
        obtain ⟨p, hp, rfl, hfirst⟩ := h.member s t ht
        exact .inner hp hs hterm hfirst hne
    · obtain ⟨s, hs, hempty⟩ := mem_firstOfSlot.mp hempty
      unfold firstOfSymbol at hempty
      split at hempty
      · rename_i u hterm
        obtain rfl : .empty = u := by simpa using hempty
        exact .marker hs hterm (firstOf_of_mem h ht)
      · rename_i hterm
        obtain ⟨p, hp, rfl, hfirst⟩ := h.member s _ hempty
        exact .skip hp hs hterm hfirst (firstOf_of_mem h ht)

/-- A choice holds what one of its symbols begins with. -/
theorem mem_firstOfSlot_of_lhs {first : TerminalSets S} {p : Production S} {slot : List S} {t : Terminal}
    (hlhs : p.lhs ∈ slot) (hterm : GrammarSymbol.terminal? p.lhs = none) (ht : t ∈ first.of p.lhs) :
    t ∈ firstOfSlot first slot :=
  mem_firstOfSlot.mpr ⟨p.lhs, hlhs, by simpa [firstOfSymbol, hterm] using ht⟩

theorem mem_firstOfSlot_of_terminal {first : TerminalSets S} {s : S} {slot : List S} {t : Terminal}
    (hs : s ∈ slot) (hterm : GrammarSymbol.terminal? s = some t) : t ∈ firstOfSlot first slot :=
  mem_firstOfSlot.mpr ⟨s, hs, by simp [firstOfSymbol, hterm]⟩

section First

variable [Std.LawfulEqOrd S] [Std.TransOrd S]

theorem TerminalSets.Holds.add {P : S → Terminal → Prop} {sets : TerminalSets S} (h : sets.Holds P) {s : S}
    {ts : List Terminal} (hts : ∀ t ∈ ts, P s t) : (sets.add s ts).Holds P :=
  ⟨h.canonical.add s ts, fun x t ht => by
    rcases (TerminalSets.mem_of_add h.canonical).mp ht with hold | ⟨rfl, hnew⟩
    · exact h.member x t hold
    · exact hts t hnew⟩

theorem firstRound_holds : ∀ (part : List (Production S)) {first : TerminalSets S},
    (∀ p ∈ part, p ∈ productions) → first.Holds (FirstOfSymbol productions) →
    (firstRound part first).Holds (FirstOfSymbol productions)
  | [], _, _, h => h
  | p :: part, _, hpart, h =>
    firstRound_holds part (fun q hq => hpart q (List.mem_cons_of_mem _ hq))
      (h.add fun _ ht => ⟨p, hpart p List.mem_cons_self, rfl, firstOf_of_mem h ht⟩)

theorem initial_holds (P : S → Terminal → Prop) : (TerminalSets.initial productions).Holds P := by
  obtain ⟨hcan, -, hnil⟩ := initial_canonical productions
  exact ⟨hcan, fun x t ht => by simp [hnil x] at ht⟩

variable [DecidableEq S]

theorem firstSets_holds : (firstSets productions).Holds (FirstOfSymbol productions) :=
  stabilize_induct (fun _ h => firstRound_holds productions (fun _ hp => hp) h) _ (initial_holds _)

/-- **First sets hold exactly the beginnings.** -/
theorem mem_firstOfSlots_iff {slots : List (List S)} {t : Terminal} :
    t ∈ firstOfSlots (firstSets productions) slots ↔ FirstOf productions slots t := by
  refine ⟨firstOf_of_mem firstSets_holds, fun h => ?_⟩
  have hclosed := (firstSets_closed productions).2
  induction h with
  | nil => exact List.mem_singleton.mpr rfl
  | terminal hs hterm hne =>
    exact mem_firstOfSlots_cons.mpr (.inl ⟨mem_firstOfSlot_of_terminal hs hterm, hne⟩)
  | marker hs hterm _ ih =>
    exact mem_firstOfSlots_cons.mpr (.inr ⟨mem_firstOfSlot_of_terminal hs hterm, ih⟩)
  | inner hp hlhs hterm _ hne ih =>
    exact mem_firstOfSlots_cons.mpr (.inl ⟨mem_firstOfSlot_of_lhs hlhs hterm (hclosed _ hp _ ih), hne⟩)
  | skip hp hlhs hterm _ _ ihempty ih =>
    exact mem_firstOfSlots_cons.mpr
      (.inr ⟨mem_firstOfSlot_of_lhs hlhs hterm (hclosed _ hp _ ihempty), ih⟩)

/-- The First set of a symbol holds what its right-hand sides begin with. -/
theorem mem_firstSets_iff {x : S} {t : Terminal} :
    t ∈ (firstSets productions).of x ↔ FirstOfSymbol productions x t := by
  refine ⟨firstSets_holds.member x t, ?_⟩
  rintro ⟨p, hp, rfl, h⟩
  exact (firstSets_closed productions).2 p hp t (mem_firstOfSlots_iff.mpr h)

theorem firstSets_settles : Settles (firstRound productions) (TerminalSets.initial productions)
    (firstSets productions) :=
  ⟨⟨_, (stabilize_eq_iterate ..).symm⟩, (firstSets_fixed productions).2⟩

/-- Every left-hand side has a First set. -/
theorem firstSets_has {p : Production S} (hp : p ∈ productions) : (firstSets productions).Has p.lhs := by
  refine (stabilize_induct (P := fun sets : TerminalSets S =>
      sets.Within (leftSides productions) (firstMembers productions) ∧ sets.Has p.lhs) (fun sets h => ?_) _
    ⟨first_initial_within productions, ((initial_canonical productions).2.1 _).mpr ⟨p, hp, rfl⟩⟩).2
  obtain ⟨hwithin, hle, -⟩ := firstRound_within h.1
  exact ⟨hwithin, hle.has _ h.2⟩

end First

/-! ## 3. Follow -/

/-- What can come after a symbol: an end terminal after the start symbol, what the places behind it begin
with, and if these can be empty what comes after the left-hand side. -/
inductive FollowOf (productions : List (Production S)) (start : S) (ends : List Terminal) :
    S → Terminal → Prop
  | ends {t : Terminal} : t ∈ ends → FollowOf productions start ends start t
  | next {p : Production S} {pre post : List (List S)} {slot : List S} {s : S} {t : Terminal} :
      p ∈ productions → p.slots = pre ++ slot :: post → s ∈ slot → GrammarSymbol.terminal? s = none →
      FirstOf productions post t → t ≠ .empty → FollowOf productions start ends s t
  | last {p : Production S} {pre post : List (List S)} {slot : List S} {s : S} {t : Terminal} :
      p ∈ productions → p.slots = pre ++ slot :: post → s ∈ slot → GrammarSymbol.terminal? s = none →
      FirstOf productions post .empty → FollowOf productions start ends p.lhs t →
      FollowOf productions start ends s t

variable [Std.LawfulEqOrd S] [Std.TransOrd S]

theorem addSlot_holds {P : S → Terminal → Prop} {added : List Terminal} : ∀ (slot : List S)
    {sets : TerminalSets S}, sets.Holds P →
    (∀ s ∈ slot, GrammarSymbol.terminal? s = none → ∀ t ∈ added, P s t) →
    TerminalSets.Holds P (slot.foldl (fun sets s =>
      if (GrammarSymbol.terminal? s).isNone then sets.add s added else sets) sets)
  | [], _, h, _ => h
  | s :: slot, sets, h, hadded => by
    rw [List.foldl_cons]
    refine addSlot_holds slot ?_ fun s' hs' => hadded s' (List.mem_cons_of_mem _ hs')
    split
    · rename_i hterm
      exact h.add (hadded s List.mem_cons_self (by simpa using hterm))
    · exact h

theorem followSlots_holds {P : S → Terminal → Prop} {first : TerminalSets S} {after : List Terminal} :
    ∀ (slots : List (List S)) {sets : TerminalSets S}, sets.Holds P →
    (∀ pre slot post, slots = pre ++ slot :: post → ∀ s ∈ slot, GrammarSymbol.terminal? s = none →
      ∀ t ∈ afterSlot first after post, P s t) →
    (followSlots first after slots sets).Holds P
  | [], _, h, _ => h
  | slot :: slots, _, h, hslots =>
    followSlots_holds slots (addSlot_holds slot h (hslots [] slot slots rfl))
      fun pre slot' post heq => hslots (slot :: pre) slot' post (by rw [heq]; rfl)

variable [DecidableEq S] {start : S} {ends : List Terminal}

/-- A round adds to Follow sets only what can come after a symbol. -/
theorem followRound_holds : ∀ (part : List (Production S)) {follow : TerminalSets S},
    (∀ p ∈ part, p ∈ productions) → follow.Holds (FollowOf productions start ends) →
    (followRound part (firstSets productions) follow).Holds (FollowOf productions start ends)
  | [], _, _, h => h
  | p :: part, follow, hpart, h => by
    have hp := hpart p List.mem_cons_self
    refine followRound_holds part (fun q hq => hpart q (List.mem_cons_of_mem _ hq))
      (followSlots_holds p.slots h fun pre slot post heq s hs hterm t ht => ?_)
    rcases mem_afterSlot.mp ht with ⟨ht, hne⟩ | ⟨hempty, ht⟩
    · exact .next hp heq hs hterm (mem_firstOfSlots_iff.mp ht) hne
    · exact .last hp heq hs hterm (mem_firstOfSlots_iff.mp hempty) (h.member _ t ht)

/-- **Follow sets hold exactly what can come after a symbol.** -/
theorem mem_followSets_iff (hends : Increasing ends) {x : S} {t : Terminal} :
    t ∈ (followSets productions start ends).of x ↔ FollowOf productions start ends x t := by
  constructor
  · intro ht
    refine (stabilize_induct (P := TerminalSets.Holds (FollowOf productions start ends))
      (fun _ h => followRound_holds productions (fun _ hp => hp) h) _ ?_).member x t ht
    obtain ⟨hcan, -, hstart, hnil⟩ := follow_initial productions start hends
    refine ⟨hcan, fun y u hu => ?_⟩
    by_cases hy : y = start
    · subst hy
      exact .ends ((hstart u).mp hu)
    · simp [hnil y hy] at hu
  · intro h
    obtain ⟨hstart, hclosed, -⟩ := followSets_closed productions start hends
    induction h with
    | ends ht => exact hstart _ ht
    | next hp heq hs hterm hfirst hne =>
      exact hclosed _ hp _ _ _ _ heq hs hterm _
        (mem_afterSlot.mpr (.inl ⟨mem_firstOfSlots_iff.mpr hfirst, hne⟩))
    | last hp heq hs hterm hempty _ ih =>
      exact hclosed _ hp _ _ _ _ heq hs hterm _
        (mem_afterSlot.mpr (.inr ⟨mem_firstOfSlots_iff.mpr hempty, ih⟩))

theorem followSets_settles (hends : Increasing ends) :
    Settles (followRound productions (firstSets productions))
      (Sorted.set start ends (TerminalSets.initial productions)) (followSets productions start ends) :=
  ⟨⟨_, (stabilize_eq_iterate ..).symm⟩, (followSets_fixed productions start hends).2⟩

/-- Every left-hand side has a Follow set. -/
theorem followSets_has (hends : Increasing ends) {p : Production S} (hp : p ∈ productions) :
    (followSets productions start ends).Has p.lhs := by
  have hhas := (follow_initial productions start hends).2.1
  refine (stabilize_induct (P := fun sets : TerminalSets S =>
      sets.Within (followKeys productions start) (followMembers productions ends) ∧ sets.Has p.lhs)
    (fun sets h => ?_) _ ⟨follow_initial_within hends, (hhas _).mpr (.inr ⟨p, hp, rfl⟩)⟩).2
  obtain ⟨hwithin, hle, -⟩ := followRound_within h.1
  exact ⟨hwithin, hle.has _ h.2⟩

end Lode
