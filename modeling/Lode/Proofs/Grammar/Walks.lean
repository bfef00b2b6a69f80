/-
# Walks of rules through the automaton

A walk of a rule is a production over path symbols.  `path_of_mem_walks` says what the walks of a row of
slots are: at every slot one target is chosen, and the place holds all symbols of the slot that lead there.
Every choice of symbols is covered by a walk (`exists_walk`), a walk ends where the rule is complete
(`Path.complete`), and over an automaton that tracks the grammar no walk gets stuck (`walks_ok`).

Walks are found by a recursion over slots that may fail, if there is no move over a symbol.  The lemmas come
in two kinds: what is found, if the recursion gives an answer, and that it gives one.  The first needs
nothing of the automaton; the second needs that an item in a state has a move over every symbol behind its
point, which is what tracking says.
-/
import Lode.Proofs.Except
import Lode.Proofs.Grammar.Automaton

namespace Lode

open Sorted (find? IncreasingKeys)

namespace Automaton

variable {g : Grammar} {a : Automaton}

/-! ## 1. The moves over one slot -/

/-- The groups of a slot: one for each target, with the symbols that lead there. -/
theorem slotMoves_spec {s : StateId} : ∀ {symbols : List Symbol}
    {groups : List (StateId × List PathSymbol)}, a.slotMoves s symbols = .ok groups →
    IncreasingKeys groups ∧
    (∀ t, t ∈ groups.map Prod.fst ↔ ∃ X ∈ symbols, a.goto? s X = some t) ∧
    (∀ t x, x ∈ (find? t groups).getD [] ↔
      ∃ X ∈ symbols, a.goto? s X = some t ∧ x = ⟨s, X, some t⟩) ∧
    ∀ X ∈ symbols, ∃ t, a.goto? s X = some t
  | [], groups, h => by
    simp only [slotMoves, Except.ok.injEq] at h
    subst h
    exact ⟨List.Pairwise.nil, by simp, by simp [find?], by simp⟩
  | Y :: symbols, groups, h => by
    simp only [slotMoves] at h
    split at h
    · simp at h
    · rename_i u hu
      obtain ⟨groups', hgroups', h⟩ := bind_eq_ok.mp h
      simp only [pure, Except.pure, Except.ok.injEq] at h
      subst h
      obtain ⟨hinc, hkeys, hmem, hall⟩ := slotMoves_spec hgroups'
      refine ⟨Sorted.increasingKeys_alter _ _ hinc, fun t => ?_, fun t x => ?_, ?_⟩
      · rw [Sorted.mem_keys_alter, hkeys, List.exists_mem_cons_iff, hu, Option.some.injEq, eq_comm]
      · rw [List.exists_mem_cons_iff, hu, Option.some.injEq]
        by_cases ht : t = u
        · subst ht
          rw [Sorted.find?_alter_self _ _ hinc, Option.getD_some, List.mem_cons, hmem]
          simp
        · rw [Sorted.find?_alter_ne ht, hmem]
          simp [Ne.symm ht]
      · intro X hX
        rcases List.mem_cons.mp hX with rfl | hX
        · exact ⟨u, hu⟩
        · exact hall X hX

/-- The groups of a slot are found if there is a move over each of its symbols. -/
theorem slotMoves_ok {s : StateId} : ∀ {symbols : List Symbol},
    (∀ X ∈ symbols, ∃ t, a.goto? s X = some t) → ∃ groups, a.slotMoves s symbols = .ok groups
  | [], _ => ⟨[], rfl⟩
  | Y :: symbols, h => by
    obtain ⟨t, ht⟩ := h Y List.mem_cons_self
    obtain ⟨groups, hgroups⟩ := slotMoves_ok fun X hX => h X (List.mem_cons_of_mem _ hX)
    exact ⟨_, by simp only [slotMoves, ht, hgroups]; rfl⟩

/-! ## 2. Walks -/

/-- A walk over a row of slots.  Every place holds the symbols of its slot that lead to one target. -/
inductive Path (a : Automaton) : List Slot → StateId → List (List PathSymbol) → StateId → Prop
  | nil {s : StateId} : Path a [] s [] s
  | cons {slot : Slot} {slots : List Slot} {s t final : StateId} {symbols : List PathSymbol}
      {path : List (List PathSymbol)} (X : Symbol) :
      X ∈ slot.symbols → a.goto? s X = some t →
      (∀ x, x ∈ symbols ↔ ∃ X ∈ slot.symbols, a.goto? s X = some t ∧ x = ⟨s, X, some t⟩) →
      Path a slots t path final → Path a (slot :: slots) s (symbols :: path) final

/-- A walk goes on from the target of a group. -/
theorem walks_cons {slot : Slot} {slots : List Slot} {s : StateId}
    {found : List (List (List PathSymbol) × StateId)}
    (h : a.walks (slot :: slots) s = .ok found) :
    ∃ groups, a.slotMoves s slot.symbols = .ok groups ∧
      (∀ path final, (path, final) ∈ found ↔ ∃ t symbols rest here, (t, symbols) ∈ groups ∧
        a.walks slots t = .ok here ∧ (rest, final) ∈ here ∧ path = symbols :: rest) ∧
      ∀ t symbols, (t, symbols) ∈ groups → ∃ here, a.walks slots t = .ok here := by
  simp only [walks, bind_eq_ok, pure, Except.pure, Except.ok.injEq] at h
  obtain ⟨groups, hgroups, parts, hparts, rfl⟩ := h
  refine ⟨groups, hgroups, fun path final => ?_, fun t symbols ht => ?_⟩
  · simp only [List.mem_flatten]
    constructor
    · rintro ⟨part, hpart, hmem⟩
      obtain ⟨⟨t, symbols⟩, ht, hok⟩ := exists_of_mem_mapM hparts hpart
      obtain ⟨here, hhere, hok⟩ := bind_eq_ok.mp hok
      obtain rfl := Except.ok.inj hok
      obtain ⟨⟨rest, _⟩, hrest, heq⟩ := List.mem_map.mp hmem
      obtain ⟨rfl, rfl⟩ := Prod.mk.injEq .. ▸ heq
      exact ⟨t, symbols, rest, here, ht, hhere, hrest, rfl⟩
    · rintro ⟨t, symbols, rest, here, ht, hhere, hrest, rfl⟩
      obtain ⟨part, hpart, hok⟩ := exists_mem_mapM hparts ht
      simp only [hhere, bind, Except.bind, Except.ok.injEq] at hok
      exact ⟨part, hpart, hok ▸ List.mem_map.mpr ⟨(rest, final), hrest, rfl⟩⟩
  · obtain ⟨part, _, hok⟩ := exists_mem_mapM hparts ht
    obtain ⟨here, hhere, _⟩ := bind_eq_ok.mp hok
    exact ⟨here, hhere⟩

/-- **What is found are walks.** -/
theorem path_of_mem_walks : ∀ {slots : List Slot} {s final : StateId}
    {found : List (List (List PathSymbol) × StateId)} {path : List (List PathSymbol)},
    a.walks slots s = .ok found → (path, final) ∈ found → a.Path slots s path final
  | [], s, final, found, path, h, hmem => by
    simp only [walks, Except.ok.injEq] at h
    subst h
    simp only [List.mem_singleton, Prod.mk.injEq] at hmem
    obtain ⟨rfl, rfl⟩ := hmem
    exact .nil
  | slot :: slots, s, final, found, path, h, hmem => by
    obtain ⟨groups, hgroups, hfound, _⟩ := walks_cons h
    obtain ⟨hinc, hkeys, hin, _⟩ := slotMoves_spec hgroups
    obtain ⟨t, symbols, rest, here, ht, hw, hr, rfl⟩ := (hfound path final).mp hmem
    obtain ⟨X, hX, hgoto⟩ := (hkeys t).mp (List.mem_map.mpr ⟨_, ht, rfl⟩)
    refine .cons X hX hgoto (fun x => ?_) (path_of_mem_walks hw hr)
    rw [← hin t x, Sorted.find?_of_mem hinc ht, Option.getD_some]

/-- One symbol for every slot, with the states passed. -/
inductive Choice (a : Automaton) : List Slot → StateId → List PathSymbol → StateId → Prop
  | nil {s : StateId} : Choice a [] s [] s
  | cons {slot : Slot} {slots : List Slot} {s t final : StateId} {X : Symbol}
      {rest : List PathSymbol} : X ∈ slot.symbols → a.goto? s X = some t →
      Choice a slots t rest final → Choice a (slot :: slots) s (⟨s, X, some t⟩ :: rest) final

/-- Every choice of symbols is covered by a walk. -/
theorem exists_walk {slots : List Slot} {s final : StateId} {choice : List PathSymbol}
    (hchoice : a.Choice slots s choice final) :
    ∀ {found : List (List (List PathSymbol) × StateId)}, a.walks slots s = .ok found →
      ∃ path, (path, final) ∈ found ∧ List.Forall₂ (· ∈ ·) choice path := by
  induction hchoice with
  | nil =>
    intro found h
    simp only [walks, Except.ok.injEq] at h
    exact ⟨[], by simp [← h], .nil⟩
  | @cons slot slots s t final X rest hX hgoto _ ih =>
    intro found h
    obtain ⟨groups, hgroups, hmem, hall⟩ := walks_cons h
    obtain ⟨hinc, hkeys, hin, _⟩ := slotMoves_spec hgroups
    have hx := (hin t ⟨s, X, some t⟩).mpr ⟨X, hX, hgoto, rfl⟩
    cases hfind : find? t groups with
    | none => simp [hfind] at hx
    | some symbols =>
      have ht := Sorted.mem_of_find? hfind
      obtain ⟨here, hhere⟩ := hall t symbols ht
      obtain ⟨path, hpath, hcover⟩ := ih hhere
      refine ⟨symbols :: path, (hmem _ _).mpr ⟨t, symbols, path, here, ht, hhere, hpath, rfl⟩,
        .cons ?_ hcover⟩
      simpa [hfind] using hx

/-! ## 3. Walks of items -/

theorem drop_rhs_cons {rule : Rule} {k : Nat} {slot : Slot} {slots : List Slot}
    (h : rule.rhs.drop k = slot :: slots) :
    rule.rhs[k]? = some slot ∧ rule.rhs.drop (k + 1) = slots := by
  constructor
  · rw [← List.head?_drop, h, List.head?_cons]
  · rw [← List.tail_drop, h, List.tail_cons]

/-- A walk that begins at an item ends where its rule is complete. -/
theorem Path.complete (ha : a.Tracks g) {id : RuleId} : ∀ {slots : List Slot} {s final : StateId}
    {path : List (List PathSymbol)} {k : Nat}, a.Path slots s path final →
    (g.rule id).rhs.drop k = slots → ⟨id, k⟩ ∈ a.items s →
    ⟨id, (g.rule id).rhs.length⟩ ∈ a.items final
  | [], _, _, _, k, .nil, hdrop, hi => by
    have hle := List.drop_eq_nil_iff.mp hdrop
    have hk : k = (g.rule id).rhs.length := Nat.le_antisymm (ha.valid hi).2 hle
    exact hk ▸ hi
  | _ :: _, _, _, _, k, .cons X hX hgoto _ hpath, hdrop, hi => by
    obtain ⟨hslot, hdrop'⟩ := drop_rhs_cons hdrop
    have hbefore : (⟨id, k⟩ : Item).Before g X := ⟨_, hslot, hX⟩
    exact Path.complete ha hpath hdrop' (ha.advance_mem hi hbefore hgoto)

/-- No walk that begins at an item gets stuck. -/
theorem walks_ok (ha : a.Tracks g) {id : RuleId} : ∀ {slots : List Slot} {s : StateId} {k : Nat},
    (g.rule id).rhs.drop k = slots → ⟨id, k⟩ ∈ a.items s → ∃ found, a.walks slots s = .ok found
  | [], s, _, _, _ => ⟨[([], s)], by simp only [walks]⟩
  | slot :: slots, s, k, hdrop, hi => by
    obtain ⟨hslot, hdrop'⟩ := drop_rhs_cons hdrop
    have hmoves : ∀ X ∈ slot.symbols, ∃ t, a.goto? s X = some t :=
      fun X hX => ha.move hi ⟨slot, hslot, hX⟩
    obtain ⟨groups, hgroups⟩ := slotMoves_ok hmoves
    obtain ⟨_, hkeys, _, _⟩ := slotMoves_spec hgroups
    have hnext : ∀ t ∈ groups.map Prod.fst, ∃ here, a.walks slots t = .ok here := by
      intro t ht
      obtain ⟨X, hX, hgoto⟩ := (hkeys t).mp ht
      exact walks_ok ha hdrop' (ha.advance_mem hi ⟨slot, hslot, hX⟩ hgoto)
    cases hwalks : a.walks (slot :: slots) s with
    | ok found => exact ⟨found, rfl⟩
    | error e =>
      simp only [walks, hgroups, bind_eq_error, reduceCtorEq, false_or, Except.ok.injEq,
        exists_eq_left', pure, Except.pure, and_false, exists_false, or_false] at hwalks
      obtain ⟨⟨t, symbols⟩, ht, herr⟩ := mapM_eq_error hwalks
      obtain ⟨here, hhere⟩ := hnext t (List.mem_map.mpr ⟨_, ht, rfl⟩)
      simp [hhere, bind_eq_error] at herr

end Automaton

end Lode
