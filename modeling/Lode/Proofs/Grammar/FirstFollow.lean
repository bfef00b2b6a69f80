/-
# First and Follow sets are closed

The rounds of updates stop at a solution of the equations: the First set of a left-hand side holds the first
terminals of each of its right-hand sides (`firstSets_closed`), and the Follow set of a symbol holds what
can come after it in every place where it occurs (`followSets_closed`).

Both rest on one fact about `stabilize` (`stabilize_fixed`): if the values can be told apart by finite sets
that only grow and stay within bounds, then as many rounds as the bound has members lead to a value that a
further round leaves alone.  The values are maps of sorted lists.  They are told apart by the finite set of
their keys and members (`TerminalSets.code`), provided that keys and members are in order (`Canonical`),
since otherwise two maps could say the same and differ; so order is a part of the invariant.

The bound is that keys are left-hand sides and members are terminals of the productions (`Within`).  The
number of rounds that the code allows itself is counted from the productions, by a formula that does not
look at the sets, and `length_terminalsOf_le` and `counts_le` compare the two counts.

What one round does is said for the two kinds of sets in the same form (`firstRound_spec`,
`followRound_spec`): it stays within the bounds, it only adds, and it adds what the equations ask for.
-/
import Lode.Proofs.Grammar.Order
import Mathlib.Data.Finset.Option
import Mathlib.Data.Finset.Prod
import Mathlib.Logic.Function.Iterate
import Mathlib.Tactic.Linarith

namespace Lode

open Sorted (find? IncreasingKeys Increasing)

/-! ## 1. Rounds of updates -/

/-- The rounds are iterations of the step: at rest further ones change nothing. -/
theorem stabilize_eq_iterate {α : Type} [DecidableEq α] (step : α → α) : ∀ (fuel : Nat) (a : α),
    stabilize step fuel a = step^[fuel] a
  | 0, _ => rfl
  | fuel + 1, a => by
    rw [stabilize]
    split
    · rename_i hfixed
      exact (Function.iterate_fixed hfixed _).symm
    · rw [stabilize_eq_iterate step fuel, Function.iterate_succ_apply]

section Rounds

variable {α β : Type} [DecidableEq α] {step : α → α}

/-- What a step keeps holds at the end of the rounds. -/
theorem stabilize_induct {P : α → Prop} (hstep : ∀ a, P a → P (step a)) :
    ∀ (fuel : Nat) {a : α}, P a → P (stabilize step fuel a)
  | 0, _, h => h
  | fuel + 1, a, h => by
    simp only [stabilize]
    split
    · exact h
    · exact stabilize_induct hstep fuel (hstep a h)

/-- **Growth within bounds comes to rest.** The induction is on the rounds that are left, and each one that
changes something uses up a member of the bound. -/
theorem stabilize_fixed {P : α → Prop} (code : α → Finset β) (bound : Finset β)
    (hstep : ∀ a, P a → P (step a)) (hbound : ∀ a, P a → code a ⊆ bound)
    (hgrow : ∀ a, P a → code a ⊆ code (step a))
    (hinj : ∀ a b, P a → P b → code a = code b → a = b) :
    ∀ (fuel : Nat) {a : α}, P a → bound.card < fuel + (code a).card →
      step (stabilize step fuel a) = stabilize step fuel a
  | 0, a, h, hfuel => by
    have := Finset.card_le_card (hbound a h)
    omega
  | fuel + 1, a, h, hfuel => by
    simp only [stabilize]
    split
    · assumption
    · rename_i hne
      have hssub : code a ⊂ code (step a) := by
        refine (hgrow a h).ssubset_of_ne fun heq => hne ?_
        exact (hinj a (step a) h (hstep a h) heq).symm
      have := Finset.card_lt_card hssub
      exact stabilize_fixed code bound hstep hbound hgrow hinj fuel (hstep a h) (by omega)

end Rounds

variable {S : Type}

/-- The number of symbols in a list of productions, as the round limit counts them. -/
def symbolCount (productions : List (Production S)) : Nat :=
  productions.foldr (fun p n => 1 + p.slots.flatten.length + n) 0

/-- The limit of the rounds counts productions and symbols. -/
theorem counts_le : ∀ productions : List (Production S),
    productions.length + (productions.flatMap (·.slots.flatten)).length = symbolCount productions
  | [] => rfl
  | p :: productions => by
    have := counts_le productions
    simp only [List.length_cons, List.flatMap_cons, List.length_append, symbolCount,
      List.foldr_cons] at this ⊢
    omega

/-! ## 2. Sets of terminals by symbol -/

namespace TerminalSets

/-- The symbol has a set. -/
def Has (sets : TerminalSets S) (x : S) : Prop := x ∈ sets.map Prod.fst

section Code

variable [DecidableEq S]

/-- The keys of a map and its members, as one finite set. -/
def code (sets : TerminalSets S) : Finset (S × Option Terminal) :=
  (sets.flatMap fun entry => (entry.1, none) :: entry.2.map fun t => (entry.1, some t)).toFinset

theorem mem_code_none {sets : TerminalSets S} {x : S} : (x, none) ∈ sets.code ↔ sets.Has x := by
  simp [code, Has]

end Code

variable [GrammarSymbol S]

/-- Keys and sets are in order, so that a map has one representation. -/
structure Canonical (sets : TerminalSets S) : Prop where
  keys : IncreasingKeys sets
  values : ∀ entry ∈ sets, Increasing entry.2

/-- Every key and every member of the first map is in the second. -/
structure Le (sets sets' : TerminalSets S) : Prop where
  has : ∀ x, sets.Has x → sets'.Has x
  of : ∀ x t, t ∈ sets.of x → t ∈ sets'.of x

theorem Le.refl (sets : TerminalSets S) : sets.Le sets := ⟨fun _ h => h, fun _ _ h => h⟩

theorem Le.trans {a b c : TerminalSets S} (hab : a.Le b) (hbc : b.Le c) : a.Le c :=
  ⟨fun x h => hbc.has x (hab.has x h), fun x t h => hbc.of x t (hab.of x t h)⟩

/-- The keys and members lie in given sets. -/
structure Within (sets : TerminalSets S) (keys : Finset S) (members : Finset Terminal) : Prop where
  canonical : sets.Canonical
  has : ∀ x, sets.Has x → x ∈ keys
  of : ∀ x t, t ∈ sets.of x → t ∈ members

variable [Std.LawfulEqOrd S]

theorem of_eq_nil {sets : TerminalSets S} {x : S} (h : ¬ sets.Has x) : sets.of x = [] := by
  simp [TerminalSets.of, Sorted.find?_eq_none_iff.mpr h]

theorem has_add {sets : TerminalSets S} {x s : S} {ts : List Terminal} :
    (sets.add s ts).Has x ↔ x = s ∨ sets.Has x := Sorted.mem_keys_alter _

section Code

variable [DecidableEq S]

/-- A member is told by its pair. -/
theorem mem_code_some {sets : TerminalSets S} (h : sets.Canonical) {x : S} {t : Terminal} :
    (x, some t) ∈ sets.code ↔ t ∈ sets.of x := by
  simp only [code, List.mem_toFinset, List.mem_flatMap, List.mem_cons, Prod.mk.injEq,
    reduceCtorEq, and_false, List.mem_map, Option.some.injEq, false_or, Prod.exists]
  constructor
  · rintro ⟨_, ts, hmem, _, ht, rfl, rfl⟩
    rw [TerminalSets.of, Sorted.find?_of_mem h.keys hmem]
    exact ht
  · intro ht
    unfold TerminalSets.of at ht
    cases hfind : find? x sets with
    | none => simp [hfind] at ht
    | some ts =>
      rw [hfind] at ht
      exact ⟨x, ts, Sorted.mem_of_find? hfind, t, ht, rfl, rfl⟩

/-- Maps are compared as their finite sets are. -/
theorem code_subset {a b : TerminalSets S} (ha : a.Canonical) (hb : b.Canonical) :
    a.code ⊆ b.code ↔ a.Le b := by
  constructor
  · intro h
    exact ⟨fun x hx => mem_code_none.mp (h (mem_code_none.mpr hx)),
      fun x t ht => (mem_code_some hb).mp (h ((mem_code_some ha).mpr ht))⟩
  · rintro h ⟨x, t⟩ hmem
    cases t with
    | none => exact mem_code_none.mpr (h.has x (mem_code_none.mp hmem))
    | some t => exact (mem_code_some hb).mpr (h.of x t ((mem_code_some ha).mp hmem))

/-- A map within bounds has a bounded code. -/
theorem Within.code_subset {sets : TerminalSets S} {keys : Finset S} {members : Finset Terminal}
    (h : sets.Within keys members) : sets.code ⊆ keys ×ˢ Finset.insertNone members := by
  rintro ⟨x, t⟩ hmem
  cases t with
  | none => simpa using h.has x (mem_code_none.mp hmem)
  | some t =>
    have ht := (mem_code_some h.canonical).mp hmem
    have hx : sets.Has x := by
      by_contra hnot
      simp [of_eq_nil hnot] at ht
    simpa using ⟨h.has x hx, h.of x t ht⟩

end Code

variable [Std.TransOrd S]

/-- Order is kept when terminals are added. -/
theorem Canonical.add {sets : TerminalSets S} (h : sets.Canonical) (s : S) (ts : List Terminal) :
    (sets.add s ts).Canonical := by
  refine ⟨Sorted.increasingKeys_alter _ _ h.keys, fun entry hentry => ?_⟩
  rcases Sorted.mem_alter hentry with hmem | ⟨old, hold, _, heq⟩
  · exact h.values entry hmem
  · rw [heq]
    refine Sorted.increasing_union ?_
    rcases hold with rfl | ⟨v, rfl, hv⟩
    · exact List.Pairwise.nil
    · exact h.values _ hv

/-- The members behind an addition: those that were there, and those that were added to the key. -/
theorem mem_of_add {sets : TerminalSets S} (h : sets.Canonical) {x s : S} {t : Terminal}
    {ts : List Terminal} :
    t ∈ (sets.add s ts).of x ↔ t ∈ sets.of x ∨ (x = s ∧ t ∈ ts) := by
  by_cases hx : x = s
  · subst hx
    simp [TerminalSets.of, TerminalSets.add, Sorted.find?_alter_self _ _ h.keys]
  · simp [TerminalSets.of, TerminalSets.add, Sorted.find?_alter_ne hx, hx]

theorem Canonical.le_add {sets : TerminalSets S} (h : sets.Canonical) (s : S)
    (ts : List Terminal) : sets.Le (sets.add s ts) :=
  ⟨fun _ hx => has_add.mpr (.inr hx), fun _ _ ht => (mem_of_add h).mpr (.inl ht)⟩

/-- Maps in order that hold the same are the same. -/
theorem Canonical.eq_of_le {a b : TerminalSets S} (ha : a.Canonical) (hb : b.Canonical)
    (hab : a.Le b) (hba : b.Le a) : a = b := by
  have hkeys : a.map Prod.fst = b.map Prod.fst :=
    Increasing.eq_of_mem_iff ha.keys hb.keys fun x => ⟨hab.has x, hba.has x⟩
  refine Sorted.eq_of_find? ha.keys hb.keys hkeys fun x va vb hva hvb => ?_
  have hofa : a.of x = va := by simp [TerminalSets.of, hva]
  have hofb : b.of x = vb := by simp [TerminalSets.of, hvb]
  refine Increasing.eq_of_mem_iff (ha.values _ (Sorted.mem_of_find? hva))
    (hb.values _ (Sorted.mem_of_find? hvb)) fun t => ?_
  rw [← hofa, ← hofb]
  exact ⟨hab.of x t, hba.of x t⟩

/-- Adding known terminals to known keys stays within bounds. -/
theorem Within.add {sets : TerminalSets S} {keys : Finset S} {members : Finset Terminal}
    (h : sets.Within keys members) {s : S} {ts : List Terminal} (hs : s ∈ keys)
    (hts : ∀ t ∈ ts, t ∈ members) : (sets.add s ts).Within keys members := by
  refine ⟨h.canonical.add s ts, fun x hx => ?_, fun x t ht => ?_⟩
  · rcases has_add.mp hx with rfl | hx
    · exact hs
    · exact h.has x hx
  · rcases (mem_of_add h.canonical).mp ht with ht | ⟨_, ht⟩
    · exact h.of x t ht
    · exact hts t ht

/-- Rounds that only add, within bounds, end where a further round changes nothing. -/
theorem Within.stabilize_fixed [DecidableEq S] (step : TerminalSets S → TerminalSets S) {keys : Finset S}
    {members : Finset Terminal}
    (hstep : ∀ sets : TerminalSets S, sets.Within keys members →
      (step sets).Within keys members ∧ sets.Le (step sets))
    {fuel : Nat} (hfuel : keys.card * (members.card + 1) < fuel) {sets : TerminalSets S}
    (h : sets.Within keys members) :
    (stabilize step fuel sets).Within keys members ∧
      step (stabilize step fuel sets) = stabilize step fuel sets := by
  refine ⟨stabilize_induct (fun a ha => (hstep a ha).1) fuel h, ?_⟩
  refine Lode.stabilize_fixed (P := fun sets => sets.Within keys members) code
    (keys ×ˢ Finset.insertNone members) (fun a ha => (hstep a ha).1)
    (fun a ha => ha.code_subset) (fun a ha => ?_) (fun a b ha hb hab => ?_) fuel h ?_
  · exact (TerminalSets.code_subset ha.canonical (hstep a ha).1.canonical).mpr (hstep a ha).2
  · exact ha.canonical.eq_of_le hb.canonical
      ((TerminalSets.code_subset ha.canonical hb.canonical).mp hab.subset)
      ((TerminalSets.code_subset hb.canonical ha.canonical).mp hab.symm.subset)
  · rw [Finset.card_product, Finset.card_insertNone]
    omega

end TerminalSets

/-! ## 3. What rows of places begin with -/

variable [GrammarSymbol S]

/-- The terminals of a list of productions, among them the empty marker. -/
def terminalsOf (productions : List (Production S)) : List Terminal :=
  (productions.flatMap fun p => p.slots.flatten.filterMap GrammarSymbol.terminal?)

theorem length_terminalsOf_le : ∀ productions : List (Production S),
    (terminalsOf productions).length ≤ (productions.flatMap (·.slots.flatten)).length
  | [] => Nat.le_refl _
  | p :: productions => by
    have ih := length_terminalsOf_le productions
    have hp := List.length_filterMap_le (GrammarSymbol.terminal? (S := S)) p.slots.flatten
    simp only [terminalsOf, List.flatMap_cons, List.length_append] at ih ⊢
    omega

theorem mem_terminalsOf {productions : List (Production S)} {p : Production S} {s : S}
    {t : Terminal} (hp : p ∈ productions) (hs : s ∈ p.slots.flatten)
    (ht : GrammarSymbol.terminal? s = some t) : t ∈ terminalsOf productions :=
  List.mem_flatMap.mpr ⟨p, hp, List.mem_filterMap.mpr ⟨s, hs, ht⟩⟩

theorem mem_firstOfSlot {first : TerminalSets S} {slot : List S} {t : Terminal} :
    t ∈ firstOfSlot first slot ↔ ∃ s ∈ slot, t ∈ firstOfSymbol first s := by
  have general : ∀ (slot : List S) (acc : List Terminal),
      t ∈ slot.foldl (fun acc s => Sorted.union acc (firstOfSymbol first s)) acc ↔
        t ∈ acc ∨ ∃ s ∈ slot, t ∈ firstOfSymbol first s := by
    intro slot
    induction slot with
    | nil => simp
    | cons s slot ih =>
      intro acc
      rw [List.foldl_cons, ih, Sorted.mem_union, List.exists_mem_cons_iff, or_assoc]
  simpa [firstOfSlot] using general slot []

/-- A row begins with what its first place begins with, or goes on if that can be empty. -/
theorem mem_firstOfSlots_cons {first : TerminalSets S} {slot : List S} {slots : List (List S)}
    {t : Terminal} : t ∈ firstOfSlots first (slot :: slots) ↔
      (t ∈ firstOfSlot first slot ∧ t ≠ .empty) ∨
        (.empty ∈ firstOfSlot first slot ∧ t ∈ firstOfSlots first slots) := by
  simp only [firstOfSlots]
  split
  · rename_i hempty
    simp only [List.contains_eq_mem, decide_eq_true_eq] at hempty
    simp [hempty]
  · rename_i hempty
    simp only [List.contains_eq_mem, decide_eq_true_eq] at hempty
    have : t ∈ firstOfSlot first slot → t ≠ .empty := fun ht heq => hempty (heq ▸ ht)
    tauto

theorem firstOfSymbol_mono {first first' : TerminalSets S} (h : first.Le first') {s : S}
    {t : Terminal} (ht : t ∈ firstOfSymbol first s) : t ∈ firstOfSymbol first' s := by
  unfold firstOfSymbol at ht ⊢
  split
  · rename_i hs
    simpa [hs] using ht
  · rename_i hs
    rw [hs] at ht
    exact h.of s t ht

theorem firstOfSlot_mono {first first' : TerminalSets S} (h : first.Le first') {slot : List S}
    {t : Terminal} (ht : t ∈ firstOfSlot first slot) : t ∈ firstOfSlot first' slot := by
  obtain ⟨s, hs, ht⟩ := mem_firstOfSlot.mp ht
  exact mem_firstOfSlot.mpr ⟨s, hs, firstOfSymbol_mono h ht⟩

/-- More First sets give more beginnings. -/
theorem firstOfSlots_mono {first first' : TerminalSets S} (h : first.Le first') {t : Terminal} :
    ∀ {slots : List (List S)}, t ∈ firstOfSlots first slots → t ∈ firstOfSlots first' slots
  | [], ht => ht
  | slot :: slots, ht => by
    rw [mem_firstOfSlots_cons] at ht ⊢
    rcases ht with ⟨ht, hne⟩ | ⟨hempty, ht⟩
    · exact .inl ⟨firstOfSlot_mono h ht, hne⟩
    · exact .inr ⟨firstOfSlot_mono h hempty, firstOfSlots_mono h ht⟩

/-- Beginnings are terminals of the productions. -/
theorem firstOfSlots_within {first : TerminalSets S} {keys : Finset S} {members : Finset Terminal}
    (h : first.Within keys members) (hempty : Terminal.empty ∈ members) {t : Terminal} :
    ∀ {slots : List (List S)},
      (∀ s ∈ slots.flatten, ∀ u, GrammarSymbol.terminal? s = some u → u ∈ members) →
      t ∈ firstOfSlots first slots → t ∈ members
  | [], _, ht => by
    obtain rfl : t = .empty := by simpa [firstOfSlots] using ht
    exact hempty
  | slot :: slots, hslots, ht => by
    rcases mem_firstOfSlots_cons.mp ht with ⟨ht, _⟩ | ⟨_, ht⟩
    · obtain ⟨s, hs, ht⟩ := mem_firstOfSlot.mp ht
      unfold firstOfSymbol at ht
      cases hterm : GrammarSymbol.terminal? s with
      | none => exact h.of s t (by simpa [hterm] using ht)
      | some u =>
        obtain rfl : t = u := by simpa [hterm] using ht
        exact hslots s (by simp [hs]) t hterm
    · exact firstOfSlots_within h hempty (fun s hs => hslots s (by
        rw [List.flatten_cons]
        exact List.mem_append_right _ hs)) ht

/-- The terminals that come after a slot, given the slots behind it and what comes after them. -/
def afterSlot (first : TerminalSets S) (after : List Terminal) (slots : List (List S)) :
    List Terminal :=
  Sorted.union ((firstOfSlots first slots).filter (· != .empty))
    (if (firstOfSlots first slots).contains .empty then after else [])

/-- What comes after a place: what the places behind it begin with, or what comes after all of them. -/
theorem mem_afterSlot {first : TerminalSets S} {after : List Terminal} {slots : List (List S)}
    {t : Terminal} : t ∈ afterSlot first after slots ↔
      (t ∈ firstOfSlots first slots ∧ t ≠ .empty) ∨
        (.empty ∈ firstOfSlots first slots ∧ t ∈ after) := by
  unfold afterSlot
  rw [Sorted.mem_union, List.mem_filter, bne_iff_ne]
  split
  · rename_i h
    simp only [List.contains_eq_mem, decide_eq_true_eq] at h
    simp [h]
  · rename_i h
    simp only [List.contains_eq_mem, decide_eq_true_eq] at h
    simp [h]

/-! ## 4. One round -/

variable [Std.LawfulEqOrd S] [Std.TransOrd S]

/-- One round adds the first terminals of every right-hand side. -/
theorem firstRound_spec {keys : Finset S} {members : Finset Terminal}
    (hempty : Terminal.empty ∈ members) : ∀ (productions : List (Production S))
    {first : TerminalSets S}, first.Within keys members → (∀ p ∈ productions, p.lhs ∈ keys) →
    (∀ p ∈ productions, ∀ s ∈ p.slots.flatten, ∀ u,
      GrammarSymbol.terminal? s = some u → u ∈ members) →
    (firstRound productions first).Within keys members ∧
    first.Le (firstRound productions first) ∧
    ∀ p ∈ productions, ∀ t ∈ firstOfSlots first p.slots, t ∈ (firstRound productions first).of p.lhs
  | [], first, h, _, _ => ⟨h, .refl first, by simp⟩
  | p :: productions, first, h, hkeys, hterms => by
    have hadd := h.add (hkeys p List.mem_cons_self) (fun t ht =>
      firstOfSlots_within h hempty (hterms p List.mem_cons_self) ht)
    have hle := h.canonical.le_add p.lhs (firstOfSlots first p.slots)
    obtain ⟨hwithin, hle', hclosed⟩ := firstRound_spec hempty productions hadd
      (fun q hq => hkeys q (List.mem_cons_of_mem _ hq))
      (fun q hq => hterms q (List.mem_cons_of_mem _ hq))
    refine ⟨hwithin, hle.trans hle', fun q hq t ht => ?_⟩
    rcases List.mem_cons.mp hq with rfl | hq
    · exact hle'.of _ _ ((TerminalSets.mem_of_add h.canonical).mpr (.inr ⟨rfl, ht⟩))
    · exact hclosed q hq t (firstOfSlots_mono hle ht)

/-- Adding terminals to the nonterminals of one slot. -/
theorem addSlot_spec {added : List Terminal} {keys : Finset S} {members : Finset Terminal}
    (hadded : ∀ t ∈ added, t ∈ members) : ∀ (slot : List S) {sets : TerminalSets S},
    sets.Within keys members → (∀ s ∈ slot, GrammarSymbol.terminal? s = none → s ∈ keys) →
    let result := slot.foldl (fun sets s =>
      if (GrammarSymbol.terminal? s).isNone then sets.add s added else sets) sets
    result.Within keys members ∧ sets.Le result ∧
    (∀ s ∈ slot, GrammarSymbol.terminal? s = none → ∀ t ∈ added, t ∈ result.of s) ∧
    ∀ x, x ∉ slot → ∀ t, t ∈ result.of x → t ∈ sets.of x
  | [], sets, h, _ => ⟨h, .refl sets, by simp, fun _ _ _ ht => ht⟩
  | s :: slot, sets, h, hkeys => by
    have hrest := fun s' hs' => hkeys s' (List.mem_cons_of_mem _ hs')
    simp only [List.foldl_cons]
    cases hterm : (GrammarSymbol.terminal? s).isNone with
    | true =>
      have hs := hkeys s List.mem_cons_self (by simpa using hterm)
      have hadd := h.add hs hadded
      have hle := h.canonical.le_add s added
      obtain ⟨hwithin, hle', hin, hout⟩ := addSlot_spec hadded slot hadd hrest
      refine ⟨hwithin, hle.trans hle', fun x hx hxt t ht => ?_, fun x hx t ht => ?_⟩
      · rcases List.mem_cons.mp hx with rfl | hx
        · exact hle'.of _ _ ((TerminalSets.mem_of_add h.canonical).mpr (.inr ⟨rfl, ht⟩))
        · exact hin x hx hxt t ht
      · rw [List.mem_cons, not_or] at hx
        have := hout x hx.2 t ht
        rcases (TerminalSets.mem_of_add h.canonical).mp this with ht | ⟨heq, _⟩
        · exact ht
        · exact absurd heq hx.1
    | false =>
      obtain ⟨hwithin, hle, hin, hout⟩ := addSlot_spec hadded slot h hrest
      refine ⟨hwithin, hle, fun x hx hxt t ht => ?_, fun x hx t ht => ?_⟩
      · rcases List.mem_cons.mp hx with rfl | hx
        · simp [hxt] at hterm
        · exact hin x hx hxt t ht
      · exact hout x (fun hmem => hx (List.mem_cons_of_mem _ hmem)) t ht

/-- Adding what comes after each place of one right-hand side, from the first to the last. -/
theorem followSlots_spec {first : TerminalSets S} {after : List Terminal} {keys : Finset S}
    {members : Finset Terminal} : ∀ (slots : List (List S)) {sets : TerminalSets S},
    sets.Within keys members → (∀ s ∈ slots.flatten, GrammarSymbol.terminal? s = none → s ∈ keys) →
    (∀ pre post, slots = pre ++ post → ∀ t ∈ afterSlot first after post, t ∈ members) →
    (followSlots first after slots sets).Within keys members ∧
    sets.Le (followSlots first after slots sets) ∧
    (∀ pre slot post s, slots = pre ++ slot :: post → s ∈ slot →
      GrammarSymbol.terminal? s = none →
      ∀ t ∈ afterSlot first after post, t ∈ (followSlots first after slots sets).of s) ∧
    ∀ x, x ∉ slots.flatten → ∀ t, t ∈ (followSlots first after slots sets).of x → t ∈ sets.of x
  | [], sets, h, _, _ => ⟨h, .refl sets, by simp, fun _ _ _ ht => ht⟩
  | slot :: slots, sets, h, hkeys, hmembers => by
    have hslot := hmembers [slot] slots rfl
    obtain ⟨hwithin, hle, hin, hout⟩ := addSlot_spec hslot slot h
      (fun s hs => hkeys s (by simp [hs]))
    obtain ⟨hwithin', hle', hin', hout'⟩ := followSlots_spec slots hwithin
      (fun s hs => hkeys s (by rw [List.flatten_cons]; exact List.mem_append_right _ hs))
      (fun pre post heq => hmembers (slot :: pre) post (by rw [heq]; rfl))
    refine ⟨hwithin', hle.trans hle', fun pre slot' post s heq hs hterm t ht => ?_,
      fun x hx t ht => ?_⟩
    · cases pre with
      | nil =>
        obtain ⟨rfl, rfl⟩ : slot = slot' ∧ slots = post := by simpa using heq
        exact hle'.of _ _ (hin s hs hterm t ht)
      | cons head pre =>
        obtain ⟨_, heq⟩ : slot = head ∧ slots = pre ++ slot' :: post := by simpa using heq
        exact hin' pre slot' post s heq hs hterm t ht
    · rw [List.flatten_cons, List.mem_append, not_or] at hx
      exact hout x hx.1 t (hout' x hx.2 t ht)

/-- One round adds what comes after every nonterminal of every right-hand side. -/
theorem followRound_spec (first : TerminalSets S) {keys : Finset S} {members : Finset Terminal} :
    ∀ (productions : List (Production S)) {follow : TerminalSets S}, follow.Within keys members →
    (∀ p ∈ productions, ∀ s ∈ p.slots.flatten, GrammarSymbol.terminal? s = none → s ∈ keys) →
    (∀ p ∈ productions, ∀ pre post, p.slots = pre ++ post →
      ∀ t ∈ firstOfSlots first post, t ≠ .empty → t ∈ members) →
    (followRound productions first follow).Within keys members ∧
    follow.Le (followRound productions first follow) ∧
    (∀ p ∈ productions, ∀ pre slot post s, p.slots = pre ++ slot :: post → s ∈ slot →
      GrammarSymbol.terminal? s = none →
      ∀ t ∈ afterSlot first (follow.of p.lhs) post,
        t ∈ (followRound productions first follow).of s) ∧
    ∀ x, (∀ p ∈ productions, x ∉ p.slots.flatten) →
      ∀ t, t ∈ (followRound productions first follow).of x → t ∈ follow.of x
  | [], follow, h, _, _ => ⟨h, .refl follow, by simp, fun _ _ _ ht => ht⟩
  | p :: productions, follow, h, hkeys, hfirst => by
    have hafter : ∀ pre post, p.slots = pre ++ post →
        ∀ t ∈ afterSlot first (follow.of p.lhs) post, t ∈ members := by
      intro pre post heq t ht
      rcases mem_afterSlot.mp ht with ⟨ht, hne⟩ | ⟨_, ht⟩
      · exact hfirst p List.mem_cons_self pre post heq t ht hne
      · exact h.of _ t ht
    obtain ⟨hwithin, hle, hin, hout⟩ := followSlots_spec p.slots h
      (hkeys p List.mem_cons_self) hafter
    obtain ⟨hwithin', hle', hin', hout'⟩ := followRound_spec first productions hwithin
      (fun q hq => hkeys q (List.mem_cons_of_mem _ hq))
      (fun q hq => hfirst q (List.mem_cons_of_mem _ hq))
    refine ⟨hwithin', hle.trans hle', fun q hq pre slot post s heq hs hterm t ht => ?_,
      fun x hx t ht => ?_⟩
    · rcases List.mem_cons.mp hq with rfl | hq
      · exact hle'.of _ _ (hin pre slot post s heq hs hterm t ht)
      · refine hin' q hq pre slot post s heq hs hterm t ?_
        rcases mem_afterSlot.mp ht with ht | ⟨hempty, ht⟩
        · exact mem_afterSlot.mpr (.inl ht)
        · exact mem_afterSlot.mpr (.inr ⟨hempty, hle.of _ t ht⟩)
    · exact hout x (hx p List.mem_cons_self) t
        (hout' x (fun q hq => hx q (List.mem_cons_of_mem _ hq)) t ht)

theorem initial_spec : ∀ (productions : List (Production S)) (sets : TerminalSets S),
    sets.Canonical → (∀ x, sets.of x = []) →
    let result := productions.foldl (fun sets p => sets.add p.lhs []) sets
    result.Canonical ∧ (∀ x, result.Has x ↔ (∃ p ∈ productions, x = p.lhs) ∨ sets.Has x) ∧
      ∀ x, result.of x = []
  | [], sets, h, hof => ⟨h, by simp, hof⟩
  | p :: productions, sets, h, hof => by
    have hof' : ∀ x, (sets.add p.lhs []).of x = [] := by
      intro x
      refine List.eq_nil_iff_forall_not_mem.mpr fun t ht => ?_
      rcases (TerminalSets.mem_of_add h).mp ht with ht | ⟨_, ht⟩
      · simp [hof x] at ht
      · simp at ht
    obtain ⟨hcan, hhas, hnil⟩ := initial_spec productions _ (h.add p.lhs []) hof'
    refine ⟨hcan, fun x => ?_, hnil⟩
    simp only [List.foldl_cons, hhas, TerminalSets.has_add, List.exists_mem_cons_iff]
    rw [← or_assoc, or_comm (a := ∃ q ∈ productions, x = q.lhs)]

theorem initial_canonical (productions : List (Production S)) :
    (TerminalSets.initial productions).Canonical ∧
    (∀ x, (TerminalSets.initial productions).Has x ↔ ∃ p ∈ productions, x = p.lhs) ∧
    ∀ x, (TerminalSets.initial productions).of x = [] := by
  have := initial_spec productions ([] : TerminalSets S)
    ⟨List.Pairwise.nil, by simp⟩ (fun x => rfl)
  simpa [TerminalSets.initial, TerminalSets.Has] using this

/-- Where the rounds begin: the end terminals come after the start symbol. -/
theorem follow_initial (productions : List (Production S)) (start : S) {ends : List Terminal}
    (hends : Increasing ends) :
    let sets := Sorted.set start ends (TerminalSets.initial productions)
    TerminalSets.Canonical sets ∧
    (∀ x, TerminalSets.Has sets x ↔ x = start ∨ ∃ p ∈ productions, x = p.lhs) ∧
    (∀ t, t ∈ TerminalSets.of sets start ↔ t ∈ ends) ∧
    ∀ x, x ≠ start → TerminalSets.of sets x = [] := by
  obtain ⟨hcan, hhas, hnil⟩ := initial_canonical productions
  refine ⟨⟨Sorted.increasingKeys_alter _ _ hcan.keys, fun entry hentry => ?_⟩, fun x => ?_,
    fun t => ?_, fun x hx => ?_⟩
  · rcases Sorted.mem_alter hentry with hmem | ⟨_, _, _, heq⟩
    · exact hcan.values entry hmem
    · exact heq ▸ hends
  · rw [TerminalSets.Has, Sorted.set, Sorted.mem_keys_alter]
    exact or_congr Iff.rfl (hhas x)
  · simp [TerminalSets.of, Sorted.set, Sorted.find?_alter_self _ _ hcan.keys]
  · have := hnil x
    rwa [TerminalSets.of, ← Sorted.find?_alter_ne hx (fun _ => ends)] at this

/-! ## 5. First sets -/

variable [DecidableEq S]

/-- The left-hand sides, as far as a set goes. -/
def leftSides (productions : List (Production S)) : Finset S := (productions.map (·.lhs)).toFinset

/-- What First sets are made of. -/
def firstMembers (productions : List (Production S)) : Finset Terminal :=
  insert .empty (terminalsOf productions).toFinset

/-- One round over the productions whose First sets are looked for. -/
theorem firstRound_within {productions : List (Production S)} {first : TerminalSets S}
    (h : first.Within (leftSides productions) (firstMembers productions)) :
    (firstRound productions first).Within (leftSides productions) (firstMembers productions) ∧
    first.Le (firstRound productions first) ∧
    ∀ p ∈ productions, ∀ t ∈ firstOfSlots first p.slots, t ∈ (firstRound productions first).of p.lhs :=
  firstRound_spec (Finset.mem_insert_self _ _) productions h
    (fun p hp => List.mem_toFinset.mpr (List.mem_map.mpr ⟨p, hp, rfl⟩))
    fun _ hp _ hs _ hu => Finset.mem_insert_of_mem (List.mem_toFinset.mpr (mem_terminalsOf hp hs hu))

/-- Where the rounds for First sets begin. -/
theorem first_initial_within (productions : List (Production S)) :
    (TerminalSets.initial productions).Within (leftSides productions) (firstMembers productions) := by
  obtain ⟨hcan, hhas, hnil⟩ := initial_canonical productions
  refine ⟨hcan, fun x hx => ?_, fun x t ht => by simp [hnil x] at ht⟩
  obtain ⟨p, hp, rfl⟩ := (hhas x).mp hx
  exact List.mem_toFinset.mpr (List.mem_map_of_mem hp)

/-- **The rounds for First sets come to rest.** -/
theorem firstSets_fixed (productions : List (Production S)) :
    (firstSets productions).Within (leftSides productions) (firstMembers productions) ∧
    firstRound productions (firstSets productions) = firstSets productions := by
  set keys : Finset S := leftSides productions with hkeysdef
  set members : Finset Terminal := firstMembers productions with hmemdef
  have hcard : keys.card * (members.card + 1) < roundLimit productions [] := by
    have h1 : keys.card ≤ productions.length := by
      simpa [hkeysdef, leftSides] using List.toFinset_card_le (productions.map (·.lhs))
    have h2 : members.card ≤ (terminalsOf productions).length + 1 :=
      (Finset.card_insert_le _ _).trans (Nat.succ_le_succ (List.toFinset_card_le _))
    have h3 := length_terminalsOf_le productions
    have h4 := counts_le productions
    have hlimit : roundLimit productions [] =
      (symbolCount productions + 1) * (symbolCount productions + 1) + 1 := rfl
    rcases Nat.eq_zero_or_pos productions.length with h0 | hpos
    · have : keys.card = 0 := by omega
      rw [this, hlimit]
      omega
    · have ha : keys.card ≤ symbolCount productions + 1 := by omega
      have hb : members.card + 1 ≤ symbolCount productions + 1 := by omega
      rw [hlimit]
      exact Nat.lt_succ_of_le (Nat.mul_le_mul ha hb)
  exact TerminalSets.Within.stabilize_fixed (firstRound productions)
    (fun _ h => ⟨(firstRound_within h).1, (firstRound_within h).2.1⟩) hcard
    (first_initial_within productions)

/-- **First sets solve their equations.** -/
theorem firstSets_closed (productions : List (Production S)) :
    (firstSets productions).Within (productions.map (·.lhs)).toFinset
      (insert .empty (terminalsOf productions).toFinset) ∧
    ∀ p ∈ productions, ∀ t ∈ firstOfSlots (firstSets productions) p.slots,
      t ∈ (firstSets productions).of p.lhs := by
  obtain ⟨hwithin, hfixed⟩ := firstSets_fixed productions
  refine ⟨hwithin, fun p hp t ht => ?_⟩
  have := (firstRound_within hwithin).2.2 p hp t ht
  rwa [hfixed] at this

/-! ## 6. Follow sets -/

/-- What has a Follow set. -/
def followKeys (productions : List (Production S)) (start : S) : Finset S :=
  insert start (productions.map (·.lhs) ++ productions.flatMap (·.slots.flatten)).toFinset

/-- What Follow sets are made of. -/
def followMembers (productions : List (Production S)) (ends : List Terminal) : Finset Terminal :=
  (ends ++ (terminalsOf productions).filter (· != .empty)).toFinset

section Follow

variable {productions : List (Production S)} {start : S} {ends : List Terminal}

/-- One round over the productions whose Follow sets are looked for. -/
theorem followRound_within {follow : TerminalSets S}
    (h : follow.Within (followKeys productions start) (followMembers productions ends)) :
    (followRound productions (firstSets productions) follow).Within (followKeys productions start)
      (followMembers productions ends) ∧
    follow.Le (followRound productions (firstSets productions) follow) ∧
    (∀ p ∈ productions, ∀ pre slot post s, p.slots = pre ++ slot :: post → s ∈ slot →
      GrammarSymbol.terminal? s = none →
      ∀ t ∈ afterSlot (firstSets productions) (follow.of p.lhs) post,
        t ∈ (followRound productions (firstSets productions) follow).of s) ∧
    ∀ x, (∀ p ∈ productions, x ∉ p.slots.flatten) →
      ∀ t, t ∈ (followRound productions (firstSets productions) follow).of x → t ∈ follow.of x := by
  refine followRound_spec (firstSets productions) productions h (fun p hp s hs _ => ?_)
    fun p hp pre post heq t ht hne => ?_
  · refine Finset.mem_insert_of_mem (List.mem_toFinset.mpr (List.mem_append_right _ ?_))
    exact List.mem_flatMap.mpr ⟨p, hp, hs⟩
  · have hmem := firstOfSlots_within (firstSets_fixed productions).1 (Finset.mem_insert_self _ _)
      (fun s hs u hu => Finset.mem_insert_of_mem (List.mem_toFinset.mpr (mem_terminalsOf hp (by
        rw [heq, List.flatten_append]
        exact List.mem_append_right _ hs) hu))) ht
    have hmem := List.mem_toFinset.mp ((Finset.mem_insert.mp hmem).resolve_left hne)
    simp [followMembers, hmem, hne]

/-- Where the rounds for Follow sets begin. -/
theorem follow_initial_within (hends : Increasing ends) :
    TerminalSets.Within (Sorted.set start ends (TerminalSets.initial productions))
      (followKeys productions start) (followMembers productions ends) := by
  obtain ⟨hcan, hhas, hstart, hnil⟩ := follow_initial productions start hends
  refine ⟨hcan, fun x hx => ?_, fun x t ht => ?_⟩
  · rcases (hhas x).mp hx with rfl | ⟨p, hp, rfl⟩
    · exact Finset.mem_insert_self _ _
    · refine Finset.mem_insert_of_mem (List.mem_toFinset.mpr (List.mem_append_left _ ?_))
      exact List.mem_map.mpr ⟨p, hp, rfl⟩
  · by_cases hx : x = start
    · subst hx
      exact List.mem_toFinset.mpr (List.mem_append_left _ ((hstart t).mp ht))
    · simp [hnil x hx] at ht

/-- **The rounds for Follow sets come to rest.** -/
theorem followSets_fixed (productions : List (Production S)) (start : S) {ends : List Terminal}
    (hends : Increasing ends) :
    (followSets productions start ends).Within (followKeys productions start)
      (followMembers productions ends) ∧
    followRound productions (firstSets productions) (followSets productions start ends) =
      followSets productions start ends := by
  have hcard : (followKeys productions start).card * ((followMembers productions ends).card + 1) <
      roundLimit productions ends := by
    have h1 : (followKeys productions start).card ≤ symbolCount productions + 1 := by
      refine (Finset.card_insert_le _ _).trans (Nat.succ_le_succ ?_)
      refine (List.toFinset_card_le _).trans (Nat.le_of_eq ?_)
      rw [← counts_le, List.length_append, List.length_map]
    have h2 : (followMembers productions ends).card ≤ ends.length + (terminalsOf productions).length := by
      refine (List.toFinset_card_le _).trans ?_
      rw [List.length_append]
      exact Nat.add_le_add_left (List.length_filter_le _ _) _
    have h3 := length_terminalsOf_le productions
    have h4 := counts_le productions
    have hb : (followMembers productions ends).card + 1 ≤ symbolCount productions + ends.length + 1 := by
      omega
    exact Nat.lt_succ_of_le (Nat.mul_le_mul h1 hb)
  exact TerminalSets.Within.stabilize_fixed (followRound productions (firstSets productions))
    (fun _ h => ⟨(followRound_within h).1, (followRound_within h).2.1⟩) hcard
    (follow_initial_within hends)

end Follow

/-- **Follow sets solve their equations.**  A symbol that stands in no right-hand side is followed
by nothing, except for the end terminals after the start symbol. -/
theorem followSets_closed (productions : List (Production S)) (start : S) {ends : List Terminal}
    (hends : Increasing ends) :
    let first := firstSets productions
    let follow := followSets productions start ends
    (∀ t ∈ ends, t ∈ follow.of start) ∧
    (∀ p ∈ productions, ∀ pre slot post s, p.slots = pre ++ slot :: post → s ∈ slot →
      GrammarSymbol.terminal? s = none →
      ∀ t ∈ afterSlot first (follow.of p.lhs) post, t ∈ follow.of s) ∧
    (∀ x, (∀ p ∈ productions, x ∉ p.slots.flatten) → ∀ t ∈ follow.of x, x = start ∧ t ∈ ends) ∧
    ∀ x, ∀ t ∈ follow.of x, t ∈ ends ∨ (t ∈ terminalsOf productions ∧ t ≠ .empty) := by
  intro first follow
  obtain ⟨-, -, hstart, hnil⟩ := follow_initial productions start hends
  have hinit : TerminalSets.Within (Sorted.set start ends (TerminalSets.initial productions))
      (followKeys productions start) (followMembers productions ends) := follow_initial_within hends
  obtain ⟨hwithin, hfixed⟩ := followSets_fixed productions start hends
  refine ⟨fun t ht => ?_, fun p hp pre slot post s heq hs hterm t ht => ?_, fun x hx => ?_,
    fun x t ht => ?_⟩
  · -- what is there at the beginning stays
    refine (stabilize_induct (P := fun sets : TerminalSets S => sets.Within (followKeys productions start)
      (followMembers productions ends) ∧ t ∈ sets.of start) (fun sets h => ?_) _
      ⟨hinit, (hstart t).mpr ht⟩).2
    obtain ⟨h1, h2, _⟩ := followRound_within h.1
    exact ⟨h1, h2.of _ _ h.2⟩
  · have := (followRound_within hwithin).2.2.1 p hp pre slot post s heq hs hterm t ht
    rwa [hfixed] at this
  · refine (stabilize_induct (P := fun sets : TerminalSets S => sets.Within (followKeys productions start)
      (followMembers productions ends) ∧ ∀ t ∈ sets.of x, x = start ∧ t ∈ ends) (fun sets h => ?_) _
      ⟨hinit, fun t ht => ?_⟩).2
    · obtain ⟨h1, _, _, h4⟩ := followRound_within h.1
      exact ⟨h1, fun t ht => h.2 t (h4 x hx t ht)⟩
    · by_cases hxs : x = start
      · subst hxs
        exact ⟨rfl, (hstart t).mp ht⟩
      · simp [hnil x hxs] at ht
  · have hmem := List.mem_toFinset.mp (hwithin.of x t ht)
    rcases List.mem_append.mp hmem with h | h
    · exact .inl h
    · exact .inr (by simpa using List.mem_filter.mp h)

end Lode
