/-
# Evaluating tables

The tables of a grammar are made of sets of terminals, maps of sets, rows of items, and an exploration that
compares lists of items.  To evaluate them as they are defined takes far too long.  Here the same tables are
computed in another way (`ParseTable.evaluated`), and it is shown that they are the same (`evaluated_eq`);
whatever is checked by evaluation is checked of the second ones.

Two things make the difference.  Sets of terminals are bits of a number, and a whole map of sets is one
number with a field for every key (`Layout`), so that a round of updates is arithmetic.  A coding says which
set a number stands for (`Coding.sets`); every operation on sets has a counterpart on numbers, and that they
correspond is shown from the single terminal up to the rounds (`decode_firstRound`, `decode_followRound`),
and from there to the lookaheads.

The other one is order of evaluation.  A definition that hands an unevaluated term on to the next step will
have it evaluated again wherever it is used.  The evaluation therefore takes what comes next as an argument,
and forces a value before it is handed on (`Forcing`): forcing changes nothing, and each evaluation is equal
to what comes next applied to the value.
-/
import Lode.Grammar.Table
import Lode.Proofs.Grammar.FirstFollow

namespace Lode

open Sorted (Increasing IncreasingKeys)

/-! ## 1. Forced evaluation -/

/-- A way to evaluate a value before it is passed on. -/
structure Forcing (α : Type) where
  force : {β : Type} → α → (α → β) → β
  force_eq : ∀ {β : Type} (a : α) (k : α → β), force a k = k a

namespace Forcing

attribute [simp] force_eq

variable {α β : Type}

/-- Passes a value on as it is. -/
def asIs (α : Type) : Forcing α := ⟨fun a k => k a, fun _ _ => rfl⟩

/-- Forces a number. -/
def nat : Forcing Nat where
  force n k := match n with
    | 0 => k 0
    | m + 1 => k (m + 1)
  force_eq n k := by cases n <;> rfl

/-- Forces what is there. -/
def option (f : Forcing α) : Forcing (Option α) where
  force o k := match o with
    | none => k none
    | some a => f.force a fun a => k (some a)
  force_eq o k := by cases o <;> simp

/-- Forces both parts. -/
def prod (f : Forcing α) (g : Forcing β) : Forcing (α × β) where
  force p k := match p with
    | (a, b) => f.force a fun a => g.force b fun b => k (a, b)
  force_eq p k := by cases p; simp

/-- Forces the members of a list one by one. -/
def forceList (f : Forcing α) {γ : Type} : List α → (List α → γ) → γ
  | [], k => k []
  | a :: as, k => f.force a fun a => f.forceList as fun as => k (a :: as)

theorem forceList_eq (f : Forcing α) {γ : Type} : ∀ (as : List α) (k : List α → γ),
    f.forceList as k = k as
  | [], _ => rfl
  | a :: as, k => by rw [forceList, force_eq, forceList_eq f as]

/-- Forces a list. -/
def list (f : Forcing α) : Forcing (List α) := ⟨f.forceList, f.forceList_eq⟩

/-- A fold whose accumulated value is forced after every step. -/
def foldl (f : Forcing β) (step : β → α → β) : β → List α → β
  | b, [] => b
  | b, a :: as => f.force (step b a) fun b => foldl f step b as

theorem foldl_eq (f : Forcing β) (step : β → α → β) : ∀ (b : β) (as : List α),
    f.foldl step b as = as.foldl step b
  | _, [] => rfl
  | b, a :: as => by rw [foldl, force_eq, foldl_eq f step, List.foldl_cons]

end Forcing

/-! ## 2. Numbers as sets -/

/-- The members of a row at whose places a number has bits. -/
def decode {α : Type} (row : List α) (m : Nat) : List α :=
  row.zipIdx.filterMap fun (a, i) => if m.testBit i then some a else none

section Decode

variable {α : Type} {row : List α} {m n : Nat}

/-- The members of a set are those whose places have bits. -/
theorem mem_decode {a : α} : a ∈ decode row m ↔ ∃ i, row[i]? = some a ∧ m.testBit i = true := by
  simp only [decode, List.mem_filterMap, Prod.exists, List.mem_zipIdx_iff_getElem?]
  constructor
  · rintro ⟨b, i, hb, h⟩
    split at h
    · obtain rfl := Option.some.inj h
      exact ⟨i, hb, ‹_›⟩
    · cases h
  · rintro ⟨i, ha, h⟩
    exact ⟨a, i, ha, by simp [h]⟩

theorem decode_congr (h : ∀ i < row.length, m.testBit i = n.testBit i) : decode row m = decode row n := by
  refine List.filterMap_congr fun ⟨a, i⟩ hentry => ?_
  obtain ⟨hlt, -⟩ := List.getElem?_eq_some_iff.mp (List.mem_zipIdx_iff_getElem?.mp hentry)
  simp only [h i hlt]

@[simp] theorem decode_zero : decode row 0 = [] := by
  rw [List.eq_nil_iff_forall_not_mem]
  simp [mem_decode]

theorem decode_sublist (row : List α) (m : Nat) : (decode row m).Sublist row := by
  have h : decode row m = (row.zipIdx.filter fun entry => m.testBit entry.2).map Prod.fst := by
    simp only [decode, ← List.filterMap_eq_filter, List.map_filterMap]
    refine List.filterMap_congr fun entry _ => ?_
    cases hbit : m.testBit entry.2 <;> simp [hbit, Option.guard]
  rw [h]
  simpa using (List.filter_sublist (l := row.zipIdx) (p := fun entry => m.testBit entry.2)).map Prod.fst

variable [Ord α] (hrow : Increasing row)
include hrow

theorem increasing_decode (m : Nat) : Increasing (decode row m) := hrow.sublist (decode_sublist row m)

variable [Std.LawfulEqOrd α]

theorem place_unique {i j : Nat} {a : α} (hi : row[i]? = some a) (hj : row[j]? = some a) : i = j :=
  (List.getElem?_inj (List.getElem?_eq_some_iff.mp hi).1 hrow.nodup).mp (hi.trans hj.symm)

theorem contains_decode [BEq α] [LawfulBEq α] {i : Nat} {a : α} (ha : row[i]? = some a) :
    (decode row m).contains a = m.testBit i := by
  rw [Bool.eq_iff_iff, List.contains_iff_mem, mem_decode]
  refine ⟨?_, fun h => ⟨i, ha, h⟩⟩
  rintro ⟨j, hj, h⟩
  rwa [place_unique hrow ha hj]

variable [Std.TransOrd α]

theorem decode_or : decode row (m ||| n) = Sorted.union (decode row m) (decode row n) := by
  refine (increasing_decode hrow _).eq_of_mem_iff
    (Sorted.increasing_union (increasing_decode hrow m)) fun a => ?_
  simp only [Sorted.mem_union, mem_decode, Nat.testBit_or, Bool.or_eq_true]
  grind

theorem decode_bit {i : Nat} {a : α} (ha : row[i]? = some a) : decode row (1 <<< i) = [a] := by
  refine (increasing_decode hrow _).eq_of_mem_iff (List.pairwise_singleton _ a) fun b => ?_
  rw [mem_decode, Nat.one_shiftLeft, List.mem_singleton]
  simp only [Nat.testBit_two_pow, decide_eq_true_eq]
  grind

/-- Without a member that is there. -/
theorem decode_erase [BEq α] [LawfulBEq α] {i : Nat} {a : α} (ha : row[i]? = some a) (h : m.testBit i = true) :
    decode row (m ^^^ 1 <<< i) = (decode row m).filter (· != a) := by
  refine (increasing_decode hrow _).eq_of_mem_iff ((increasing_decode hrow m).filter _) fun b => ?_
  rw [List.mem_filter, mem_decode, mem_decode, Nat.one_shiftLeft]
  simp only [Nat.testBit_xor, Nat.testBit_two_pow, bne_iff_ne]
  constructor
  · rintro ⟨j, hj, hbit⟩
    have hne : i ≠ j := by
      rintro rfl
      simp [h] at hbit
    refine ⟨⟨j, hj, by simpa [hne] using hbit⟩, ?_⟩
    rintro rfl
    exact hne (place_unique hrow ha hj)
  · rintro ⟨⟨j, hj, hbit⟩, hne⟩
    have hij : i ≠ j := by
      rintro rfl
      exact hne (Option.some.inj (hj.symm.trans ha))
    exact ⟨j, hj, by simp [hbit, hij]⟩

end Decode

/-! ## 3. Coded productions -/

/-- A symbol in a production: a terminal with its place, or a symbol with the place of its set. -/
inductive CodedSymbol where
  | terminal (place : Nat)
  | other (place : Nat)

/-- A production with symbols by their places. -/
structure CodedProduction where
  lhs : Nat
  slots : List (List CodedSymbol)

/-- Where the sets are in a number: the width of a set, and the place of the empty marker. -/
structure Layout where
  width : Nat
  empty : Nat

namespace Layout

variable (l : Layout)

/-- The set at a place, with more bits after it. -/
def of (m place : Nat) : Nat := m >>> (l.width * place)

/-- Adds to the set at a place. -/
def add (m place added : Nat) : Nat := m ||| (added % 2 ^ l.width) <<< (l.width * place)

/-- The first terminals of a symbol. -/
def firstOfSymbol (first : Nat) : CodedSymbol → Nat
  | .terminal place => 1 <<< place
  | .other place => l.of first place

/-- The first terminals of a choice. -/
def firstOfSlot (first : Nat) (slot : List CodedSymbol) : Nat :=
  Forcing.nat.foldl (fun acc s => acc ||| l.firstOfSymbol first s) 0 slot

/-- The terminals of two sets if the first one has the empty marker, which is left out; otherwise those
of the first one. -/
def andThen (here next : Nat) : Nat :=
  if here.testBit l.empty then (here ^^^ 1 <<< l.empty) ||| next else here

/-- The first terminals of a row of slots. -/
def firstOfSlots (first : Nat) : List (List CodedSymbol) → Nat
  | [] => 1 <<< l.empty
  | slot :: slots =>
    Forcing.nat.force (l.firstOfSlot first slot) fun here => l.andThen here (firstOfSlots first slots)

/-- One round over all productions. -/
def firstRound (productions : List CodedProduction) (first : Nat) : Nat :=
  Forcing.nat.foldl (fun m p => l.add m p.lhs (l.firstOfSlots m p.slots)) first productions

/-- Adds to the sets of the symbols of a slot. -/
def addSlot (added m : Nat) (slot : List CodedSymbol) : Nat :=
  Forcing.nat.foldl (fun m s => match s with
    | .terminal _ => m
    | .other place => l.add m place added) m slot

/-- What the slots of a right-hand side add, given what comes after it. -/
def followSlots (first after : Nat) : List (List CodedSymbol) → Nat → Nat
  | [], m => m
  | slot :: slots, m =>
    Forcing.nat.force (l.firstOfSlots first slots) fun rest =>
      Forcing.nat.force (l.andThen rest after) fun added =>
        followSlots first after slots (l.addSlot added m slot)

/-- One round over all productions. -/
def followRound (productions : List CodedProduction) (first follow : Nat) : Nat :=
  Forcing.nat.foldl (fun m p => l.followSlots first (l.of m p.lhs) p.slots m) follow productions

end Layout

/-- The terminals and the symbols with sets, each in a row. -/
structure Coding (S : Type) where
  alphabet : List Terminal
  keys : List S
  layout : Layout

namespace Coding

variable {S : Type}

/-- The sets that a number stands for. -/
def sets (c : Coding S) (m : Nat) : TerminalSets S :=
  c.keys.zipIdx.map fun (key, place) => (key, decode c.alphabet (c.layout.of m place))

theorem keys_sets (c : Coding S) (m : Nat) : (c.sets m).map Prod.fst = c.keys := by
  simp [sets, Function.comp_def]

variable [GrammarSymbol S]

section Codes

variable (c : Coding S)

/-- The rows are in order, and the layout is the one that they have. -/
structure Valid : Prop where
  alphabet : Increasing c.alphabet
  keys : Increasing c.keys
  width : c.layout.width = c.alphabet.length
  empty : c.alphabet[c.layout.empty]? = some .empty

/-- The code stands for a symbol. -/
inductive Codes : S → CodedSymbol → Prop
  | terminal {s : S} {t : Terminal} {place : Nat} : GrammarSymbol.terminal? s = some t →
      c.alphabet[place]? = some t → Codes s (.terminal place)
  | other {s : S} {place : Nat} : GrammarSymbol.terminal? s = none →
      c.keys[place]? = some s → Codes s (.other place)

/-- The code stands for a row of slots. -/
abbrev CodesSlots : List (List S) → List (List CodedSymbol) → Prop :=
  List.Forall₂ (List.Forall₂ c.Codes)

/-- The code stands for a production. -/
structure CodesProduction (p : Production S) (code : CodedProduction) : Prop where
  lhs : c.keys[code.lhs]? = some p.lhs
  slots : c.CodesSlots p.slots code.slots

end Codes

/-! ## 4. Sets at their places, and what rows begin with -/

section Rounds

variable {c : Coding S} {m place added : Nat} (hc : c.Valid)
include hc

/-- What two sets begin with, one behind the other. -/
theorem decode_andThen {here next : Nat} : decode c.alphabet (c.layout.andThen here next) =
    Sorted.union ((decode c.alphabet here).filter (· != .empty))
      (if (decode c.alphabet here).contains .empty then decode c.alphabet next else []) := by
  rw [contains_decode hc.alphabet hc.empty, Layout.andThen]
  cases hbit : here.testBit c.layout.empty with
  | true =>
    rw [← decode_erase hc.alphabet hc.empty hbit, if_pos rfl, if_pos rfl, decode_or hc.alphabet]
  | false =>
    have hall : (decode c.alphabet here).filter (· != .empty) = decode c.alphabet here := by
      refine List.filter_eq_self.mpr fun t ht => ?_
      rw [bne_iff_ne]
      rintro rfl
      rw [← List.contains_iff_mem, contains_decode hc.alphabet hc.empty, hbit] at ht
      cases ht
    rw [hall]
    simp [Sorted.union]

/-- The bits of a set behind an addition at one place. -/
theorem testBit_of_add {i j : Nat} (hj : j < c.alphabet.length) :
    (c.layout.of (c.layout.add m place added) i).testBit j =
      ((c.layout.of m i).testBit j || (i == place && added.testBit j)) := by
  simp only [Layout.of, Layout.add, hc.width, Nat.testBit_shiftRight, Nat.testBit_or,
    Nat.testBit_shiftLeft, Nat.testBit_mod_two_pow]
  congr 1
  rcases Nat.lt_trichotomy i place with hlt | rfl | hlt
  · have hle : c.alphabet.length * (i + 1) ≤ c.alphabet.length * place := Nat.mul_le_mul_left _ hlt
    rw [Nat.mul_succ] at hle
    have hne : (i == place) = false := by simpa using hlt.ne
    simp [hne]
    omega
  · simp [hj]
  · have hle : c.alphabet.length * (place + 1) ≤ c.alphabet.length * i := Nat.mul_le_mul_left _ hlt
    rw [Nat.mul_succ] at hle
    have hne : (i == place) = false := by simpa using hlt.ne'
    simp [hne]
    omega

theorem increasingKeys_sets : IncreasingKeys (c.sets m) := by
  rw [IncreasingKeys, keys_sets]
  exact hc.keys

variable [Std.LawfulEqOrd S]

/-- The set of a symbol stands at the place of the symbol. -/
theorem find?_sets {key : S} (h : c.keys[place]? = some key) :
    Sorted.find? key (c.sets m) = some (decode c.alphabet (c.layout.of m place)) := by
  have hentry : (key, place) ∈ c.keys.zipIdx := List.mem_zipIdx_iff_getElem?.mpr h
  exact Sorted.find?_of_mem (increasingKeys_sets hc) (List.mem_map.mpr ⟨(key, place), hentry, rfl⟩)

theorem of_sets {key : S} (h : c.keys[place]? = some key) :
    (c.sets m).of key = decode c.alphabet (c.layout.of m place) := by
  rw [TerminalSets.of, find?_sets hc h, Option.getD_some]

theorem decode_firstOfSymbol {s : S} {code : CodedSymbol} (h : c.Codes s code) :
    decode c.alphabet (c.layout.firstOfSymbol m code) = firstOfSymbol (c.sets m) s := by
  cases h with
  | terminal hs ht => rw [firstOfSymbol, hs, Layout.firstOfSymbol, decode_bit hc.alphabet ht]
  | other hs hkey => rw [firstOfSymbol, hs, Layout.firstOfSymbol, of_sets hc hkey]

theorem decode_firstOfSlot {slot : List S} {code : List CodedSymbol} (h : List.Forall₂ c.Codes slot code) :
    decode c.alphabet (c.layout.firstOfSlot m code) = firstOfSlot (c.sets m) slot := by
  have hfold : ∀ acc, decode c.alphabet
      (code.foldl (fun acc s => acc ||| c.layout.firstOfSymbol m s) acc) =
      slot.foldl (fun acc s => Sorted.union acc (firstOfSymbol (c.sets m) s)) (decode c.alphabet acc) := by
    induction h with
    | nil => exact fun _ => rfl
    | cons hs _ ih =>
      intro acc
      rw [List.foldl_cons, List.foldl_cons, ih, decode_or hc.alphabet, decode_firstOfSymbol hc hs]
  rw [Layout.firstOfSlot, Forcing.foldl_eq, hfold, decode_zero]
  rfl

/-- The first terminals of a row of slots, by numbers. -/
theorem decode_firstOfSlots {slots : List (List S)} {code : List (List CodedSymbol)}
    (h : c.CodesSlots slots code) :
    decode c.alphabet (c.layout.firstOfSlots m code) = firstOfSlots (c.sets m) slots := by
  induction h with
  | nil => exact decode_bit hc.alphabet hc.empty
  | @cons slot _ _ _ hslot _ ih =>
    rw [Layout.firstOfSlots, Forcing.force_eq, decode_andThen hc, decode_firstOfSlot hc hslot, ih,
      firstOfSlots]
    split
    · rfl
    · rename_i hnone
      have hall : (firstOfSlot (c.sets m) slot).filter (· != .empty) = firstOfSlot (c.sets m) slot := by
        refine List.filter_eq_self.mpr fun t ht => ?_
        rw [bne_iff_ne]
        rintro rfl
        exact hnone (List.contains_iff_mem.mpr ht)
      rw [hall]
      rfl

/-! ## 5. Rounds of updates -/

variable [Std.TransOrd S]

/-- Maps that have the keys of a coding, and the sets of a number at them. -/
theorem eq_sets {found : TerminalSets S} (hkeys : IncreasingKeys found)
    (hmem : ∀ key, key ∈ found.map Prod.fst ↔ key ∈ c.keys)
    (h : ∀ place key, c.keys[place]? = some key →
      Sorted.find? key found = some (decode c.alphabet (c.layout.of m place))) : found = c.sets m := by
  have hsets : IncreasingKeys (c.sets m) := increasingKeys_sets hc
  have hfst : found.map Prod.fst = c.keys := Increasing.eq_of_mem_iff hkeys hc.keys hmem
  refine Sorted.eq_of_find? hkeys hsets (hfst.trans (c.keys_sets m).symm) fun key va vb hva hvb => ?_
  have hkey : key ∈ c.keys := by
    rw [← hmem, ← Sorted.find?_isSome_iff, hva]
    rfl
  obtain ⟨place, hplace⟩ := List.getElem?_of_mem hkey
  rw [h place key hplace] at hva
  rw [find?_sets hc hplace] at hvb
  exact Option.some.inj (hva.symm.trans hvb)

/-- Altering one set of a number alters the entry of its symbol. -/
theorem alter_sets {key : S} (hkey : c.keys[place]? = some key) {f : Option (List Terminal) → List Terminal}
    {m' : Nat} (hself : f (some (decode c.alphabet (c.layout.of m place))) =
      decode c.alphabet (c.layout.of m' place))
    (hothers : ∀ i ≠ place, decode c.alphabet (c.layout.of m i) = decode c.alphabet (c.layout.of m' i)) :
    Sorted.alter key f (c.sets m) = c.sets m' := by
  have hsets : IncreasingKeys (c.sets m) := increasingKeys_sets hc
  refine eq_sets hc (Sorted.increasingKeys_alter key f hsets) (fun other => ?_) fun i other hother => ?_
  · rw [Sorted.mem_keys_alter, keys_sets, or_iff_right_iff_imp]
    rintro rfl
    exact List.mem_of_getElem? hkey
  · by_cases hi : i = place
    · obtain rfl : key = other := Option.some.inj (hkey.symm.trans (hi ▸ hother))
      rw [Sorted.find?_alter_self key f hsets, find?_sets hc hkey, hself, hi]
    · have hne : other ≠ key := by
        rintro rfl
        exact hi (place_unique hc.keys hother hkey)
      rw [Sorted.find?_alter_ne hne, find?_sets hc hother, hothers i hi]

theorem add_sets {key : S} (hkey : c.keys[place]? = some key) :
    (c.sets m).add key (decode c.alphabet added) = c.sets (c.layout.add m place added) := by
  refine alter_sets hc hkey ?_ fun i hi => ?_
  · rw [Option.getD_some, ← decode_or hc.alphabet]
    refine decode_congr fun j hj => ?_
    rw [testBit_of_add hc hj, Nat.testBit_or, beq_self_eq_true, Bool.true_and]
  · refine decode_congr fun j hj => ?_
    have hne : (i == place) = false := by simpa using hi
    rw [testBit_of_add hc hj, hne, Bool.false_and, Bool.or_false]

/-- **A round for First sets**, by numbers. -/
theorem decode_firstRound {productions : List (Production S)} {codes : List CodedProduction}
    (h : List.Forall₂ c.CodesProduction productions codes) :
    c.sets (c.layout.firstRound codes m) = firstRound productions (c.sets m) := by
  rw [Layout.firstRound, Forcing.foldl_eq, firstRound]
  induction h generalizing m with
  | nil => rfl
  | cons hp _ ih => rw [List.foldl_cons, List.foldl_cons, ih, ← decode_firstOfSlots hc hp.slots, add_sets hc hp.lhs]

/-- Adding to the symbols of one slot, by numbers. -/
theorem decode_addSlot {slot : List S} {code : List CodedSymbol} (h : List.Forall₂ c.Codes slot code) :
    c.sets (c.layout.addSlot added m code) = slot.foldl (fun sets s =>
      if (GrammarSymbol.terminal? s).isNone then sets.add s (decode c.alphabet added) else sets)
      (c.sets m) := by
  rw [Layout.addSlot, Forcing.foldl_eq]
  induction h generalizing m with
  | nil => rfl
  | cons hs _ ih =>
    rw [List.foldl_cons, List.foldl_cons, ih]
    cases hs with
    | terminal hs _ => simp [hs]
    | other hs hkey => simp [hs, add_sets hc hkey]

/-- Adding what comes after the slots of a right-hand side, by numbers. -/
theorem decode_followSlots {first after : Nat} : ∀ {slots : List (List S)} {code : List (List CodedSymbol)},
    c.CodesSlots slots code → ∀ {m : Nat}, c.sets (c.layout.followSlots first after code m) =
      followSlots (c.sets first) (decode c.alphabet after) slots (c.sets m)
  | _, _, .nil, _ => rfl
  | slot :: slots, _, .cons hslot hslots, m => by
    rw [Layout.followSlots, Forcing.force_eq, Forcing.force_eq, decode_followSlots hslots,
      decode_addSlot hc hslot, decode_andThen hc, decode_firstOfSlots hc hslots]
    rfl

/-- **A round for Follow sets**, by numbers. -/
theorem decode_followRound {first : Nat} {productions : List (Production S)} {codes : List CodedProduction}
    (h : List.Forall₂ c.CodesProduction productions codes) :
    c.sets (c.layout.followRound codes first m) = followRound productions (c.sets first) (c.sets m) := by
  rw [Layout.followRound, Forcing.foldl_eq, followRound]
  induction h generalizing m with
  | nil => rfl
  | cons hp _ ih =>
    rw [List.foldl_cons, List.foldl_cons, ih, decode_followSlots hc hp.slots, of_sets hc hp.lhs]

end Rounds

/-! ## 6. Encoding -/

/-- The places of the members of a row, if all of them have one. -/
def encodeAll {α β : Type} (encode : α → Option β) : List α → Option (List β)
  | [] => some []
  | a :: as =>
    match encode a, encodeAll encode as with
    | some b, some bs => some (b :: bs)
    | _, _ => none

/-- What is encoded one by one is related one by one. -/
theorem forall₂_encodeAll {α β : Type} {encode : α → Option β} {R : α → β → Prop}
    (h : ∀ a b, encode a = some b → R a b) : ∀ {as : List α} {bs : List β},
    encodeAll encode as = some bs → List.Forall₂ R as bs
  | [], _, hbs => by
    obtain rfl := Option.some.inj hbs
    exact .nil
  | a :: as, _, hbs => by
    rw [encodeAll] at hbs
    split at hbs
    · rename_i b bs hb hrest
      obtain rfl := Option.some.inj hbs
      exact .cons (h a b hb) (forall₂_encodeAll h hrest)
    · cases hbs

section Encode

variable [DecidableEq S] (c : Coding S)

/-- The place of a symbol. -/
def encodeSymbol (s : S) : Option CodedSymbol :=
  match GrammarSymbol.terminal? s with
  | some t => (c.alphabet.findIdx? (· == t)).map .terminal
  | none => (c.keys.findIdx? (· == s)).map .other

/-- A production with places for its symbols. -/
def encode (p : Production S) : Option CodedProduction :=
  match c.keys.findIdx? (· == p.lhs), encodeAll (encodeAll c.encodeSymbol) p.slots with
  | some lhs, some slots => some ⟨lhs, slots⟩
  | _, _ => none

variable {c}

theorem getElem?_of_findIdx? {α : Type} [DecidableEq α] {row : List α} {a : α} {i : Nat}
    (h : row.findIdx? (· == a) = some i) : row[i]? = some a := by
  obtain ⟨hlt, ha, -⟩ := List.findIdx?_eq_some_iff_getElem.mp h
  rw [List.getElem?_eq_getElem hlt, eq_of_beq ha]

/-- The code of a symbol stands for it. -/
theorem codes_encodeSymbol (s : S) (code : CodedSymbol) (h : c.encodeSymbol s = some code) :
    c.Codes s code := by
  unfold encodeSymbol at h
  split at h
  · rename_i t ht
    obtain ⟨i, hi, rfl⟩ := Option.map_eq_some_iff.mp h
    exact .terminal ht (getElem?_of_findIdx? hi)
  · rename_i hs
    obtain ⟨i, hi, rfl⟩ := Option.map_eq_some_iff.mp h
    exact .other hs (getElem?_of_findIdx? hi)

/-- The code of a production stands for it. -/
theorem codes_encode (p : Production S) (code : CodedProduction) (h : c.encode p = some code) :
    c.CodesProduction p code := by
  unfold encode at h
  split at h
  · rename_i lhs slots hlhs hslots
    obtain rfl := Option.some.inj h
    exact ⟨getElem?_of_findIdx? hlhs,
      forall₂_encodeAll (fun _ _ => forall₂_encodeAll codes_encodeSymbol) hslots⟩
  · cases h

end Encode

end Coding

/-! ## 7. Lookaheads -/

/-- Codes of values follow the rounds of the values. -/
theorem stabilize_semiconj {α β : Type} [DecidableEq α] [DecidableEq β] {step : α → α} {step' : β → β}
    {f : β → α} (h : Function.Semiconj f step' step) (fuel : Nat) (b : β) :
    f (stabilize step' fuel b) = stabilize step fuel (f b) := by
  rw [stabilize_eq_iterate, stabilize_eq_iterate, h.iterate_right fuel]

/-- Altering an entry of a map, with its values read in another way. -/
theorem Sorted.alter_map {κ ν μ : Type} [Ord κ] {key : κ} {f : Option ν → ν} {f' : Option μ → μ} {d : ν → μ}
    (h : ∀ old, d (f old) = f' (old.map d)) : ∀ entries : List (κ × ν),
    (alter key f entries).map (fun entry => (entry.1, d entry.2)) =
      alter key f' (entries.map fun entry => (entry.1, d entry.2))
  | [] => by simp [alter, h]
  | (k, v) :: rest => by
    simp only [alter, List.map_cons]
    split
    · simp [h]
    · simp [h]
    · simp [alter_map h rest]

namespace Forcing

/-- Forces the form of a terminal. -/
def terminal : Forcing Terminal where
  force t k := match t with
    | .kind name => k (.kind name)
    | .eof => k .eof
    | .empty => k .empty
  force_eq t k := by cases t <;> rfl

/-- Forces the form of a symbol. -/
def symbol : Forcing Symbol where
  force s k := match s with
    | .terminal t => terminal.force t fun t => k (.terminal t)
    | .nonterminal name => k (.nonterminal name)
  force_eq s k := by cases s <;> simp

/-- Forces a path symbol. -/
def pathSymbol : Forcing PathSymbol where
  force s k := match s with
    | ⟨start, symbol, stop⟩ => nat.force start fun start => Forcing.symbol.force symbol fun symbol =>
        nat.option.force stop fun stop => k ⟨start, symbol, stop⟩
  force_eq s k := by cases s; simp

/-- Forces a coded symbol. -/
def codedSymbol : Forcing CodedSymbol where
  force s k := match s with
    | .terminal place => nat.force place fun place => k (.terminal place)
    | .other place => nat.force place fun place => k (.other place)
  force_eq s k := by cases s <;> simp

/-- Forces a coded production. -/
def codedProduction : Forcing CodedProduction where
  force p k := match p with
    | ⟨lhs, slots⟩ => nat.force lhs fun lhs => codedSymbol.list.list.force slots fun slots => k ⟨lhs, slots⟩
  force_eq p k := by cases p; simp

end Forcing

open Forcing

/-- The terminals in the rules of a grammar. -/
def Grammar.alphabet (g : Grammar) : List Terminal :=
  Sorted.ofList (.empty :: g.ends ++ g.rules.flatMap fun rule =>
    (rule.rhs.flatMap Slot.symbols).filterMap GrammarSymbol.terminal?)

/-- The number of a set of terminals. -/
def encodeSet (alphabet ts : List Terminal) : Nat :=
  ts.foldl (fun m t => m ||| 1 <<< alphabet.idxOf t) 0

/-- Repeats a step, forcing what it gives, until it changes nothing. -/
def evaluateStable {β : Type} (step : Nat → Nat) : Nat → Nat → (Nat → β) → β
  | 0, m, k => k m
  | fuel + 1, m, k => nat.force (step m) fun n => if n = m then k m else evaluateStable step fuel n k

theorem evaluateStable_eq {β : Type} (step : Nat → Nat) : ∀ (fuel m : Nat) (k : Nat → β),
    evaluateStable step fuel m k = k (stabilize step fuel m)
  | 0, _, _ => rfl
  | fuel + 1, m, k => by
    rw [evaluateStable, stabilize, force_eq, evaluateStable_eq step fuel, apply_ite k]

namespace Coding

/-- Finds the Follow sets, given the productions by places, the place of the start and what comes after
it. -/
def evaluateFollow {β S : Type} (c : Coding S) (codes : List CodedProduction) (limit limit' start ends : Nat)
    (k : Nat → β) : β :=
  evaluateStable (c.layout.firstRound codes) limit 0 fun first =>
    evaluateStable (c.layout.followRound codes first) limit' (c.layout.add 0 start ends) k

/-- Adds what may come after a walk to the lookaheads of its rule. -/
def addLookaheads {S : Type} (c : Coding S) (follow : Nat) (found : List (Completion × Nat))
    (walk : PathRule × CodedProduction) : List (Completion × Nat) :=
  Sorted.alter ⟨walk.1.final, walk.1.rule⟩ (fun old => old.getD 0 ||| c.layout.of follow walk.2.lhs) found

/-- Lookaheads that are given by numbers. -/
def decodeLookaheads {S : Type} (c : Coding S) (found : List (Completion × Nat)) :
    List (Completion × List Terminal) :=
  found.map fun entry => (entry.1, decode c.alphabet entry.2)

/-- The lookaheads with Follow sets in a number. -/
def lookaheads {S : Type} (c : Coding S) (paths : List PathRule) (codes : List CodedProduction)
    (follow : Nat) : List (Completion × List Terminal) :=
  c.decodeLookaheads ((paths.zip codes).foldl (c.addLookaheads follow) [])

end Coding

/-- The terminals before which rules may be reduced. -/
def evaluateLookaheads {β : Type} (g : Grammar) (paths : List PathRule)
    (k : List (Completion × List Terminal) → β) : β :=
  let productions := paths.map fun path => (⟨path.lhs, path.rhs⟩ : Production PathSymbol)
  terminal.list.force g.alphabet fun alphabet =>
  pathSymbol.list.force ((TerminalSets.initial productions).map Prod.fst) fun keys =>
  nat.force alphabet.length fun width =>
  nat.force (alphabet.idxOf .empty) fun empty =>
  let c : Coding PathSymbol := ⟨alphabet, keys, ⟨width, empty⟩⟩
  match Coding.encodeAll c.encode productions,
      keys.findIdx? (· == (⟨0, .nonterminal g.start, none⟩ : PathSymbol)) with
  | some codes, some start =>
    codedProduction.list.force codes fun codes =>
      if decode alphabet (encodeSet alphabet g.ends) = g.ends then
        c.evaluateFollow codes (roundLimit productions []) (roundLimit productions g.ends) start
          (encodeSet alphabet g.ends) fun follow => k (c.lookaheads paths codes follow)
      else k (lookaheads g paths)
  | _, _ => k (lookaheads g paths)

section Equations

variable {c : Coding PathSymbol} (hc : c.Valid) {paths : List PathRule} {codes : List CodedProduction}
  (hcodes : List.Forall₂ (fun path => c.CodesProduction ⟨path.lhs, path.rhs⟩) paths codes)
include hc hcodes

/-- Lookaheads by numbers are those with the sets of the numbers. -/
theorem Coding.lookaheads_eq (follow : Nat) : c.lookaheads paths codes follow =
    paths.foldl (fun found path => Sorted.alter ⟨path.final, path.rule⟩
      (fun old => Sorted.union (old.getD []) ((c.sets follow).of path.lhs)) found) [] := by
  have hfold : ∀ found, c.decodeLookaheads ((paths.zip codes).foldl (c.addLookaheads follow) found) =
      paths.foldl (fun found path => Sorted.alter ⟨path.final, path.rule⟩
        (fun old => Sorted.union (old.getD []) ((c.sets follow).of path.lhs)) found)
        (c.decodeLookaheads found) := by
    induction hcodes with
    | nil => exact fun _ => rfl
    | cons hp _ ih =>
      intro found
      rw [List.zip_cons_cons, List.foldl_cons, List.foldl_cons, ih]
      congr 1
      refine Sorted.alter_map (fun old => ?_) found
      rw [Coding.of_sets hc hp.lhs, decode_or hc.alphabet]
      cases old <;> simp
  exact hfold []

/-- **Follow sets by numbers** are the Follow sets. -/
theorem Coding.evaluateFollow_eq {β : Type} (hkeys : c.keys =
      (TerminalSets.initial (paths.map fun path => (⟨path.lhs, path.rhs⟩ : Production PathSymbol))).map
        Prod.fst) {start : PathSymbol} {place : Nat} (hstart : c.keys[place]? = some start)
    {ends : List Terminal} {code : Nat} (hends : decode c.alphabet code = ends) (k : Nat → β) :
    ∃ follow, c.evaluateFollow codes
        (roundLimit (paths.map fun path => (⟨path.lhs, path.rhs⟩ : Production PathSymbol)) [])
        (roundLimit (paths.map fun path => (⟨path.lhs, path.rhs⟩ : Production PathSymbol)) ends) place code k =
        k follow ∧
      c.sets follow = followSets (paths.map fun path => ⟨path.lhs, path.rhs⟩) start ends := by
  set productions := paths.map fun path => (⟨path.lhs, path.rhs⟩ : Production PathSymbol)
  have hcodes : List.Forall₂ c.CodesProduction productions codes := List.forall₂_map_left_iff.mpr hcodes
  obtain ⟨hcanonical, -, hnil⟩ := initial_canonical productions
  have hinitial : TerminalSets.initial productions = c.sets 0 := by
    refine Coding.eq_sets hc hcanonical.keys (fun key => by rw [hkeys]) fun i key hkey => ?_
    have hhas : (Sorted.find? key (TerminalSets.initial productions)).isSome := by
      rw [Sorted.find?_isSome_iff, ← hkeys]
      exact List.mem_of_getElem? hkey
    obtain ⟨found, hfound⟩ := Option.isSome_iff_exists.mp hhas
    have hof := hnil key
    rw [TerminalSets.of, hfound, Option.getD_some] at hof
    rw [hfound, hof, Layout.of, Nat.zero_shiftRight, decode_zero]
  have hset : Sorted.set start ends (c.sets 0) = c.sets (c.layout.add 0 place code) := by
    refine Coding.alter_sets hc hstart ?_ fun i hi => decode_congr fun j hj => ?_
    · rw [← hends]
      refine decode_congr fun j hj => ?_
      rw [Coding.testBit_of_add hc hj]
      simp [Layout.of]
    · rw [Coding.testBit_of_add hc hj]
      simp [hi]
  refine ⟨_, by rw [evaluateFollow, evaluateStable_eq, evaluateStable_eq], ?_⟩
  rw [followSets, firstSets, hinitial, hset,
    stabilize_semiconj (f := c.sets) (fun m => Coding.decode_followRound hc hcodes),
    stabilize_semiconj (f := c.sets) (fun m => Coding.decode_firstRound hc hcodes)]

end Equations

theorem Grammar.alphabet_empty (g : Grammar) :
    g.alphabet[g.alphabet.idxOf .empty]? = some .empty := by
  have hmem : Terminal.empty ∈ g.alphabet := Sorted.mem_ofList.mpr List.mem_cons_self
  rw [List.getElem?_eq_getElem (List.idxOf_lt_length_of_mem hmem), List.getElem_idxOf]

/-- **The lookaheads by numbers** are the lookaheads. -/
theorem evaluateLookaheads_eq {β : Type} (g : Grammar) (paths : List PathRule)
    (k : List (Completion × List Terminal) → β) :
    evaluateLookaheads g paths k = k (lookaheads g paths) := by
  simp only [evaluateLookaheads, force_eq]
  split
  · rename_i codes start hcodes hstart
    split
    · rename_i hends
      set productions := paths.map fun path => (⟨path.lhs, path.rhs⟩ : Production PathSymbol)
      have hvalid : (⟨g.alphabet, (TerminalSets.initial productions).map Prod.fst,
          ⟨g.alphabet.length, g.alphabet.idxOf .empty⟩⟩ : Coding PathSymbol).Valid :=
        ⟨Sorted.increasing_ofList _, (initial_canonical productions).1.keys, rfl, g.alphabet_empty⟩
      have hforall := List.forall₂_map_left_iff.mp (Coding.forall₂_encodeAll Coding.codes_encode hcodes)
      obtain ⟨follow, hfollow, hsets⟩ := Coding.evaluateFollow_eq hvalid hforall rfl
        (Coding.getElem?_of_findIdx? hstart) hends fun follow =>
          k (Coding.lookaheads _ paths codes follow)
      rw [hfollow, Coding.lookaheads_eq hvalid hforall, hsets]
      rfl
    · rfl
  · rfl

/-! ## 8. Forced items -/

namespace Forcing

/-- Forces an item. -/
def item : Forcing Item where
  force i k := match i with
    | ⟨rule, point⟩ => nat.force rule fun rule => nat.force point fun point => k ⟨rule, point⟩
  force_eq i k := by cases i; simp

/-- Forces a walk. -/
def pathRule : Forcing PathRule where
  force p k := match p with
    | ⟨rule, lhs, rhs, final⟩ => nat.force rule fun rule => pathSymbol.force lhs fun lhs =>
        pathSymbol.list.list.force rhs fun rhs => nat.force final fun final => k ⟨rule, lhs, rhs, final⟩
  force_eq p k := by cases p; simp

end Forcing

/-! ## 9. The automaton -/

namespace Grammar

variable {β : Type}

/-- The number of an item set, which may be new. -/
def Exploration.evaluateNumber (e : Exploration) (items : List Item) (k : StateId → Exploration → β) : β :=
  match e.sets.toList.findIdx? (· == items) with
  | some id => nat.force id fun id => k id e
  | none =>
    nat.force e.sets.toList.length fun id =>
      (asIs (List Item)).list.force (e.sets.toList ++ [items]) fun sets => k id ⟨sets.toArray, e.moves⟩

theorem Exploration.evaluateNumber_eq (e : Exploration) (items : List Item)
    (k : StateId → Exploration → β) :
    e.evaluateNumber items k = k (e.number items).1 (e.number items).2 := by
  obtain ⟨⟨sets⟩, moves⟩ := e
  simp only [evaluateNumber, number, List.findIdx?_toArray, force_eq]
  cases sets.findIdx? (· == items) with
  | some id => rfl
  | none => simp

/-- Explores the moves of one state. -/
def evaluateMoves (g : Grammar) : List (Symbol × List Item) → Exploration →
    (List (Symbol × StateId) → Exploration → β) → β
  | [], e, k => k [] e
  | (symbol, kernel) :: rest, e, k =>
    item.list.force (g.closure kernel) fun items =>
      e.evaluateNumber items fun target e =>
        g.evaluateMoves rest e fun moves e => k ((symbol, target) :: moves) e

theorem evaluateMoves_eq (g : Grammar) : ∀ (kernels : List (Symbol × List Item)) (e : Exploration)
    (k : List (Symbol × StateId) → Exploration → β),
    g.evaluateMoves kernels e k = k (g.exploreMoves kernels e).1 (g.exploreMoves kernels e).2
  | [], _, _ => rfl
  | (symbol, kernel) :: rest, e, k => by
    rw [evaluateMoves, force_eq, Exploration.evaluateNumber_eq, evaluateMoves_eq g rest]
    rfl

/-- Explores the states that have a number and no moves yet. -/
def evaluateStates (g : Grammar) : Nat → Exploration → (Exploration → β) → β
  | 0, e, k => k e
  | fuel + 1, e, k =>
    match e.sets[e.moves.size]? with
    | none => k e
    | some items =>
      (symbol.prod item.list).list.force (g.kernels items) fun kernels =>
        g.evaluateMoves kernels e fun moves e =>
          (asIs (List (Symbol × StateId))).list.force (e.moves.toList ++ [moves]) fun moves =>
            g.evaluateStates fuel ⟨e.sets, moves.toArray⟩ k

/-- The states are explored as before. -/
theorem evaluateStates_eq (g : Grammar) : ∀ (fuel : Nat) (e : Exploration) (k : Exploration → β),
    g.evaluateStates fuel e k = k (g.explore fuel e)
  | 0, _, _ => rfl
  | fuel + 1, e, k => by
    rw [evaluateStates, explore]
    cases e.sets[e.moves.size]? with
    | none => rfl
    | some items =>
      simp only [force_eq, evaluateMoves_eq, evaluateStates_eq g fuel]
      rw [← Array.toList_push, Array.toArray_toList]

end Grammar

/-! ## 10. Tables -/

/-- The automaton of a grammar. -/
def Automaton.evaluate {β : Type} (g : Grammar) (k : Except Error Automaton → β) : β :=
  item.list.force (g.closure [⟨g.startRule, 0⟩]) fun items =>
  g.evaluateStates (Nat.pow 2 g.itemCount + 1) ⟨#[items], #[]⟩ fun e =>
  k (match modeProblems g e.sets.toList with
    | [] =>
      .ok ⟨(e.sets.zip e.moves).map fun (items, moves) => ⟨items, moves, (modesOf g items).head?⟩⟩
    | found => .error ⟨.grammar found, none⟩)

theorem Automaton.evaluate_eq {β : Type} (g : Grammar) (k : Except Error Automaton → β) :
    evaluate g k = k (ofGrammar g) := by
  rw [evaluate, force_eq, Grammar.evaluateStates_eq]
  rfl

namespace ParseTable

/-- The tables of a grammar. -/
def evaluated (g : Grammar) : Except Error ParseTable :=
  Automaton.evaluate g fun a => a.bind fun a => (a.pathRules g).bind fun paths =>
    pathRule.list.force paths fun paths =>
    evaluateLookaheads g paths fun found =>
      match addAll g a found (a.states.map rowOfMoves) [] with
      | (rows, []) => .ok ⟨g, rows⟩
      | (_, problems) => .error ⟨.grammar problems, none⟩

/-- **Evaluated tables** are the tables. -/
theorem evaluated_eq (g : Grammar) : evaluated g = ofGrammar g := by
  simp only [evaluated, Automaton.evaluate_eq, force_eq, evaluateLookaheads_eq]
  rfl

end ParseTable

end Lode
