/-
# Where symbols are placed

Symbols are placed one after the other, so the address of a symbol is the first address plus the sizes of
the symbols before it (`placesFrom`).  This file says when the two placements of a link succeed and which
addresses they give, and reads the table of addresses back (`find?_addressTable`).

`imageOrder` and `addressOf?` say on their own what the order of an image and the address of a symbol are.
The program finds the order by moving the entry to the front of the sections, and the address by adding up
while it places; that the two agree is shown for the order first (`layout_eq`), and for addresses by going
through it.

A placement is a list of names with addresses, and the table is made by setting them one after the other.
With distinct names no address is set twice, so what is found in the table is what was set (`foldl_set`).
Addresses are numbers while symbols are placed and words once they are recorded: the end of a symbol may lie
right behind the last address.
-/
import Lode.Link
import Lode.Proofs.Except
import Lode.Proofs.Sorted
import Mathlib.Algebra.GroupWithZero.Nat

namespace Lode.Link

/-! ## 1. Order and addresses -/

/-- The number of bytes of all symbols together. -/
def total (defs : List Definition) : Nat := (defs.map Definition.size).sum

/-- The symbols of the zero page, in the order of the archives. -/
def zeroPageOrder (defs : List Definition) : List Definition := defs.filter (·.isIn .zp)

/-- The symbols of an image in order: the entry, then the sections `text`, `data` and `bss`. -/
def imageOrder (defs : List Definition) (entry : Option String) : List Definition :=
  defs.filter (fun d => !d.isIn .zp && some d.name == entry) ++
    [Section.text, .data, .bss].flatMap fun place =>
      defs.filter fun d => d.isIn place && some d.name != entry

/-- The symbols that come before a name. -/
def before (name : String) (order : List Definition) : List Definition :=
  order.takeWhile (·.name != name)

/-- The address of a name, if it is defined: in the zero page or in the image, after the symbols
before it. -/
def addressOf? (defs : List Definition) (options : LinkOptions) (name : String) : Option UInt16 :=
  (find? defs name).map fun d =>
    if d.isIn .zp then
      .ofNat (options.zeroPageOrigin.toNat + total (before name (zeroPageOrder defs)))
    else .ofNat (options.origin.toNat + total (before name (imageOrder defs options.entry)))

@[simp] theorem total_nil : total [] = 0 := rfl

@[simp] theorem total_cons (d : Definition) (defs : List Definition) :
    total (d :: defs) = d.size + total defs := by
  simp [total]

/-! ## 2. Names -/

theorem find?_eq_some {defs : List Definition} {name : String} {d : Definition}
    (h : find? defs name = some d) : d ∈ defs ∧ d.name = name :=
  ⟨List.mem_of_find?_eq_some h, by simpa using List.find?_some h⟩

theorem find?_eq_none {defs : List Definition} {name : String} :
    find? defs name = none ↔ name ∉ defs.map (·.name) := by
  simp [find?]

/-- With distinct names, a definition is the one of its name. -/
theorem find?_of_mem {defs : List Definition} (h : (defs.map (·.name)).Nodup) {d : Definition}
    (hd : d ∈ defs) : find? defs d.name = some d := by
  cases hfind : find? defs d.name with
  | none => exact absurd (List.mem_map_of_mem hd) (find?_eq_none.mp hfind)
  | some d' =>
    obtain ⟨hd', hname⟩ := find?_eq_some hfind
    exact congrArg some (List.inj_on_of_nodup_map h hd' hd hname)

/-- **Names are checked** to be distinct. -/
theorem checkDistinct_eq_ok : ∀ {earlier defs : List Definition},
    checkDistinct earlier defs = .ok () ↔
      (∀ d ∈ defs, d.name ∉ earlier.map (·.name)) ∧ (defs.map (·.name)).Nodup
  | earlier, [] => by simp [checkDistinct]
  | earlier, d :: rest => by
    simp only [checkDistinct]
    cases hfind : find? earlier d.name with
    | some first =>
      have hmem : d.name ∈ earlier.map (·.name) := by
        by_contra hnot
        rw [find?_eq_none.mpr hnot] at hfind
        cases hfind
      refine iff_of_false (by simp [failure]) fun h => ?_
      exact h.1 d List.mem_cons_self hmem
    | none =>
      have hnot := find?_eq_none.mp hfind
      rw [checkDistinct_eq_ok]
      simp only [List.map_cons, List.mem_cons, not_or, List.nodup_cons, forall_eq_or_imp]
      constructor
      · rintro ⟨hrest, hnodup⟩
        refine ⟨⟨hnot, fun d' hd' => (hrest d' hd').2⟩, fun hmem => ?_, hnodup⟩
        obtain ⟨d', hd', hname⟩ := List.mem_map.mp hmem
        exact (hrest d' hd').1 hname
      · rintro ⟨⟨_, hearlier⟩, hd, hnodup⟩
        refine ⟨fun d' hd' => ⟨fun hname => hd ?_, hearlier d' hd'⟩, hnodup⟩
        exact List.mem_map.mpr ⟨d', hd', hname⟩

/-! ## 3. Placement -/

/-- The names with the addresses they get one after the other. -/
def placesFrom : Nat → List Definition → List (String × Nat)
  | _, [] => []
  | address, d :: rest => (d.name, address) :: placesFrom (address + d.size) rest

@[simp] theorem map_fst_placesFrom : ∀ (address : Nat) (defs : List Definition),
    (placesFrom address defs).map Prod.fst = defs.map (·.name)
  | _, [] => rfl
  | address, d :: rest => by simp [placesFrom, map_fst_placesFrom]

/-- A symbol is placed after those before it. -/
theorem mem_placesFrom : ∀ (address : Nat) {defs : List Definition} {d : Definition},
    (defs.map (·.name)).Nodup → d ∈ defs →
    (d.name, address + total (before d.name defs)) ∈ placesFrom address defs
  | address, first :: rest, d, hnodup, hd => by
    simp only [List.map_cons, List.nodup_cons] at hnodup
    rcases List.mem_cons.mp hd with rfl | hd
    · simp [placesFrom, before]
    · have hne : first.name ≠ d.name := fun heq =>
        hnodup.1 (heq ▸ List.mem_map_of_mem hd)
      have ih := mem_placesFrom (address + first.size) hnodup.2 hd
      simp only [before, placesFrom, List.mem_cons] at ih ⊢
      right
      rw [List.takeWhile_cons_of_pos (by simpa using hne), total_cons, ← Nat.add_assoc]
      exact ih

/-- The zero page takes symbols of zeros that end inside it. -/
theorem placeZeroPage_eq_ok : ∀ {address : Nat} (defs : List Definition)
    (places : List (String × Nat)), address ≤ 0x100 →
    (placeZeroPage address defs = .ok places ↔
      (∀ d ∈ defs, ∀ byte ∈ d.symbol.data, byte = 0) ∧ address + total defs ≤ 0x100 ∧
        places = placesFrom address defs)
  | address, [], places, h => by
    simp [placeZeroPage, placesFrom, h, eq_comm]
  | address, d :: rest, places, h => by
    simp only [placeZeroPage]
    by_cases hzero : d.symbol.data.any (· != 0) = true
    · refine iff_of_false (by simp [hzero, failure, bind, Except.bind]) fun h => ?_
      obtain ⟨byte, hbyte, hne⟩ := List.any_eq_true.mp hzero
      simp [h.1 d List.mem_cons_self byte hbyte] at hne
    · have hall : ∀ byte ∈ d.symbol.data, byte = 0 := by simpa using hzero
      by_cases hfits : 0x100 < address + d.size
      · refine iff_of_false (by simp [hzero, hfits, failure, bind, Except.bind])
          fun h => ?_
        have := h.2.1
        simp only [total_cons] at this
        omega
      · have ih := fun places => placeZeroPage_eq_ok rest places
          (Nat.le_of_not_lt hfits)
        simp only [hzero, hfits, Bool.false_eq_true, if_false, bind_eq_ok, ih,
          List.forall_mem_cons, total_cons, placesFrom, ← Nat.add_assoc]
        simp only [pure, Except.pure, Except.ok.injEq]
        constructor
        · rintro ⟨_, ⟨hrest, hend, rfl⟩, rfl⟩
          exact ⟨⟨hall, hrest⟩, hend, rfl⟩
        · rintro ⟨⟨_, hrest⟩, hend, rfl⟩
          exact ⟨_, ⟨hrest, hend, rfl⟩, rfl⟩

/-- Memory takes symbols that end inside it. -/
theorem placeImage_eq_ok : ∀ {address : Nat} (defs : List Definition)
    (places : List (String × Nat)), address ≤ 0x10000 →
    (placeImage address defs = .ok places ↔
      address + total defs ≤ 0x10000 ∧ places = placesFrom address defs)
  | address, [], places, h => by
    simp [placeImage, placesFrom, h, eq_comm]
  | address, d :: rest, places, h => by
    simp only [placeImage]
    by_cases hfits : 0x10000 < address + d.size
    · refine iff_of_false (by simp [hfits, failure, bind, Except.bind]) fun h => ?_
      have := h.1
      simp only [total_cons] at this
      omega
    · have ih := fun places => placeImage_eq_ok rest places
        (Nat.le_of_not_lt hfits)
      simp only [hfits, if_false, bind_eq_ok, ih, total_cons, placesFrom, ← Nat.add_assoc]
      simp only [pure, Except.pure, Except.ok.injEq]
      constructor
      · rintro ⟨_, ⟨hend, rfl⟩, rfl⟩
        exact ⟨hend, rfl⟩
      · rintro ⟨hend, rfl⟩
        exact ⟨_, ⟨hend, rfl⟩, rfl⟩

/-! ## 4. The order of an image -/

/-- The entry is a symbol outside the zero page, if there is one. -/
def EntryOk (defs : List Definition) (entry : Option String) : Prop :=
  ∀ name ∈ entry, ∃ d ∈ defs, d.name = name ∧ d.symbol.place ≠ .zp

/-- The entry is found if there is one and it may be one. -/
theorem findEntry_eq_ok {defs : List Definition} (hnodup : (defs.map (·.name)).Nodup)
    {entry : Option String} {found : Option Definition} :
    findEntry defs entry = .ok found ↔
      EntryOk defs entry ∧ found = entry.bind (find? defs) := by
  cases entry with
  | none => simp [findEntry, EntryOk, eq_comm]
  | some name =>
    simp only [findEntry, Option.bind_some]
    cases hfind : find? defs name with
    | none =>
      refine iff_of_false (by simp [failure]) fun h => ?_
      obtain ⟨d, hd, hname, _⟩ := h.1 name rfl
      exact find?_eq_none.mp hfind (hname ▸ List.mem_map_of_mem hd)
    | some d =>
      obtain ⟨hd, hname⟩ := find?_eq_some hfind
      by_cases hzp : d.symbol.place = .zp
      · refine iff_of_false (by simp [Definition.isIn, hzp, failure]) fun h => ?_
        obtain ⟨d', hd', hname', hplace⟩ := h.1 name rfl
        obtain rfl : d' = d := List.inj_on_of_nodup_map hnodup hd' hd (hname'.trans hname.symm)
        exact hplace hzp
      · have hentry : EntryOk defs (some name) := by
          rintro _ ⟨⟩
          exact ⟨d, hd, hname, hzp⟩
        have hin : d.isIn .zp = false := by simp [Definition.isIn, hzp]
        simp only [hin, Bool.false_eq_true, if_false, Except.ok.injEq, hentry, true_and]
        exact eq_comm

/-- With distinct names only one definition has a name. -/
theorem filter_name {defs : List Definition} (hnodup : (defs.map (·.name)).Nodup) {d : Definition}
    (hd : d ∈ defs) : defs.filter (·.name == d.name) = [d] := by
  induction defs with
  | nil => simp at hd
  | cons first rest ih =>
    simp only [List.map_cons, List.nodup_cons] at hnodup
    rcases List.mem_cons.mp hd with rfl | hd
    · rw [List.filter_cons_of_pos (by simp), List.filter_eq_nil_iff.mpr]
      intro d' hd' heq
      exact hnodup.1 (beq_iff_eq.mp heq ▸ List.mem_map_of_mem hd')
    · have hne : first.name ≠ d.name := fun heq => hnodup.1 (heq ▸ List.mem_map_of_mem hd)
      rw [List.filter_cons_of_neg (by simpa using hne), ih hnodup.2 hd]

/-- The order in which a link lays symbols out. -/
theorem layout_eq {defs : List Definition} (hnodup : (defs.map (·.name)).Nodup)
    {entry : Option String} (hentry : EntryOk defs entry) :
    layout defs (entry.bind (find? defs)) = imageOrder defs entry := by
  cases entry with
  | none => simp [layout, imageOrder]
  | some name =>
    obtain ⟨d, hd, rfl, hplace⟩ := hentry name rfl
    have hfilter : defs.filter (fun e => !e.isIn .zp && some e.name == some d.name) = [d] := by
      have hsame : ∀ e ∈ defs, (!e.isIn .zp && some e.name == some d.name) = (e.name == d.name) := by
        intro e he
        by_cases hname : e.name = d.name
        · obtain rfl := List.inj_on_of_nodup_map hnodup he hd hname
          simp [Definition.isIn, hplace]
        · simp [hname]
      rw [List.filter_congr hsame, filter_name hnodup hd]
    simp only [layout, imageOrder, Option.bind_some, find?_of_mem hnodup hd, hfilter,
      Option.toList_some, Option.map_some]

theorem mem_imageOrder {defs : List Definition} {entry : Option String} {d : Definition} :
    d ∈ imageOrder defs entry ↔ d ∈ defs ∧ d.symbol.place ≠ .zp := by
  simp only [imageOrder, List.flatMap_cons, List.flatMap_nil, List.append_nil, List.mem_append,
    List.mem_filter, Definition.isIn, Bool.and_eq_true, Bool.not_eq_true', beq_eq_false_iff_ne,
    beq_iff_eq, bne_iff_ne]
  cases hplace : d.symbol.place <;> by_cases hentry : some d.name = entry <;> simp [hentry]

theorem mem_zeroPageOrder {defs : List Definition} {d : Definition} :
    d ∈ zeroPageOrder defs ↔ d ∈ defs ∧ d.symbol.place = .zp := by
  simp [zeroPageOrder, Definition.isIn]

theorem nodup_zeroPageOrder {defs : List Definition} (h : (defs.map (·.name)).Nodup) :
    ((zeroPageOrder defs).map (·.name)).Nodup :=
  h.sublist (List.filter_sublist.map _)

/-- No symbol is laid out twice. -/
theorem nodup_imageOrder {defs : List Definition} (h : (defs.map (·.name)).Nodup)
    (entry : Option String) : ((imageOrder defs entry).map (·.name)).Nodup := by
  have hsub : ∀ p : Definition → Bool, ((defs.filter p).map (·.name)).Nodup := fun p =>
    h.sublist (List.filter_sublist.map _)
  have hdisjoint : ∀ p q : Definition → Bool, (∀ d, p d = true → q d = false) →
      List.Disjoint ((defs.filter p).map (·.name)) ((defs.filter q).map (·.name)) := by
    intro p q hpq name hp hq
    obtain ⟨d, hd, rfl⟩ := List.mem_map.mp hp
    obtain ⟨d', hd', hname⟩ := List.mem_map.mp hq
    rw [List.mem_filter] at hd hd'
    obtain rfl := List.inj_on_of_nodup_map h hd'.1 hd.1 hname
    simp [hpq _ hd.2] at hd'
  simp only [imageOrder, List.flatMap_cons, List.flatMap_nil, List.append_nil, List.map_append]
  refine (hsub _).append ((hsub _).append ((hsub _).append (hsub _) ?_) ?_) ?_
  · exact hdisjoint _ _ fun d hd => by simp_all [Definition.isIn]
  · refine List.disjoint_append_right.mpr ⟨?_, ?_⟩
    · exact hdisjoint _ _ fun d hd => by simp_all [Definition.isIn]
    · exact hdisjoint _ _ fun d hd => by simp_all [Definition.isIn]
  · refine List.disjoint_append_right.mpr ⟨?_, List.disjoint_append_right.mpr ⟨?_, ?_⟩⟩
    all_goals exact hdisjoint _ _ fun d hd => by simp_all [Definition.isIn]

/-! ## 5. The table of addresses -/

/-- Setting addresses one after the other: the keys increase, and what is found is what was set. -/
theorem foldl_set : ∀ {places : List (String × Nat)} (table : List (String × UInt16)),
    Sorted.IncreasingKeys table → (places.map Prod.fst).Nodup →
    let table' := places.foldl (fun t (name, address) =>
      Sorted.set name (UInt16.ofNat address) t) table
    Sorted.IncreasingKeys table' ∧
      (∀ entry ∈ places, Sorted.find? entry.1 table' = some (.ofNat entry.2)) ∧
      ∀ name ∉ places.map Prod.fst, Sorted.find? name table' = Sorted.find? name table
  | [], table, htable, _ => ⟨htable, by simp, fun _ _ => rfl⟩
  | (name, address) :: rest, table, htable, hnodup => by
    simp only [List.map_cons, List.nodup_cons] at hnodup
    have hset := Sorted.increasingKeys_alter name (fun _ => UInt16.ofNat address) htable
    obtain ⟨hkeys, hfound, hother⟩ := foldl_set _ hset hnodup.2
    refine ⟨hkeys, ?_, fun other hmem => ?_⟩
    · refine List.forall_mem_cons.mpr ⟨?_, hfound⟩
      exact (hother name hnodup.1).trans (Sorted.find?_alter_self name _ htable)
    · simp only [List.map_cons, List.mem_cons, not_or] at hmem
      exact (hother other hmem.2).trans (Sorted.find?_alter_ne hmem.1 _ _)

/-- No name is placed twice. -/
theorem nodup_places {defs : List Definition} (h : (defs.map (·.name)).Nodup) (zp origin : Nat)
    (entry : Option String) : ((placesFrom zp (zeroPageOrder defs) ++
      placesFrom origin (imageOrder defs entry)).map Prod.fst).Nodup := by
  rw [List.map_append, map_fst_placesFrom, map_fst_placesFrom]
  refine (nodup_zeroPageOrder h).append (nodup_imageOrder h entry) fun name hzp himage => ?_
  obtain ⟨d, hd, rfl⟩ := List.mem_map.mp hzp
  obtain ⟨d', hd', hname⟩ := List.mem_map.mp himage
  rw [mem_zeroPageOrder] at hd
  rw [mem_imageOrder] at hd'
  obtain rfl := List.inj_on_of_nodup_map h hd'.1 hd.1 hname
  exact hd'.2 hd.2

/-- **The table of addresses** holds the address of every defined name, and nothing else. -/
theorem find?_addressTable {defs : List Definition} (h : (defs.map (·.name)).Nodup)
    (options : LinkOptions) :
    let table := addressTable (placesFrom options.zeroPageOrigin.toNat (zeroPageOrder defs) ++
      placesFrom options.origin.toNat (imageOrder defs options.entry))
    Sorted.IncreasingKeys table ∧
      ∀ name, Sorted.find? name table = addressOf? defs options name := by
  obtain ⟨hkeys, hfound, hother⟩ := foldl_set [] List.Pairwise.nil
    (nodup_places h options.zeroPageOrigin.toNat options.origin.toNat options.entry)
  refine ⟨hkeys, fun name => ?_⟩
  cases hfind : find? defs name with
  | none =>
    rw [addressOf?, hfind]
    refine hother name fun hmem => find?_eq_none.mp hfind ?_
    rw [List.map_append, map_fst_placesFrom, map_fst_placesFrom, List.mem_append] at hmem
    rcases hmem with hmem | hmem
    · obtain ⟨d, hd, rfl⟩ := List.mem_map.mp hmem
      exact List.mem_map_of_mem (mem_zeroPageOrder.mp hd).1
    · obtain ⟨d, hd, rfl⟩ := List.mem_map.mp hmem
      exact List.mem_map_of_mem (mem_imageOrder.mp hd).1
  | some d =>
    obtain ⟨hd, rfl⟩ := find?_eq_some hfind
    rw [addressOf?, hfind, Option.map_some]
    by_cases hplace : d.symbol.place = .zp
    · have hmem := mem_placesFrom options.zeroPageOrigin.toNat (nodup_zeroPageOrder h)
        (mem_zeroPageOrder.mpr ⟨hd, hplace⟩)
      rw [if_pos (by simp [Definition.isIn, hplace])]
      exact hfound _ (List.mem_append_left _ hmem)
    · have hmem := mem_placesFrom options.origin.toNat
        (nodup_imageOrder h options.entry) (mem_imageOrder.mpr ⟨hd, hplace⟩)
      rw [if_neg (by simp [Definition.isIn, hplace])]
      exact hfound _ (List.mem_append_right _ hmem)

end Lode.Link
