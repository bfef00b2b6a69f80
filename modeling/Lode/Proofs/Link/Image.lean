/-
# The image of a link

`Linkable` says of archives and options what a link needs, and `IsImage` says what the image is: every
defined name at its address, and the bytes of the symbols in order with the addresses of their targets in
the holes.

Main statement: a link succeeds exactly for what is linkable, and its result is exactly the image
(`link_exact`).

A link checks and computes in one go.  The two are taken apart step by step: each step succeeds exactly if a
condition holds, and then gives what is described apart from it.  Filling a hole succeeds if its target has
an address and the hole lies inside the symbol, and overwrites the bytes there (`fill_eq_ok`); symbols are
filled one by one, as holes are.

The image is determined by what it should be (`IsImage.eq`), so the description leaves nothing open, and
every list of symbols with distinct names has one (`exists_isImage`), so it does not ask for too much.
Whether the image fits into memory is a condition of the link and not part of the image.
-/
import Lode.Proofs.Link.Layout

namespace Lode.Link

/-! ## 1. What is linked, and to what -/

/-- A hole that can be filled: its target has an address, it lies inside a symbol of `size` bytes,
and one of a single byte waits for an address of the zero page. -/
def Fillable (address? : String → Option UInt16) (size : Nat) (r : Relocation) : Prop :=
  ∃ target, address? r.symbol = some target ∧ r.offset + r.kind.size ≤ size ∧
    (r.kind = .zeroPage8 → target.toNat ≤ 0xff)

/-- What a link needs. -/
structure Linkable (defs : List Definition) (options : LinkOptions) : Prop where
  distinct : (defs.map (·.name)).Nodup
  blank : ∀ d ∈ defs, d.symbol.place = .zp → ∀ byte ∈ d.symbol.data, byte = 0
  zeroPage : options.zeroPageOrigin.toNat + total (zeroPageOrder defs) ≤ 0x100
  entry : EntryOk defs options.entry
  memory : options.origin.toNat + total (imageOrder defs options.entry) ≤ 0x10000
  holes : ∀ d ∈ defs, d.symbol.place ≠ .zp → ∀ r ∈ d.symbol.relocations,
    Fillable (addressOf? defs options) d.size r

/-- Bytes with the address of its target in a hole, the low byte first. -/
def patch (address? : String → Option UInt16) (data : List UInt8) (r : Relocation) : List UInt8 :=
  overwrite data r.offset (littleEndian r.kind.size ((address? r.symbol).getD 0).toNat)

/-- The bytes of a symbol with addresses in its holes, filled in order. -/
def patched (address? : String → Option UInt16) (d : Definition) : List UInt8 :=
  d.symbol.relocations.foldl (patch address?) d.symbol.data

/-- The image of definitions. -/
structure IsImage (defs : List Definition) (options : LinkOptions) (image : Image) : Prop where
  origin : image.origin = options.origin
  sorted : Sorted.IncreasingKeys image.symbols
  symbols : ∀ name, Sorted.find? name image.symbols = addressOf? defs options name
  bytes : image.bytes = (imageOrder defs options.entry).flatMap (patched (addressOf? defs options))

/-- The image of definitions is determined by them. -/
theorem IsImage.eq {defs : List Definition} {options : LinkOptions} {a b : Image}
    (ha : IsImage defs options a) (hb : IsImage defs options b) : a = b := by
  have hkeys : a.symbols.map Prod.fst = b.symbols.map Prod.fst := by
    refine Sorted.Increasing.eq_of_mem_iff ha.sorted hb.sorted fun name => ?_
    rw [← Sorted.find?_isSome_iff, ← Sorted.find?_isSome_iff, ha.symbols, hb.symbols]
  have hsymbols : a.symbols = b.symbols := by
    refine Sorted.eq_of_find? ha.sorted hb.sorted hkeys fun key va vb hva hvb => ?_
    rw [ha.symbols] at hva
    rw [hb.symbols, hva] at hvb
    exact Option.some.inj hvb
  obtain ⟨origin, bytes, symbols⟩ := a
  obtain ⟨origin', bytes', symbols'⟩ := b
  obtain rfl : symbols = symbols' := hsymbols
  obtain rfl : origin = origin' := ha.origin.trans hb.origin.symm
  obtain rfl : bytes = bytes' := ha.bytes.trans hb.bytes.symm
  rfl

/-! ## 2. Holes -/

theorem length_littleEndian : ∀ (count : Nat) (n : Int), (littleEndian count n).length = count
  | 0, _ => rfl
  | count + 1, n => by simp [littleEndian, length_littleEndian count]

theorem length_overwrite {data new : List UInt8} {offset : Nat}
    (h : offset + new.length ≤ data.length) : (overwrite data offset new).length = data.length := by
  simp only [overwrite, List.length_append, List.length_take, List.length_drop]
  omega

theorem length_patch {address? : String → Option UInt16} {data : List UInt8} {r : Relocation}
    (h : r.offset + r.kind.size ≤ data.length) : (patch address? data r).length = data.length :=
  length_overwrite (by rwa [length_littleEndian])

theorem lowByte_toNat (target : UInt16) : lowByte target.toNat = target.toUInt8 := by
  apply UInt8.toNat.inj
  rw [UInt16.toNat_toUInt8, lowByte, UInt8.toNat_ofNat']
  omega

/-- Filling a hole. -/
theorem fill_eq_ok {addresses : List (String × UInt16)} {name : String} {data data' : List UInt8}
    {r : Relocation} : fill addresses name data r = .ok data' ↔
      Fillable (Sorted.find? · addresses) data.length r ∧
        data' = patch (Sorted.find? · addresses) data r := by
  simp only [fill, Fillable, patch]
  cases Sorted.find? r.symbol addresses with
  | none => simp [failure]
  | some target =>
    by_cases houtside : data.length < r.offset + r.kind.size
    · refine iff_of_false (by simp [houtside, failure]) ?_
      rintro ⟨⟨_, _, hinside, _⟩, _⟩
      omega
    · have hinside : r.offset + r.kind.size ≤ data.length := Nat.le_of_not_lt houtside
      simp only [houtside, hinside, if_false, Option.some.injEq, exists_eq_left', Option.getD_some,
        true_and]
      cases r.kind with
      | absolute16 => simp [RelocationKind.size, eq_comm]
      | zeroPage8 =>
        have hpage : 0xff < target ↔ 0xff < target.toNat := UInt16.lt_iff_toNat_lt
        by_cases htarget : 0xff < target.toNat
        · refine iff_of_false (by simp [hpage, htarget, failure]) ?_
          rintro ⟨hle, _⟩
          exact absurd (hle rfl) (Nat.not_le.mpr htarget)
        · have hle : target.toNat ≤ 0xff := Nat.le_of_not_lt htarget
          simp [hpage, htarget, hle, RelocationKind.size, littleEndian, lowByte_toNat, eq_comm]

/-- Filling holes one after the other. -/
theorem foldlM_fill_eq_ok {addresses : List (String × UInt16)} {name : String} :
    ∀ {rs : List Relocation} {data data' : List UInt8},
      rs.foldlM (fill addresses name) data = .ok data' ↔
        (∀ r ∈ rs, Fillable (Sorted.find? · addresses) data.length r) ∧
          data' = rs.foldl (patch (Sorted.find? · addresses)) data
  | [], data, data' => by simp [pure, Except.pure, eq_comm]
  | r :: rs, data, data' => by
    have hlength : Fillable (Sorted.find? · addresses) data.length r →
        (patch (Sorted.find? · addresses) data r).length = data.length := by
      rintro ⟨_, _, hle, _⟩
      exact length_patch hle
    rw [List.foldlM_cons, bind_eq_ok, List.forall_mem_cons, List.foldl_cons]
    constructor
    · rintro ⟨data1, hfirst, hrest⟩
      obtain ⟨hr, rfl⟩ := fill_eq_ok.mp hfirst
      obtain ⟨hrs, rfl⟩ := foldlM_fill_eq_ok.mp hrest
      rw [hlength hr] at hrs
      exact ⟨⟨hr, hrs⟩, rfl⟩
    · rintro ⟨⟨hr, hrs⟩, rfl⟩
      rw [← hlength hr] at hrs
      exact ⟨_, fill_eq_ok.mpr ⟨hr, rfl⟩, foldlM_fill_eq_ok.mpr ⟨hrs, rfl⟩⟩

/-- **Filling the holes** of a symbol. -/
theorem relocate_eq_ok {addresses : List (String × UInt16)} {d : Definition} {bytes : List UInt8} :
    relocate addresses d = .ok bytes ↔
      (∀ r ∈ d.symbol.relocations, Fillable (Sorted.find? · addresses) d.size r) ∧
        bytes = patched (Sorted.find? · addresses) d :=
  foldlM_fill_eq_ok

/-- Filling the holes of symbols one after the other. -/
theorem mapM_relocate_eq_ok {addresses : List (String × UInt16)} :
    ∀ {order : List Definition} {pieces : List (List UInt8)},
      order.mapM (relocate addresses) = .ok pieces ↔
        (∀ d ∈ order, ∀ r ∈ d.symbol.relocations,
          Fillable (Sorted.find? · addresses) d.size r) ∧
          pieces = order.map (patched (Sorted.find? · addresses))
  | [], pieces => by simp [pure, Except.pure, eq_comm]
  | d :: order, pieces => by
    rw [mapM_cons_eq_ok, List.forall_mem_cons, List.map_cons]
    constructor
    · rintro ⟨bytes, rest, hfirst, hrest, rfl⟩
      obtain ⟨hd, rfl⟩ := relocate_eq_ok.mp hfirst
      obtain ⟨horder, rfl⟩ := mapM_relocate_eq_ok.mp hrest
      exact ⟨⟨hd, horder⟩, rfl⟩
    · rintro ⟨⟨hd, horder⟩, rfl⟩
      exact ⟨_, _, relocate_eq_ok.mpr ⟨hd, rfl⟩, mapM_relocate_eq_ok.mpr ⟨horder, rfl⟩, rfl⟩

/-! ## 3. Links -/

/-- Symbols with distinct names have an image, whether it fits into memory or not. -/
theorem exists_isImage {defs : List Definition} (h : (defs.map (·.name)).Nodup)
    (options : LinkOptions) : ∃ image, IsImage defs options image := by
  obtain ⟨hkeys, hfind⟩ := find?_addressTable h options
  exact ⟨⟨options.origin, _, _⟩, rfl, hkeys, hfind, rfl⟩

/-- **A link** succeeds for what is linkable, and gives the image. -/
theorem link_eq_ok {archives : List Archive} {options : LinkOptions} {image : Image} :
    link archives options = .ok image ↔
      Linkable (definitions archives) options ∧ IsImage (definitions archives) options image := by
  have hzp : options.zeroPageOrigin.toNat ≤ 0x100 := by
    have := options.zeroPageOrigin.toNat_lt
    omega
  have horigin : options.origin.toNat ≤ 0x10000 := by
    have := options.origin.toNat_lt
    omega
  simp only [link]
  generalize definitions archives = defs
  constructor
  · intro h
    -- each check gives what is needed, and each placement where the symbols are
    obtain ⟨_, hdistinct, h⟩ := bind_eq_ok.mp h
    obtain ⟨_, hnodup⟩ := checkDistinct_eq_ok.mp hdistinct
    obtain ⟨_, hzeroPage, h⟩ := bind_eq_ok.mp h
    obtain ⟨hblank, hzpEnd, rfl⟩ := (placeZeroPage_eq_ok _ _ hzp).mp hzeroPage
    obtain ⟨_, hfound, h⟩ := bind_eq_ok.mp h
    obtain ⟨hentry, rfl⟩ := (findEntry_eq_ok hnodup).mp hfound
    rw [layout_eq hnodup hentry] at h
    obtain ⟨_, hplace, h⟩ := bind_eq_ok.mp h
    obtain ⟨hend, rfl⟩ := (placeImage_eq_ok _ _ horigin).mp hplace
    obtain ⟨_, hpieces, himage⟩ := bind_eq_ok.mp h
    obtain ⟨hkeys, hfind⟩ := find?_addressTable hnodup options
    obtain ⟨hholes, rfl⟩ := mapM_relocate_eq_ok.mp hpieces
    obtain rfl := Except.ok.inj himage
    rw [← zeroPageOrder, funext hfind] at hholes
    refine ⟨⟨hnodup, fun d hd hplace => hblank d (mem_zeroPageOrder.mpr ⟨hd, hplace⟩), hzpEnd,
      hentry, hend, fun d hd hplace => hholes d (mem_imageOrder.mpr ⟨hd, hplace⟩)⟩,
      rfl, hkeys, hfind, ?_⟩
    rw [← zeroPageOrder, funext hfind]
    exact List.flatMap_def.symm
  · rintro ⟨hlink, himage⟩
    obtain ⟨hkeys, hfind⟩ := find?_addressTable hlink.distinct options
    have hblank : ∀ d ∈ zeroPageOrder defs, ∀ byte ∈ d.symbol.data, byte = 0 := fun d hd =>
      hlink.blank d (mem_zeroPageOrder.mp hd).1 (mem_zeroPageOrder.mp hd).2
    have hholes : ∀ d ∈ imageOrder defs options.entry, ∀ r ∈ d.symbol.relocations,
        Fillable (addressOf? defs options) d.size r := fun d hd =>
      hlink.holes d (mem_imageOrder.mp hd).1 (mem_imageOrder.mp hd).2
    rw [← funext hfind] at hholes
    -- with all that is needed no step fails
    refine bind_eq_ok.mpr ⟨(), checkDistinct_eq_ok.mpr ⟨by simp, hlink.distinct⟩, ?_⟩
    refine bind_eq_ok.mpr ⟨_, (placeZeroPage_eq_ok _ _ hzp).mpr ⟨hblank, hlink.zeroPage, rfl⟩, ?_⟩
    refine bind_eq_ok.mpr ⟨_, (findEntry_eq_ok hlink.distinct).mpr ⟨hlink.entry, rfl⟩, ?_⟩
    rw [layout_eq hlink.distinct hlink.entry]
    refine bind_eq_ok.mpr ⟨_, (placeImage_eq_ok _ _ horigin).mpr ⟨hlink.memory, rfl⟩, ?_⟩
    refine bind_eq_ok.mpr ⟨_, mapM_relocate_eq_ok.mpr ⟨hholes, rfl⟩, ?_⟩
    refine congrArg Except.ok (IsImage.eq ⟨rfl, hkeys, hfind, ?_⟩ himage)
    rw [← zeroPageOrder, funext hfind]
    exact List.flatMap_def.symm

/-- **Links are exact.**  A link succeeds for what is linkable and for nothing else, and what it gives
is the image and nothing else. -/
theorem link_exact (archives : List Archive) (options : LinkOptions) :
    ((∃ image, link archives options = .ok image) ↔ Linkable (definitions archives) options) ∧
      ∀ image, link archives options = .ok image ↔
        Linkable (definitions archives) options ∧ IsImage (definitions archives) options image := by
  refine ⟨⟨?_, fun hlink => ?_⟩, fun image => link_eq_ok⟩
  · rintro ⟨image, himage⟩
    exact (link_eq_ok.mp himage).1
  · obtain ⟨image, himage⟩ := exists_isImage hlink.distinct options
    exact ⟨image, link_eq_ok.mpr ⟨hlink, himage⟩⟩

end Lode.Link
