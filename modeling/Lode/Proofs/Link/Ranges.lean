/-
# The memory of linked symbols

A linked symbol occupies the addresses from the one recorded for it up to its length.  Symbols of the
zero page are laid out one after the other, and so are those of the image, so two symbols of one of
these areas have no address in common.  Nothing keeps the two areas apart: `origin` is free to lie in
the zero page.  Any two symbols have no address in common exactly if the two areas have none.

Addresses are words of two bytes.  Every symbol with a byte of its own is placed below `0x10000`, and
the address recorded for what is placed there is the one at which it is placed.

Definitions are closed if every hole lies inside its symbol and is for one of them, of the zero page and
with bytes if the hole has room for a byte only.  A link of closed definitions fails for want of room or
because of its names, never at a hole (`link_error_elsewhere`).
-/
import Lode.Proofs.Link.Image

namespace Lode.Link

/-! ## 1. Positions in an order -/

section Order

variable {order : List Definition} (hnodup : (order.map (·.name)).Nodup)
include hnodup

/-- What follows the first symbol comes after it. -/
theorem total_before_cons {first d : Definition} {rest : List Definition} (h : order = first :: rest)
    (hd : d ∈ rest) :
    total (before d.name order) = first.size + total (before d.name rest) := by
  subst h
  have hne : first.name ≠ d.name := fun heq =>
    (List.nodup_cons.mp hnodup).1 (List.mem_map.mpr ⟨d, hd, heq.symm⟩)
  rw [before, List.takeWhile_cons_of_pos (by simpa using hne), total_cons]
  rfl

theorem total_before_first {first : Definition} {rest : List Definition} (h : order = first :: rest) :
    total (before first.name order) = 0 := by
  subst h
  simp [before]

/-- A symbol ends inside the order. -/
theorem total_before_add_size_le {d : Definition} (hd : d ∈ order) :
    total (before d.name order) + d.size ≤ total order := by
  induction order with
  | nil => cases hd
  | cons first rest ih =>
    rw [total_cons]
    rcases List.mem_cons.mp hd with rfl | hd
    · rw [total_before_first hnodup rfl]
      omega
    · rw [total_before_cons hnodup rfl hd]
      have := ih (List.nodup_cons.mp hnodup).2 hd
      omega

/-- Of two symbols one ends before the other begins. -/
theorem total_before_apart {d d' : Definition} (hd : d ∈ order) (hd' : d' ∈ order)
    (hne : d.name ≠ d'.name) :
    total (before d.name order) + d.size ≤ total (before d'.name order) ∨
      total (before d'.name order) + d'.size ≤ total (before d.name order) := by
  induction order with
  | nil => cases hd
  | cons first rest ih =>
    rcases List.mem_cons.mp hd with rfl | hrest <;> rcases List.mem_cons.mp hd' with rfl | hrest'
    · exact absurd rfl hne
    · left
      rw [total_before_first hnodup rfl, total_before_cons hnodup rfl hrest']
      omega
    · right
      rw [total_before_first hnodup rfl, total_before_cons hnodup rfl hrest]
      omega
    · rw [total_before_cons hnodup rfl hrest, total_before_cons hnodup rfl hrest']
      have := ih (List.nodup_cons.mp hnodup).2 hrest hrest'
      omega

/-- Symbols leave no gaps: every position is inside one of them. -/
theorem exists_total_before (position : Nat) (h : position < total order) :
    ∃ d ∈ order, total (before d.name order) ≤ position ∧
      position < total (before d.name order) + d.size := by
  induction order generalizing position with
  | nil => simp at h
  | cons first rest ih =>
    rw [total_cons] at h
    by_cases hfirst : position < first.size
    · refine ⟨first, List.mem_cons_self, ?_⟩
      rw [total_before_first hnodup rfl]
      omega
    · obtain ⟨d, hd, hle, hlt⟩ :=
        ih (List.nodup_cons.mp hnodup).2 (position - first.size) (by omega)
      refine ⟨d, List.mem_cons_of_mem _ hd, ?_⟩
      rw [total_before_cons hnodup rfl hd]
      omega

end Order

/-! ## 2. Addresses -/

/-- Where a symbol is placed, in the zero page or in the image. -/
def placement (defs : List Definition) (options : LinkOptions) (d : Definition) : Nat :=
  if d.isIn .zp then options.zeroPageOrigin.toNat + total (before d.name (zeroPageOrder defs))
  else options.origin.toNat + total (before d.name (imageOrder defs options.entry))

/-- The addresses that a symbol takes, from the one recorded for it. -/
def Occupies (image : Image) (d : Definition) (address : Nat) : Prop :=
  ∃ start, Sorted.find? d.name image.symbols = some start ∧
    start.toNat ≤ address ∧ address < start.toNat + d.size

/-- The addresses of the zero page that symbols take. -/
def InZeroPage (defs : List Definition) (options : LinkOptions) (address : Nat) : Prop :=
  options.zeroPageOrigin.toNat ≤ address ∧
    address < options.zeroPageOrigin.toNat + total (zeroPageOrder defs)

/-- The addresses of the bytes of an image. -/
def InImage (image : Image) (address : Nat) : Prop :=
  image.origin.toNat ≤ address ∧ address < image.origin.toNat + image.bytes.length

/-- Filling holes keeps the number of bytes. -/
theorem length_foldl_patch {address? : String → Option UInt16} : ∀ {rs : List Relocation}
    {data : List UInt8}, (∀ r ∈ rs, r.offset + r.kind.size ≤ data.length) →
      (rs.foldl (patch address?) data).length = data.length
  | [], _, _ => rfl
  | r :: rs, data, h => by
    obtain ⟨hr, hrs⟩ := List.forall_mem_cons.mp h
    have hlength : (patch address? data r).length = data.length := length_patch hr
    rw [List.foldl_cons, length_foldl_patch (by rwa [hlength]), hlength]

section Linked

variable {defs : List Definition} {options : LinkOptions} {image : Image}
  (hlink : Linkable defs options) (himage : IsImage defs options image)
include hlink

/-- A symbol of the zero page is placed inside of it, behind those before it. -/
theorem placement_zeroPage {d : Definition} (hd : d ∈ defs) (hplace : d.symbol.place = .zp) :
    d ∈ zeroPageOrder defs ∧ placement defs options d =
      options.zeroPageOrigin.toNat + total (before d.name (zeroPageOrder defs)) ∧
      placement defs options d + d.size ≤ 0x100 := by
  have hmem := mem_zeroPageOrder.mpr ⟨hd, hplace⟩
  have hle := total_before_add_size_le (nodup_zeroPageOrder hlink.distinct) hmem
  have hend := hlink.zeroPage
  have heq : placement defs options d =
      options.zeroPageOrigin.toNat + total (before d.name (zeroPageOrder defs)) :=
    if_pos (by simp [Definition.isIn, hplace])
  exact ⟨hmem, heq, by omega⟩

/-- Any other symbol is placed inside of memory, behind those before it. -/
theorem placement_image {d : Definition} (hd : d ∈ defs) (hplace : d.symbol.place ≠ .zp) :
    d ∈ imageOrder defs options.entry ∧ placement defs options d =
      options.origin.toNat + total (before d.name (imageOrder defs options.entry)) ∧
      placement defs options d + d.size ≤ 0x10000 := by
  have hmem : d ∈ imageOrder defs options.entry := mem_imageOrder.mpr ⟨hd, hplace⟩
  have hle := total_before_add_size_le (nodup_imageOrder hlink.distinct options.entry) hmem
  have hend := hlink.memory
  have heq : placement defs options d =
      options.origin.toNat + total (before d.name (imageOrder defs options.entry)) :=
    if_neg (by simp [Definition.isIn, hplace])
  exact ⟨hmem, heq, by omega⟩

theorem placement_add_size_le {d : Definition} (hd : d ∈ defs) :
    placement defs options d + d.size ≤ 0x10000 := by
  by_cases hplace : d.symbol.place = .zp
  · have := (placement_zeroPage hlink hd hplace).2.2
    omega
  · exact (placement_image hlink hd hplace).2.2

include himage

/-- The address recorded for a symbol is the word of its placement. -/
theorem find?_symbols {d : Definition} (hd : d ∈ defs) :
    Sorted.find? d.name image.symbols = some (.ofNat (placement defs options d)) := by
  rw [himage.symbols, addressOf?, find?_of_mem hlink.distinct hd, Option.map_some, placement]
  split <;> rfl

/-- A symbol with bytes occupies the addresses from its placement on. -/
theorem occupies_iff {d : Definition} (hd : d ∈ defs) {address : Nat} :
    Occupies image d address ↔ placement defs options d ≤ address ∧
      address < placement defs options d + d.size := by
  have hend := placement_add_size_le hlink hd
  simp only [Occupies, find?_symbols hlink himage hd, Option.some.injEq, exists_eq_left',
    UInt16.toNat_ofNat']
  by_cases hsize : d.size = 0
  · omega
  · rw [Nat.mod_eq_of_lt (by omega)]

/-- An image has the bytes of its symbols. -/
theorem length_bytes : image.bytes.length = total (imageOrder defs options.entry) := by
  have hlength : ∀ d ∈ imageOrder defs options.entry,
      (patched (addressOf? defs options) d).length = d.size := by
    intro d hd
    obtain ⟨hd, hplace⟩ := mem_imageOrder.mp hd
    exact length_foldl_patch fun r hr => by
      obtain ⟨_, _, hinside, _⟩ := hlink.holes d hd hplace r hr
      exact hinside
  rw [himage.bytes, List.length_flatMap, total]
  exact congrArg List.sum (List.map_congr_left hlength)

/-- Two symbols of one area have no address in common. -/
theorem not_occupies_both {d d' : Definition} (hd : d ∈ defs) (hd' : d' ∈ defs)
    (hne : d.name ≠ d'.name) (harea : d.symbol.place = .zp ↔ d'.symbol.place = .zp) (address : Nat) :
    ¬ (Occupies image d address ∧ Occupies image d' address) := by
  rw [occupies_iff hlink himage hd, occupies_iff hlink himage hd']
  by_cases hplace : d.symbol.place = .zp
  · obtain ⟨hmem, heq, -⟩ := placement_zeroPage hlink hd hplace
    obtain ⟨hmem', heq', -⟩ := placement_zeroPage hlink hd' (harea.mp hplace)
    have := total_before_apart (nodup_zeroPageOrder hlink.distinct) hmem hmem' hne
    omega
  · obtain ⟨hmem, heq, -⟩ := placement_image hlink hd hplace
    obtain ⟨hmem', heq', -⟩ := placement_image hlink hd' (mt harea.mpr hplace)
    have := total_before_apart (nodup_imageOrder hlink.distinct options.entry) hmem hmem' hne
    omega

/-- The symbols of the zero page fill their area. -/
theorem inZeroPage_iff {address : Nat} : InZeroPage defs options address ↔
    ∃ d ∈ defs, d.symbol.place = .zp ∧ Occupies image d address := by
  constructor
  · rintro ⟨hle, hlt⟩
    obtain ⟨d, hmem, hbelow, habove⟩ := exists_total_before (nodup_zeroPageOrder hlink.distinct)
      (address - options.zeroPageOrigin.toNat) (by omega)
    obtain ⟨hd, hplace⟩ := mem_zeroPageOrder.mp hmem
    refine ⟨d, hd, hplace, (occupies_iff hlink himage hd).mpr ?_⟩
    rw [(placement_zeroPage hlink hd hplace).2.1]
    omega
  · rintro ⟨d, hd, hplace, hoccupies⟩
    obtain ⟨hmem, heq, -⟩ := placement_zeroPage hlink hd hplace
    have hend := total_before_add_size_le (nodup_zeroPageOrder hlink.distinct) hmem
    rw [occupies_iff hlink himage hd, heq] at hoccupies
    exact ⟨by omega, by omega⟩

/-- The other symbols fill the image. -/
theorem inImage_iff {address : Nat} : InImage image address ↔
    ∃ d ∈ defs, d.symbol.place ≠ .zp ∧ Occupies image d address := by
  rw [InImage, himage.origin, length_bytes hlink himage]
  constructor
  · rintro ⟨hle, hlt⟩
    obtain ⟨d, hmem, hbelow, habove⟩ := exists_total_before
      (nodup_imageOrder hlink.distinct options.entry)
      (address - options.origin.toNat) (by omega)
    obtain ⟨hd, hplace⟩ := mem_imageOrder.mp hmem
    refine ⟨d, hd, hplace, (occupies_iff hlink himage hd).mpr ?_⟩
    rw [(placement_image hlink hd hplace).2.1]
    omega
  · rintro ⟨d, hd, hplace, hoccupies⟩
    obtain ⟨hmem, heq, -⟩ := placement_image hlink hd hplace
    have hend := total_before_add_size_le (nodup_imageOrder hlink.distinct options.entry) hmem
    rw [occupies_iff hlink himage hd, heq] at hoccupies
    exact ⟨by omega, by omega⟩

/-- Any two symbols have no address in common if the two areas have none, and only then. -/
theorem disjoint_iff : (∀ d ∈ defs, ∀ d' ∈ defs, d.name ≠ d'.name → ∀ address,
      ¬ (Occupies image d address ∧ Occupies image d' address)) ↔
    ∀ address, ¬ (InZeroPage defs options address ∧ InImage image address) := by
  constructor
  · rintro h address ⟨hzp, him⟩
    obtain ⟨d, hd, hplace, hoccupies⟩ := (inZeroPage_iff hlink himage).mp hzp
    obtain ⟨d', hd', hplace', hoccupies'⟩ := (inImage_iff hlink himage).mp him
    have hne : d.name ≠ d'.name := fun heq =>
      hplace' (List.inj_on_of_nodup_map hlink.distinct hd hd' heq ▸ hplace)
    exact h d hd d' hd' hne address ⟨hoccupies, hoccupies'⟩
  · intro h d hd d' hd' hne address hboth
    by_cases hplace : d.symbol.place = .zp <;> by_cases hplace' : d'.symbol.place = .zp
    · exact not_occupies_both hlink himage hd hd' hne (by simp [hplace, hplace']) address hboth
    · exact h address ⟨(inZeroPage_iff hlink himage).mpr ⟨d, hd, hplace, hboth.1⟩,
        (inImage_iff hlink himage).mpr ⟨d', hd', hplace', hboth.2⟩⟩
    · exact h address ⟨(inZeroPage_iff hlink himage).mpr ⟨d', hd', hplace', hboth.2⟩,
        (inImage_iff hlink himage).mpr ⟨d, hd, hplace, hboth.1⟩⟩
    · exact not_occupies_both hlink himage hd hd' hne (by simp [hplace, hplace']) address hboth

end Linked

/-! ## 3. Links -/

/-- **The memory of linked symbols.**  The address recorded for a symbol is the one at which it is
placed, if that is an address at all, and it is for every symbol with bytes.  Two symbols of the zero
page, or two of the image, have no address in common.  Any two symbols have none exactly if the zero
page and the image have none. -/
theorem linked_symbols_apart {archives : List Archive} {options : LinkOptions} {image : Image}
    (h : link archives options = .ok image) :
    let defs := definitions archives
    (∀ d ∈ defs, (0 < d.size → placement defs options d < 0x10000) ∧
      (placement defs options d < 0x10000 → ∃ start, Sorted.find? d.name image.symbols = some start ∧
        start.toNat = placement defs options d)) ∧
    (∀ d ∈ defs, ∀ d' ∈ defs, d.name ≠ d'.name → (d.symbol.place = .zp ↔ d'.symbol.place = .zp) →
      ∀ address, ¬ (Occupies image d address ∧ Occupies image d' address)) ∧
    ((∀ d ∈ defs, ∀ d' ∈ defs, d.name ≠ d'.name → ∀ address,
      ¬ (Occupies image d address ∧ Occupies image d' address)) ↔
        ∀ address, ¬ (InZeroPage defs options address ∧ InImage image address)) := by
  obtain ⟨hlink, himage⟩ := link_eq_ok.mp h
  refine ⟨fun d hd => ⟨fun hsize => ?_, fun hlt => ?_⟩,
    fun d hd d' hd' => not_occupies_both hlink himage hd hd', disjoint_iff hlink himage⟩
  · have := placement_add_size_le hlink hd
    omega
  · refine ⟨_, find?_symbols hlink himage hd, ?_⟩
    rw [UInt16.toNat_ofNat']
    exact Nat.mod_eq_of_lt hlt

/-- A byte of code and a byte of the zero page. -/
def codeAndByte : Archive :=
  ⟨"a", "", [("a.f", ⟨.text, [0x60], .u8, []⟩), ("a.z", ⟨.zp, [0], .u8, []⟩)], []⟩

/-- A byte of code with an empty symbol behind it. -/
def codeAndNothing : Archive :=
  ⟨"a", "", [("a.f", ⟨.text, [0x60], .u8, []⟩), ("a.g", ⟨.text, [], .u8, []⟩)], []⟩

theorem linked_symbols_apart_default : ∃ image, link [codeAndByte] {} = .ok image ∧
    ∀ d ∈ definitions [codeAndByte], ∀ d' ∈ definitions [codeAndByte], d.name ≠ d'.name →
      ∀ address, ¬ (Occupies image d address ∧ Occupies image d' address) := by
  have hlink : link [codeAndByte] {} = .ok ⟨0x800, [0x60], [("a.f", 0x800), ("a.z", 0x02)]⟩ := by
    decide
  refine ⟨_, hlink, (linked_symbols_apart hlink).2.2.mpr fun address h => ?_⟩
  have hzp : address < 3 := h.1.2
  have him : 0x800 ≤ address := h.2.1
  omega

/-- An image that begins in the zero page shares memory with its symbols, and an empty symbol at the
end of memory is recorded at address zero. -/
theorem linked_symbols_not_always_apart :
    (∃ image, link [codeAndByte] { origin := 2 } = .ok image ∧
      ∃ d ∈ definitions [codeAndByte], ∃ d' ∈ definitions [codeAndByte], d.name ≠ d'.name ∧
        Occupies image d 2 ∧ Occupies image d' 2) ∧
    ∃ image, link [codeAndNothing] { origin := 0xffff } = .ok image ∧
      ∃ d ∈ definitions [codeAndNothing],
        placement (definitions [codeAndNothing]) { origin := 0xffff } d = 0x10000 ∧
        Sorted.find? d.name image.symbols = some 0 := by
  refine ⟨⟨⟨2, [0x60], [("a.f", 2), ("a.z", 2)]⟩, by decide,
    ⟨"a.f", "a", ⟨.text, [0x60], .u8, []⟩⟩, by decide, ⟨"a.z", "a", ⟨.zp, [0], .u8, []⟩⟩, by decide,
    by decide, ⟨2, by decide, by decide, by decide⟩, ⟨2, by decide, by decide, by decide⟩⟩,
    ⟨0xffff, [0x60], [("a.f", 0xffff), ("a.g", 0)]⟩, by decide,
    ⟨"a.g", "a", ⟨.text, [], .u8, []⟩⟩, by decide, by decide, by decide⟩

/-! ## 4. Closed definitions -/

/-- Definitions that leave no hole open. -/
def Closed (defs : List Definition) : Prop :=
  ∀ d ∈ defs, ∀ r ∈ d.symbol.relocations, r.offset + r.kind.size ≤ d.size ∧
    ∃ target ∈ defs, target.name = r.symbol ∧
      (r.kind = .zeroPage8 → target.symbol.place = .zp ∧ 0 < target.size)

/-- The holes of closed definitions can be filled, if the zero page has room. -/
theorem Closed.fillable {defs : List Definition} (h : Closed defs) {options : LinkOptions}
    (hnodup : (defs.map (·.name)).Nodup)
    (hroom : options.zeroPageOrigin.toNat + total (zeroPageOrder defs) ≤ 0x100) {d : Definition}
    (hd : d ∈ defs) {r : Relocation} (hr : r ∈ d.symbol.relocations) :
    Fillable (addressOf? defs options) d.size r := by
  obtain ⟨hinside, target, htarget, hname, hzp⟩ := h d hd r hr
  have hfind : find? defs r.symbol = some target := hname ▸ find?_of_mem hnodup htarget
  refine ⟨_, by rw [addressOf?, hfind, Option.map_some], hinside, fun hkind => ?_⟩
  obtain ⟨hplace, hsize⟩ := hzp hkind
  have hend := total_before_add_size_le (nodup_zeroPageOrder hnodup)
    (mem_zeroPageOrder.mpr ⟨htarget, hplace⟩)
  rw [if_pos (by simp [Definition.isIn, hplace]), ← hname, UInt16.toNat_ofNat']
  omega

/-- An obstacle to a link that is not at a hole. -/
def Elsewhere (e : Error) : Prop :=
  match e.cause with
  | .link (.undefinedSymbol _ _) | .link (.relocationOutside _ _) | .link (.notInZeroPage _) => False
  | _ => True

/-- A name that is defined twice is no hole. -/
theorem checkDistinct_error {e : Error} : ∀ {earlier defs : List Definition},
    checkDistinct earlier defs = .error e → Elsewhere e
  | _, [], h => by cases h
  | earlier, d :: rest, h => by
    rw [checkDistinct] at h
    split at h
    · cases h
      trivial
    · exact checkDistinct_error h

/-- A symbol that does not fit into the zero page is no hole. -/
theorem placeZeroPage_error {e : Error} : ∀ {address : Nat} {defs : List Definition},
    placeZeroPage address defs = .error e → Elsewhere e
  | _, [], h => by cases h
  | address, d :: rest, h => by
    rw [placeZeroPage] at h
    split at h
    · cases h
      trivial
    · split at h
      · cases h
        trivial
      · rcases bind_eq_error.mp h with h | ⟨_, -, h⟩
        · exact placeZeroPage_error h
        · cases h

/-- An entry that is not found is no hole. -/
theorem findEntry_error {e : Error} {defs : List Definition} {entry : Option String}
    (h : findEntry defs entry = .error e) : Elsewhere e := by
  cases entry with
  | none => cases h
  | some name =>
    rw [findEntry] at h
    split at h
    · cases h
      trivial
    · split at h
      · cases h
        trivial
      · cases h

/-- A symbol that does not fit into memory is no hole. -/
theorem placeImage_error {e : Error} : ∀ {address : Nat} {defs : List Definition},
    placeImage address defs = .error e → Elsewhere e
  | _, [], h => by cases h
  | address, d :: rest, h => by
    rw [placeImage] at h
    split at h
    · cases h
      trivial
    · rcases bind_eq_error.mp h with h | ⟨_, -, h⟩
      · exact placeImage_error h
      · cases h

/-- **Closed definitions** link, or fail elsewhere than at a hole. -/
theorem link_error_elsewhere {archives : List Archive} {options : LinkOptions} {e : Error}
    (hclosed : Closed (definitions archives)) (h : link archives options = .error e) : Elsewhere e := by
  have hzp : options.zeroPageOrigin.toNat ≤ 0x100 := by
    have := options.zeroPageOrigin.toNat_lt
    omega
  have horigin : options.origin.toNat ≤ 0x10000 := by
    have := options.origin.toNat_lt
    omega
  rw [link] at h
  rcases bind_eq_error.mp h with h | ⟨_, hdistinct, h⟩
  · exact checkDistinct_error h
  obtain ⟨_, hnodup⟩ := checkDistinct_eq_ok.mp hdistinct
  rcases bind_eq_error.mp h with h | ⟨_, hzeroPage, h⟩
  · exact placeZeroPage_error h
  obtain ⟨-, hroom, rfl⟩ := (placeZeroPage_eq_ok _ _ hzp).mp hzeroPage
  rcases bind_eq_error.mp h with h | ⟨_, hfound, h⟩
  · exact findEntry_error h
  obtain ⟨hentry, rfl⟩ := (findEntry_eq_ok hnodup).mp hfound
  simp only [layout_eq hnodup hentry] at h
  rcases bind_eq_error.mp h with h | ⟨_, hplaced, h⟩
  · exact placeImage_error h
  obtain ⟨-, rfl⟩ := (placeImage_eq_ok _ _ horigin).mp hplaced
  obtain ⟨-, hfind⟩ := find?_addressTable hnodup options
  have hholes : ∀ d ∈ imageOrder (definitions archives) options.entry, ∀ r ∈ d.symbol.relocations,
      Fillable (addressOf? (definitions archives) options) d.size r := fun d hd r hr =>
    hclosed.fillable hnodup hroom (mem_imageOrder.mp hd).1 hr
  rw [← funext hfind] at hholes
  rcases bind_eq_error.mp h with h | ⟨_, -, h⟩
  · cases h.symm.trans (mapM_relocate_eq_ok.mpr ⟨hholes, rfl⟩)
  · cases h

end Lode.Link
