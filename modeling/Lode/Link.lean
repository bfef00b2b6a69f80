/-
# Linking

Archives are laid out in memory and the holes in their symbols are filled with addresses.

Symbols of the zero page get addresses from `zeroPageOrigin` upwards and are not part of the image.
The others stand one after the other from `origin` on: the entry, then the sections `text`, `data`
and `bss`, each in the order of the archives.  Addresses are words of two bytes; a symbol may end at
the very end of memory but not behind it.
-/
import Lode.Archive.Basic
import Lode.Word

namespace Lode

/-! ## 1. Options and images -/

/-- How an image is laid out. -/
structure LinkOptions where
  /-- The address of the first byte of the image. -/
  origin : UInt16 := 0x0800
  /-- The first address for symbols of the zero page. -/
  zeroPageOrigin : UInt8 := 0x02
  /-- The symbol that stands first. -/
  entry : Option String := none
  /-- Write the origin in front of the image. -/
  header : Bool := false
deriving DecidableEq, Repr

/-- A memory image. -/
structure Image where
  origin : UInt16
  bytes : List UInt8
  /-- The addresses of all symbols, in increasing order of their names. -/
  symbols : List (String × UInt16)
deriving DecidableEq, Repr

namespace Image

/-- The bytes of an image as a file holds them, perhaps with the origin in front. -/
def toBytes (image : Image) (header : Bool) : List UInt8 :=
  if header then littleEndian 2 image.origin.toNat ++ image.bytes else image.bytes

/-- Whether an address and a name come before others in a map. -/
def mapOrder (a b : UInt16 × String) : Bool :=
  a.1 < b.1 || (a.1 == b.1 && (compare a.2 b.2).isLE)

/-- The addresses and names of an image, a line each, by address and then by name. -/
def map (image : Image) : String :=
  let entries := (image.symbols.map fun (name, address) => (address, name)).mergeSort mapOrder
  String.join (entries.map fun (address, name) => hexNumber 4 address.toNat ++ " " ++ name ++ "\n")

end Image

namespace Link

/-- The error of an obstacle. -/
def failure {α : Type} (problem : LinkProblem) : Except Error α := .error ⟨.link problem, none⟩

/-! ## 2. Definitions -/

/-- A symbol with its name and the unit that defines it. -/
structure Definition where
  name : String
  unit : String
  symbol : ObjectSymbol
deriving DecidableEq, Repr

namespace Definition

/-- The number of bytes of a symbol. -/
def size (d : Definition) : Nat := d.symbol.data.length

/-- Whether a symbol belongs to a section. -/
def isIn (d : Definition) (place : Section) : Bool := d.symbol.place == place

end Definition

/-- The definitions of archives, in order. -/
def definitions (archives : List Archive) : List Definition :=
  archives.flatMap fun archive =>
    archive.symbols.map fun (name, symbol) => ⟨name, archive.unit, symbol⟩

/-- The definition of a name. -/
def find? (defs : List Definition) (name : String) : Option Definition :=
  defs.find? (·.name == name)

/-- Checks that no name of the second list was defined before. -/
def checkDistinct : List Definition → List Definition → Except Error Unit
  | _, [] => .ok ()
  | earlier, d :: rest =>
    match find? earlier d.name with
    | some first => failure (.definedTwice d.name first.unit d.unit)
    | none => checkDistinct (d :: earlier) rest

/-! ## 3. Layout -/

/-- Gives addresses to symbols of the zero page, one after the other from an address on. -/
def placeZeroPage : Nat → List Definition → Except Error (List (String × Nat))
  | _, [] => .ok []
  | address, d :: rest => do
    if d.symbol.data.any (· != 0) then failure (.initializedZeroPage d.name)
    if 0x100 < address + d.size then failure (.zeroPageOverflow d.name)
    let others ← placeZeroPage (address + d.size) rest
    return (d.name, address) :: others

/-- The definition of the entry, which must not be in the zero page. -/
def findEntry (defs : List Definition) : Option String → Except Error (Option Definition)
  | none => .ok none
  | some entry =>
    match find? defs entry with
    | none => failure (.entryUndefined entry)
    | some d => if d.isIn .zp then failure (.entryInZeroPage entry) else .ok (some d)

/-- The symbols of an image in the order of their addresses. -/
def layout (defs : List Definition) (entry : Option Definition) : List Definition :=
  entry.toList ++ [Section.text, .data, .bss].flatMap fun place =>
    defs.filter fun d => d.isIn place && some d.name != entry.map (·.name)

/-- Gives addresses to the symbols of an image, one after the other from an address on. -/
def placeImage : Nat → List Definition → Except Error (List (String × Nat))
  | _, [] => .ok []
  | address, d :: rest => do
    if 0x10000 < address + d.size then failure (.memoryOverflow d.name)
    let others ← placeImage (address + d.size) rest
    return (d.name, address) :: others

/-- The addresses by name, each as a word of two bytes. -/
def addressTable (places : List (String × Nat)) : List (String × UInt16) :=
  places.foldl (fun table (name, address) => Sorted.set name (UInt16.ofNat address) table) []

/-! ## 4. Relocation -/

/-- Writes bytes over others from an offset on. -/
def overwrite (data : List UInt8) (offset : Nat) (new : List UInt8) : List UInt8 :=
  data.take offset ++ new ++ data.drop (offset + new.length)

/-- Fills one hole in the bytes of a symbol. -/
def fill (addresses : List (String × UInt16)) (name : String) (data : List UInt8)
    (r : Relocation) : Except Error (List UInt8) :=
  match Sorted.find? r.symbol addresses with
  | none => failure (.undefinedSymbol name r.symbol)
  | some target =>
    if data.length < r.offset + r.kind.size then failure (.relocationOutside r.offset name)
    else
      match r.kind with
      | .absolute16 => .ok (overwrite data r.offset (littleEndian 2 target.toNat))
      | .zeroPage8 =>
        if 0xff < target then failure (.notInZeroPage r.symbol)
        else .ok (overwrite data r.offset [target.toUInt8])

/-- The bytes of a symbol with its holes filled, in order. -/
def relocate (addresses : List (String × UInt16)) (d : Definition) : Except Error (List UInt8) :=
  d.symbol.relocations.foldlM (fill addresses d.name) d.symbol.data

end Link

/-! ## 5. The image -/

/-- The image of archives. -/
def link (archives : List Archive) (options : LinkOptions) : Except Error Image := do
  let defs := Link.definitions archives
  Link.checkDistinct [] defs
  let zeroPage ← Link.placeZeroPage options.zeroPageOrigin.toNat (defs.filter (·.isIn .zp))
  let entry ← Link.findEntry defs options.entry
  let order := Link.layout defs entry
  let placed ← Link.placeImage options.origin.toNat order
  let addresses := Link.addressTable (zeroPage ++ placed)
  let pieces ← order.mapM (Link.relocate addresses)
  return ⟨options.origin, pieces.flatten, addresses⟩

end Lode
