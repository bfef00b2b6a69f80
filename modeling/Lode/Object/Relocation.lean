/-
# Sections and relocations

The nouns of object code that trees already speak of: the sections that memory is divided into, and
the holes in a symbol's bytes that wait for the address of another symbol.
-/

namespace Lode

/-- A part of memory. -/
inductive Section where
  | text
  | data
  | bss
  /-- The zero page. -/
  | zp
deriving DecidableEq, Repr

namespace Section

/-- The name of a section. -/
def name : Section → String
  | text => "text"
  | data => "data"
  | bss => "bss"
  | zp => "zp"

/-- The section of a name. -/
def ofName? (name : String) : Option Section := [text, data, bss, zp].find? (·.name == name)

end Section

/-- How an address is written into a hole. -/
inductive RelocationKind where
  /-- Both bytes of an address, the low one first. -/
  | absolute16
  /-- The low byte of an address in the zero page. -/
  | zeroPage8
deriving DecidableEq, Repr

namespace RelocationKind

/-- The number of bytes of a hole. -/
def size : RelocationKind → Nat
  | absolute16 => 2
  | zeroPage8 => 1

/-- The name of a kind in archives. -/
def name : RelocationKind → String
  | absolute16 => "absolute16"
  | zeroPage8 => "zero_page8"

/-- The kind of a name. -/
def ofName? (name : String) : Option RelocationKind := [absolute16, zeroPage8].find? (·.name == name)

/-- The name of a kind in trees. -/
def label : RelocationKind → String
  | absolute16 => "Absolute16"
  | zeroPage8 => "ZeroPage8"

end RelocationKind

/-- A hole in a symbol's bytes that waits for the address of `symbol`. -/
structure Relocation where
  offset : Nat
  symbol : String
  kind : RelocationKind
deriving DecidableEq, Repr

namespace Relocation

/-- The same hole after `count` more bytes. -/
def shifted (r : Relocation) (count : Nat) : Relocation := { r with offset := r.offset + count }

/-- A relocation as trees show it. -/
def text (r : Relocation) : String := s!"+{r.offset} {r.kind.label} {r.symbol}"

end Relocation

end Lode
