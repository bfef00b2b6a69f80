/-
# Reading archives

The inverse of writing.  A record may be an object, with members in any order, or the list of its
fields in order; members of other names are passed over, and no field may be given twice.  The maps
of symbols and constants and the list of relocations may be left out; they are then empty.

Decoding goes through the document in order, so of several faults the first one is reported.
-/
import Lode.Archive.Basic
import Lode.Json.Reader
import Lode.Text.Bytes
import Lode.Types.Descriptor

namespace Lode

/-- A step of decoding. -/
abbrev Decoded (α : Type) := Except ArchiveProblem α

namespace Decode

/-! ## 1. Plain values -/

/-- The characters of a text. -/
def text : JsonReading → Decoded String
  | .text s => .ok s
  | _ => .error .malformed

/-- An integer of the given range. -/
def integer (low high : Int) : JsonReading → Decoded Int
  | .integer n => if low ≤ n && n < high then .ok n else .error .malformed
  | _ => .error .malformed

/-- The bytes of pairs of digits.  A pair is two bytes of text, so it may cut a character; a digit
may be a plus sign if it is the first of its pair.  Every pair takes at least one character, so the
number of characters is budget enough. -/
def bytePairs : Nat → List Char → Decoded (List UInt8)
  | _, [] => .ok []
  | 0, _ :: _ => .error .malformed
  | fuel + 1, c :: cs =>
    match splitBytes 2 (c :: cs) with
    | none => .error .cutCharacter
    | some (pair, rest) =>
      match readUnsigned? 16 256 pair with
      | none => .error .malformed
      | some n => do
        let bytes ← bytePairs fuel rest
        return UInt8.ofNat n :: bytes

/-- The bytes that a text writes in hexadecimal digits. -/
def hexData (s : String) : Decoded (List UInt8) :=
  let cs := s.toList
  if byteLength cs % 2 ≠ 0 then .error .oddData else bytePairs cs.length cs

/-- Bytes. -/
def bytes (v : JsonReading) : Decoded (List UInt8) := do hexData (← text v)

/-- A type. -/
def type (v : JsonReading) : Decoded Ty := do (Ty.ofHex (← text v)).mapError .descriptor

/-- A name out of a fixed set: the text itself, or an object whose only member has the name and no
value. -/
def choice {α : Type} (ofName? : String → Option α) : JsonReading → Decoded α
  | .text s => (ofName? s).elim (.error .malformed) .ok
  | .object [(s, .null)] => (ofName? s).elim (.error .malformed) .ok
  | _ => .error .malformed

/-- Passes over a value. -/
def skip (v : JsonReading) : Decoded Unit :=
  if v.isWhole then .ok () else .error .malformed

/-! ## 2. Lists and maps -/

/-- The items of a list. -/
def items {α : Type} (decode : JsonReading → Decoded α) : JsonReading → Decoded (List α)
  | .list vs => vs.mapM decode
  | _ => .error .malformed

/-- The members of a map; of members with one name the last one counts. -/
def members {α : Type} (decode : JsonReading → Decoded α) :
    List (String × JsonReading) → List (String × α) → Decoded (List (String × α))
  | [], acc => .ok acc
  | (_, .unnamed _) :: _, _ => .error .malformed
  | (name, v) :: rest, acc => do
    let a ← decode v
    members decode rest (Sorted.set name a acc)

/-- A map. -/
def map {α : Type} (decode : JsonReading → Decoded α) : JsonReading → Decoded (List (String × α))
  | .object ms => members decode ms []
  | _ => .error .malformed

/-! ## 3. Records -/

/-- A record under construction: `ρ` holds the fields that were read, and `put` reads the field of
a name into it. -/
structure Shape (ρ : Type) where
  /-- The names of the fields, in order. -/
  fields : List String
  /-- Whether a field was read. -/
  seen : ρ → String → Bool
  put : ρ → String → JsonReading → Decoded ρ

variable {ρ : Type}

/-- Reads the members of a record. -/
def byName (shape : Shape ρ) : List (String × JsonReading) → ρ → Decoded ρ
  | [], r => .ok r
  | (_, .unnamed _) :: _, _ => .error .malformed
  | (name, v) :: rest, r => do
    if shape.fields.contains name then
      if shape.seen r name then throw .malformed
      byName shape rest (← shape.put r name v)
    else
      skip v
      byName shape rest r

/-- Reads the fields of a record in order. -/
def inOrder (shape : Shape ρ) : List String → List JsonReading → ρ → Decoded ρ
  | _, [], r => .ok r
  | [], _ :: _, _ => .error .malformed
  | name :: names, v :: vs, r => do inOrder shape names vs (← shape.put r name v)

/-- Reads a record. -/
def record (shape : Shape ρ) (start : ρ) : JsonReading → Decoded ρ
  | .object ms => byName shape ms start
  | .list vs => inOrder shape shape.fields vs start
  | _ => .error .malformed

/-- A field that must be there. -/
def required {α : Type} : Option α → Decoded α
  | some a => .ok a
  | none => .error .malformed

end Decode

/-! ## 4. The parts of archives -/

namespace Relocation

/-- The fields of a relocation that were read. -/
structure Draft where
  offset : Option Nat := none
  symbol : Option String := none
  kind : Option RelocationKind := none

/-- The fields of a relocation. -/
def shape : Decode.Shape Draft where
  fields := ["offset", "symbol", "kind"]
  seen r
    | "offset" => r.offset.isSome
    | "symbol" => r.symbol.isSome
    | _ => r.kind.isSome
  put r name v := do
    match name with
    | "offset" => return { r with offset := some (← Decode.integer 0 0x10000000000000000 v).toNat }
    | "symbol" => return { r with symbol := some (← Decode.text v) }
    | _ => return { r with kind := some (← Decode.choice RelocationKind.ofName? v) }

/-- The relocation of a document. -/
def decode (v : JsonReading) : Decoded Relocation := do
  let r ← Decode.record shape {} v
  return ⟨← Decode.required r.offset, ← Decode.required r.symbol, ← Decode.required r.kind⟩

end Relocation

namespace ObjectSymbol

/-- The fields of a symbol that were read. -/
structure Draft where
  place : Option Section := none
  data : Option (List UInt8) := none
  type : Option Ty := none
  relocations : Option (List Relocation) := none

/-- The fields of a symbol. -/
def shape : Decode.Shape Draft where
  fields := ["section", "data", "type_info", "relocations"]
  seen r
    | "section" => r.place.isSome
    | "data" => r.data.isSome
    | "type_info" => r.type.isSome
    | _ => r.relocations.isSome
  put r name v := do
    match name with
    | "section" => return { r with place := some (← Decode.choice Section.ofName? v) }
    | "data" => return { r with data := some (← Decode.bytes v) }
    | "type_info" => return { r with type := some (← Decode.type v) }
    | _ => return { r with relocations := some (← Decode.items Relocation.decode v) }

/-- The symbol of a document. -/
def decode (v : JsonReading) : Decoded ObjectSymbol := do
  let r ← Decode.record shape {} v
  return ⟨← Decode.required r.place, ← Decode.required r.data, ← Decode.required r.type,
    r.relocations.getD []⟩

end ObjectSymbol

namespace ObjectConstant

/-- The fields of a constant that were read. -/
structure Draft where
  type : Option Ty := none
  value : Option Int := none

/-- The fields of a constant. -/
def shape : Decode.Shape Draft where
  fields := ["type_info", "value"]
  seen r
    | "type_info" => r.type.isSome
    | _ => r.value.isSome
  put r name v := do
    match name with
    | "type_info" => return { r with type := some (← Decode.type v) }
    | _ =>
      let value ← Decode.integer (-0x8000000000000000) 0x8000000000000000 v
      return { r with value := some value }

/-- The constant of a document. -/
def decode (v : JsonReading) : Decoded ObjectConstant := do
  let r ← Decode.record shape {} v
  return ⟨← Decode.required r.type, ← Decode.required r.value⟩

end ObjectConstant

/-! ## 5. Archives -/

namespace Archive

/-- The fields of an archive that were read. -/
structure Draft where
  unit : Option String := none
  digest : Option String := none
  symbols : Option (List (String × ObjectSymbol)) := none
  constants : Option (List (String × ObjectConstant)) := none

/-- The fields of an archive. -/
def shape : Decode.Shape Draft where
  fields := ["unit", "source_digest", "symbols", "constants"]
  seen r
    | "unit" => r.unit.isSome
    | "source_digest" => r.digest.isSome
    | "symbols" => r.symbols.isSome
    | _ => r.constants.isSome
  put r name v := do
    match name with
    | "unit" => return { r with unit := some (← Decode.text v) }
    | "source_digest" => return { r with digest := some (← Decode.text v) }
    | "symbols" => return { r with symbols := some (← Decode.map ObjectSymbol.decode v) }
    | _ => return { r with constants := some (← Decode.map ObjectConstant.decode v) }

/-- The archive of a document. -/
def decode (v : JsonReading) : Decoded Archive := do
  let r ← Decode.record shape {} v
  return ⟨← Decode.required r.unit, ← Decode.required r.digest, r.symbols.getD [],
    r.constants.getD []⟩

/-- The archive of a text, after which nothing may follow. -/
def ofText (text : String) : Decoded Archive := do
  let (document, complete) := JsonReading.ofText text
  let archive ← decode document
  if complete then return archive else throw .malformed

/-- The archive of a text, with its fault as an error of the toolchain. -/
def read (text : String) : Except Error Archive :=
  (ofText text).mapError fun problem => ⟨.io (.archive problem), none⟩

end Archive

end Lode
