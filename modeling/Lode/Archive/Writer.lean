/-
# Writing archives

An archive is written as a JSON document.  Bytes and type descriptors are written in hexadecimal
digits, so a type without a descriptor keeps an archive from being written.
-/
import Lode.Archive.Basic
import Lode.Json
import Lode.Types.Descriptor

namespace Lode

/-- The document of a relocation. -/
def Relocation.toJson (r : Relocation) : JsonValue :=
  .object [("offset", .number r.offset), ("symbol", .text r.symbol), ("kind", .text r.kind.name)]

/-- The document of a symbol. -/
def ObjectSymbol.toJson (s : ObjectSymbol) : Except DescriptorProblem JsonValue := do
  let type ← s.type.toHex
  return .object [("section", .text s.place.name), ("data", .text (hexBytes s.data)),
    ("type_info", .text type), ("relocations", .list (s.relocations.map Relocation.toJson))]

/-- The document of a constant. -/
def ObjectConstant.toJson (c : ObjectConstant) : Except DescriptorProblem JsonValue := do
  return .object [("type_info", .text (← c.type.toHex)), ("value", .number c.value)]

namespace Archive

/-- The members of a map. -/
def membersToJson {α : Type} (toJson : α → Except DescriptorProblem JsonValue)
    (entries : List (String × α)) : Except DescriptorProblem JsonValue := do
  return .object (← entries.mapM fun (name, a) => do return (name, ← toJson a))

/-- The document of an archive. -/
def toJson (a : Archive) : Except DescriptorProblem JsonValue := do
  let symbols ← membersToJson ObjectSymbol.toJson a.symbols
  let constants ← membersToJson ObjectConstant.toJson a.constants
  return .object [("unit", .text a.unit), ("source_digest", .text a.digest), ("symbols", symbols),
    ("constants", constants)]

/-- The text of an archive. -/
def write (a : Archive) : Except Error String :=
  match a.toJson with
  | .ok document => .ok document.render
  | .error problem => .error (InternalProblem.serialization problem).error

end Archive

end Lode
