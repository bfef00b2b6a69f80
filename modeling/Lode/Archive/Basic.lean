/-
# Archives

The result of compiling a unit: its symbols, with their bytes and the holes in them, and its
constants.
-/
import Lode.Digest
import Lode.Error
import Lode.Object.Relocation

namespace Lode

/-- A piece of memory with a name. -/
structure ObjectSymbol where
  place : Section
  data : List UInt8
  type : Ty
  relocations : List Relocation
deriving DecidableEq, Repr

/-- A number with a name. -/
structure ObjectConstant where
  type : Ty
  value : Int
deriving DecidableEq, Repr

/-- The compiled form of a unit.  Symbols and constants are in increasing order of their names. -/
structure Archive where
  unit : String
  digest : String
  symbols : List (String × ObjectSymbol)
  constants : List (String × ObjectConstant)
deriving DecidableEq, Repr

namespace Archive

/-- The archive of a source text, without symbols yet. -/
def ofSource (unit source : String) : Archive := ⟨unit, Digest.ofText source, [], []⟩

/-- Adds a symbol whose name is new. -/
def addSymbol (a : Archive) (name : String) (symbol : ObjectSymbol) : Except Error Archive :=
  if (Sorted.find? name a.symbols).isSome then .error ⟨.duplicateDefinition name, none⟩
  else .ok { a with symbols := Sorted.set name symbol a.symbols }

/-- Sets a constant. -/
def setConstant (a : Archive) (name : String) (constant : ObjectConstant) : Archive :=
  { a with constants := Sorted.set name constant a.constants }

end Archive

end Lode
