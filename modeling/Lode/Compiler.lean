/-
# The compiler

From a source text to an archive: the text is parsed and simplified, the passes run in their
scheduled order, and the symbols and constants of the lowered tree are collected.
-/
import Lode.Archive.Basic
import Lode.Language.Reader
import Lode.Pass.Simplify
import Lode.Pass.Standard
import Lode.Path

namespace Lode

namespace Compiler

/-! ## 1. Lowering -/

/-- The tree after a pass. -/
def runPass (unit : String) (tree : Node) (pass : Pass) : Except Error Node := do
  return ((← pass.run unit tree).apply tree).getD tree

/-- The tree of a text before the passes. -/
def simplified (raw : Node) : Except Error Node := do
  return ((← simplify raw).apply raw).getD raw

/-- The tree of a text after all passes. -/
def lower (text unit : String) (options : ScheduleOptions) : Except Error Node := do
  let raw ← Language.read text
  let tree ← simplified raw
  let passes ← schedule standardPasses options
  passes.foldlM (runPass unit) tree

/-- A step of the compiler and the tree after it. -/
structure Snapshot where
  step : String
  tree : Node

/-- The trees after each of the passes. -/
def tracePasses (unit : String) : List Pass → Node → Except Error (List Snapshot)
  | [], _ => .ok []
  | pass :: passes, tree => do
    let next ← runPass unit tree pass
    let rest ← tracePasses unit passes next
    return ⟨pass.info.name, next⟩ :: rest

/-- The trees after all steps. -/
def trace (text unit : String) (options : ScheduleOptions) : Except Error (List Snapshot) := do
  let raw ← Language.read text
  let tree ← simplified raw
  let passes ← schedule standardPasses options
  let rest ← tracePasses unit passes tree
  return ⟨"parse", raw⟩ :: ⟨"simplify", tree⟩ :: rest

/-! ## 2. Collecting symbols -/

/-- The symbol of a lowered node, with the relocations it was given. -/
def symbolOf (n : Node) (place : Section) (relocations : List Relocation) :
    Except Error (String × ObjectSymbol) := do
  let some name := n.str? "name" | throw (InternalProblem.symbolName.atSpan n.span)
  let some type := n.type? "type" | throw (InternalProblem.symbolType name).error
  return (name, ⟨place, (n.bytes? "bytes").getD [], type, relocations⟩)

/-- The symbol of a lowered variable. -/
def dataSymbolOf (n : Node) : Except Error (String × ObjectSymbol) := do
  let some place := (n.str? "section").bind Section.ofName?
    | throw (InternalProblem.symbolSection.atSpan n.span)
  symbolOf n place []

/-- Adds the symbol of a variable to an archive. -/
def addData (archive : Archive) (n : Node) : Except Error Archive := do
  let (name, symbol) ← dataSymbolOf n
  archive.addSymbol name symbol

/-- Adds the symbols of an item to an archive: of a variable its own, of a function its own and
those of its local variables. -/
def addItem (archive : Archive) (item : Node) : Except Error Archive :=
  match item.tag with
  | .dataSymbol => addData archive item
  | .funSymbol => do
    let (name, symbol) ← symbolOf item .text ((item.relocations? "relocs").getD [])
    let archive ← archive.addSymbol name symbol
    let locals := ((item.table? "locals").getD .nil).nodes.map (·.2)
    locals.foldlM addData archive
  | tag => .error ((InternalProblem.notASymbol tag).atSpan item.span)

/-- Adds a constant of a unit to an archive, if its value and its type are known. -/
def addConstant (unit : String) (archive : Archive) (entry : String × Node) : Archive :=
  match entry.2.int? "value", entry.2.type? "type" with
  | some value, some type => archive.setConstant (unit ++ "." ++ entry.1) ⟨type, value⟩
  | _, _ => archive

/-- The archive of a lowered tree. -/
def collect (tree : Node) (unit text : String) : Except Error Archive := do
  let archive ← (tree.select ["body", "item"]).foldlM addItem (Archive.ofSource unit text)
  return ((tree.table? "constants").getD .nil).nodes.foldl (addConstant unit) archive

/-! ## 3. Compiling -/

/-- The archive of a source text. -/
def compile (text unit : String) (options : ScheduleOptions) : Except Error Archive := do
  let tree ← lower text unit options
  collect tree unit text

/-- The name of the unit in a file. -/
def unitName (path : String) : Except Error String :=
  match Path.fileStem? path with
  | some name => .ok name
  | none => .error ⟨.io (.notASource path), none⟩

end Compiler

end Lode
