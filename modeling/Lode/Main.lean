/-
# The program

The command line on the files of the machine.
-/
import Lode.CommandLine.Run

namespace Lode.CommandLine

/-- The files at any depth below a directory, each by its parts from there. -/
partial def machineFiles (root path : String) : IO (List (List String)) := do
  let here := (← IO.currentDir) / root / path
  let entries ← here.readDir
  let nested ← entries.toList.mapM fun entry => do
    if ← entry.path.isDir then
      let inner ← machineFiles root (Path.join path entry.fileName)
      return inner.map (entry.fileName :: ·)
    else return [[entry.fileName]]
  return nested.flatten

/-- The result of an action, nothing if it fails. -/
def attempt {α : Type} (action : IO α) : IO (Option α) := do
  try return some (← action) catch _ => return none

/-- The operations on the files of the machine. -/
def machineDisk : Disk IO where
  isFile path := do
    let here := (← IO.currentDir) / path
    return (← here.pathExists) && !(← here.isDir)
  filesBelow path := attempt (machineFiles path "")
  read path := attempt do return (← IO.FS.readBinFile path).toList
  write path bytes := do
    return (← attempt (IO.FS.writeBinFile path (ByteArray.mk bytes.toArray))).isSome
  makeDirectory path := do return (← attempt (IO.FS.createDirAll path)).isSome

end Lode.CommandLine

open Lode.CommandLine in
/-- Runs the command line, prints its output, and reports its errors. -/
def main (words : List String) : IO UInt32 := do
  let outcome ← run machineDisk words
  IO.print outcome.output
  for e in outcome.errors do
    IO.eprintln (e.code ++ ": " ++ e.message)
    if let some help := e.help then IO.eprintln ("  help: " ++ help)
  if outcome.status = 2 && outcome.errors.isEmpty then IO.eprint usageText
  return outcome.status.toUInt32
