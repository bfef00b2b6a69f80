/-
# Reports

The texts that commands print: lists of passes, the contents of archives, and the trees after every
step of the compiler, each as the difference to the one before.
-/
import Lode.Compiler
import Lode.Diff
import Lode.Tree.Printer

namespace Lode.CommandLine.Report

/-- A text with spaces behind it up to a width. -/
def padRight (width : Nat) (text : String) : String :=
  text ++ String.ofList (List.replicate (width - text.length) ' ')

/-- A text with spaces in front of it up to a width. -/
def padLeft (width : Nat) (text : String) : String :=
  String.ofList (List.replicate (width - text.length) ' ') ++ text

/-- Names between brackets. -/
def names (ns : List String) : String := "[" ++ ", ".intercalate ns ++ "]"

/-- A pass with its number. -/
def passLine (number : Nat) (info : PassInfo) : String :=
  padLeft 2 (toString number) ++ ". " ++ padRight 20 info.name ++ " introduces " ++
    names info.introduces ++ "  uses " ++ names info.uses ++ "  deletes " ++ names info.deletes ++
    "\n"

/-- A list of passes. -/
def passes (infos : List PassInfo) : String :=
  String.join (infos.zipIdx.map fun (info, i) => passLine (i + 1) info)

/-- A symbol of an archive. -/
def symbol (name : String) (s : ObjectSymbol) : String :=
  s!"{name}  [{s.place.name}] {s.data.length} byte(s) : {s.type.text}\n" ++
    (if s.data.isEmpty then "" else "    " ++ " ".intercalate (s.data.map hexByte) ++ "\n") ++
    String.join (s.relocations.map fun r => "    reloc " ++ r.text ++ "\n")

/-- A constant of an archive. -/
def constant (name : String) (c : ObjectConstant) : String :=
  s!"constant {name} = {c.value} : {c.type.text}\n"

/-- The contents of an archive. -/
def archive (a : Archive) : String :=
  s!"unit {a.unit}\nsource sha256 {a.digest}\n" ++
    String.join (a.symbols.map fun (name, s) => symbol name s) ++
    String.join (a.constants.map fun (name, c) => constant name c)

/-- A tree, given the text of the one before it. -/
def step (previous : Option String) (current : String) : String :=
  match previous with
  | none => current ++ "\n"
  | some previous =>
    if previous == current then "(unchanged)\n"
    else String.join ((Diff.ofTexts previous current).map Diff.Run.text)

/-- The trees after the steps from a number on. -/
def traceFrom (number : Nat) (previous : Option String) : List Compiler.Snapshot → String
  | [] => ""
  | s :: rest =>
    let current := s.tree.text
    s!"--- step {number}: {s.step} ---\n" ++ step previous current ++ "\n" ++
      traceFrom (number + 1) (some current) rest

/-- The trees after all steps. -/
def trace (snapshots : List Compiler.Snapshot) : String := traceFrom 0 none snapshots

end Lode.CommandLine.Report
