/-
# Running commands

What a command does to files, what it prints, and how it ends.  Commands work on any `Disk`.

A command that fails ends with status one, and settings or words that cannot be read with status
two.  Compiling goes on after a failure; the failures are reported when all sources were tried, the
first one last.
-/
import Lode.Archive.Reader
import Lode.Archive.Writer
import Lode.CommandLine.Arguments
import Lode.CommandLine.Disk
import Lode.CommandLine.Report
import Lode.Config

namespace Lode.CommandLine

/-- How a run ends: its status, what it printed, and the errors it reported, in order. -/
structure Outcome where
  status : Nat
  output : String
  errors : List Error
deriving DecidableEq, Repr

namespace Outcome

/-- A run that printed a text. -/
def printed (output : String) : Outcome := ⟨0, output, []⟩

/-- A run that failed.  Data that cuts a character ends the run without a report. -/
def failed (e : Error) : Outcome :=
  if e.cause = .io (.archive .cutCharacter) then ⟨101, "", []⟩ else ⟨1, "", [e]⟩

/-- A run whose settings could not be read. -/
def misconfigured (e : Error) : Outcome := ⟨2, "", [e]⟩

end Outcome

/-- The name and the number of this program. -/
def versionText : String := "lodestar 0.1.0\n"

/-- How the program is called. -/
def usageText : String :=
  "usage: lodestar [--config FILE] [--log-level LEVEL] COMMAND\n" ++
  "  compile PATH [-o DIR] [--shuffle [--seed N]]\n" ++
  "  ast FILE [--simplify]\n" ++
  "  trace FILE [--shuffle [--seed N]]\n" ++
  "  passes [--shuffle [--seed N]]\n" ++
  "  dump ARCHIVE\n" ++
  "  link ARCHIVE... -o FILE [--entry NAME] [--origin ADDRESS] [--header] [--map]\n"

/-! ## 1. Files -/

variable {m : Type → Type} [Monad m]

/-- The text of a file. -/
def readText (disk : Disk m) (path : String) : ExceptT Error m String := do
  let some bytes ← disk.read path | throw ⟨.io (.unreadable path), none⟩
  match decodeUtf8 bytes with
  | .ok text => return text
  | .error _ => throw ⟨.io (.unreadable path), none⟩

/-- The archive in a file. -/
def readArchive (disk : Disk m) (path : String) : ExceptT Error m Archive := do
  let text ← readText disk path
  Archive.read text

/-- Writes bytes to a file. -/
def writeFile (disk : Disk m) (path : String) (bytes : List UInt8) : ExceptT Error m Unit := do
  unless ← disk.write path bytes do throw ⟨.io (.unwritable path), none⟩

/-- The extension of source files. -/
def sourceExtension : String := "lode"

/-- The sources that a path means: a file itself, or the sources below a directory, in order. -/
def findSources (disk : Disk m) (path : String) : ExceptT Error m (List String) := do
  if ← disk.isFile path then return [path]
  let some files ← disk.filesBelow path | throw ⟨.io (.unreadable path), none⟩
  let sources := files.filter fun file =>
    (file.getLast?.bind Path.extension?) == some sourceExtension
  return (sources.mergeSort Path.partsLE).map fun file => Path.join path (Path.ofParts file)

/-! ## 2. Commands -/

/-- The options of the schedule, with the flags over the settings. -/
def ScheduleFlags.over (flags : ScheduleFlags) (options : ScheduleOptions) : ScheduleOptions :=
  ⟨options.deterministic && !flags.shuffle, flags.seed.orElse fun _ => options.seed⟩

/-- The file for the archive of a source. -/
def archivePath (source unit : String) (outDir : Option String) : String :=
  Path.join (outDir.getD (Path.parent source)) (unit ++ ".json")

/-- Compiles a source to its archive; the path of the archive. -/
def compileSource (disk : Disk m) (options : ScheduleOptions) (outDir : Option String)
    (source : String) : ExceptT Error m String := do
  let text ← readText disk source
  let unit ← Compiler.unitName source
  let archive ← Compiler.compile text unit options
  let target := archivePath source unit outDir
  let written ← archive.write
  writeFile disk target (encodeUtf8 written)
  return target

/-- Compiles sources one after the other: what is printed, and the failures. -/
def compileSources (disk : Disk m) (options : ScheduleOptions) (outDir : Option String) :
    List String → m (String × List Error)
  | [] => return ("", [])
  | source :: rest => do
    let result ← (compileSource disk options outDir source).run
    let (output, errors) ← compileSources disk options outDir rest
    match result with
    | .ok target => return (s!"{source} -> {target}\n" ++ output, errors)
    | .error e => return (output, e :: errors)

/-- Compiles all sources that a path means. -/
def compilePath (disk : Disk m) (options : ScheduleOptions) (path : String)
    (outDir : Option String) : ExceptT Error m Outcome := do
  let sources ← findSources disk path
  if sources.isEmpty then throw ⟨.io (.noSources path), none⟩
  if let some directory := outDir then
    unless ← disk.makeDirectory directory do throw ⟨.io (.unwritable directory), none⟩
  match ← compileSources (m := m) disk options outDir sources with
  | (output, []) => return .printed output
  | (output, first :: later) => return ⟨1, output, later ++ [first]⟩

/-- Prints the tree of a source. -/
def printTree (disk : Disk m) (file : String) (simplify : Bool) : ExceptT Error m Outcome := do
  let text ← readText disk file
  let raw ← Language.read text
  let tree ← if simplify then liftM (Compiler.simplified raw) else pure raw
  return .printed (tree.text ++ "\n")

/-- Prints the trees after all steps. -/
def printTrace (disk : Disk m) (options : ScheduleOptions) (file : String) :
    ExceptT Error m Outcome := do
  let text ← readText disk file
  let unit ← Compiler.unitName file
  let snapshots ← Compiler.trace text unit options
  return .printed (Report.trace snapshots)

/-- Prints the passes in their order. -/
def printPasses (options : ScheduleOptions) : ExceptT Error m Outcome := do
  let passes ← schedule standardPasses options
  return .printed (Report.passes (passes.map (·.info)))

/-- Links archives and writes the image. -/
def linkArchives (disk : Disk m) (options : LinkOptions) (paths : List String) (output : String)
    (showMap : Bool) : ExceptT Error m Outcome := do
  let archives ← paths.mapM (readArchive disk)
  let image ← link archives options
  writeFile disk output (image.toBytes options.header)
  return .printed ((if showMap then image.map else "") ++
    s!"{image.bytes.length} byte(s) at ${hexNumber 4 image.origin.toNat} -> {output}\n")

/-- Runs a command under settings. -/
def runCommand (disk : Disk m) (config : Config) : Command → ExceptT Error m Outcome
  | .compile path outDir flags => compilePath disk (flags.over config.schedule) path outDir
  | .ast file simplify => printTree disk file simplify
  | .trace file flags => printTrace disk (flags.over config.schedule) file
  | .passes flags => printPasses (flags.over config.schedule)
  | .dump archive => do return .printed (Report.archive (← readArchive disk archive))
  | .link archives output entry origin header map =>
    linkArchives disk
      { config.link with
        entry := entry.orElse fun _ => config.link.entry
        origin := origin.getD config.link.origin
        header := config.link.header || header }
      archives output map

/-! ## 3. Runs -/

/-- The settings of a run. -/
def loadConfig (disk : Disk m) : Option String → ExceptT Error m Config
  | none => return {}
  | some path => do
    let text ← (readText disk path).adapt fun _ => ⟨.config, none⟩
    Config.read text

/-- Does what the words of a command line ask for. -/
def run (disk : Disk m) (words : List String) : m Outcome := do
  match readArguments words with
  | .error .usage => return ⟨2, "", []⟩
  | .error .version => return .printed versionText
  | .error .help => return .printed usageText
  | .ok invocation =>
    match ← (loadConfig disk invocation.config).run with
    | .error e => return .misconfigured e
    | .ok config =>
      match ← (runCommand disk config invocation.command).run with
      | .ok outcome => return outcome
      | .error e => return .failed e

end Lode.CommandLine
