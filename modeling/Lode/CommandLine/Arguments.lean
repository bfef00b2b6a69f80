/-
# Arguments

The words of a command line.  Options begin with two dashes, a few have a short form with one dash;
the value of an option is the next word, or follows an equals sign.  After two dashes alone every
word is an operand.  Options may stand before and after operands, but none may be given twice.

`config` and `log-level` may stand before the name of the command and after it; the later place
wins.
-/
import Lode.Text.Number

namespace Lode.CommandLine

/-! ## 1. Commands -/

/-- How the order of passes is asked for. -/
structure ScheduleFlags where
  shuffle : Bool := false
  seed : Option UInt64 := none
deriving DecidableEq, Repr

/-- What is to be done. -/
inductive Command where
  /-- Compile a file, or all sources below a directory. -/
  | compile (path : String) (outDir : Option String) (schedule : ScheduleFlags)
  /-- Print the tree of a source. -/
  | ast (file : String) (simplify : Bool)
  /-- Print the tree of a source after every step. -/
  | trace (file : String) (schedule : ScheduleFlags)
  /-- List the passes in their order. -/
  | passes (schedule : ScheduleFlags)
  /-- Print an archive. -/
  | dump (archive : String)
  /-- Link archives to an image. -/
  | link (archives : List String) (output : String) (entry : Option String)
      (origin : Option UInt16) (header map : Bool)
deriving DecidableEq, Repr

/-- A command with the file of its settings. -/
structure Invocation where
  config : Option String
  command : Command
deriving DecidableEq, Repr

/-- Why there is nothing to be done. -/
inductive Stop where
  /-- The words are no command. -/
  | usage
  /-- The version is asked for. -/
  | version
  /-- Help is asked for. -/
  | help
deriving DecidableEq, Repr

/-! ## 2. Options -/

/-- An option that may be given. -/
structure OptionSpec where
  name : String
  short : Option Char := none
  takesValue : Bool := false
  /-- Which values are allowed. -/
  allows : String → Bool := fun _ => true
  /-- What the option asks for instead of a command. -/
  stops : Option Stop := none

/-- What was given. -/
structure Given where
  flags : List String := []
  values : List (String × String) := []
  operands : List String := []
deriving DecidableEq, Repr

namespace Given

/-- Whether a flag was given. -/
def has (g : Given) (name : String) : Bool := g.flags.contains name

/-- The value of an option. -/
def value? (g : Given) (name : String) : Option String := g.values.lookup name

/-- Adds a flag. -/
def addFlag (g : Given) (spec : OptionSpec) : Except Stop Given :=
  match spec.stops with
  | some stop => .error stop
  | none =>
    if g.has spec.name then .error .usage else .ok { g with flags := spec.name :: g.flags }

/-- Adds the value of an option. -/
def addValue (g : Given) (spec : OptionSpec) (value : String) : Except Stop Given :=
  if (g.value? spec.name).isSome || !spec.allows value then .error .usage
  else .ok { g with values := (spec.name, value) :: g.values }

/-- Adds an operand; all operands are paths. -/
def addOperand (g : Given) (operand : String) : Except Stop Given :=
  if operand.isEmpty then .error .usage else .ok { g with operands := g.operands ++ [operand] }

end Given

/-! ## 3. Words -/

/-- What a word is by its form. -/
inductive Word where
  /-- Two dashes alone. -/
  | divider
  | long (name : String) (value : Option String)
  | short (letter : Char) (rest : List Char)
  | operand (text : String)
deriving DecidableEq, Repr

/-- The form of a word. -/
def Word.ofText (text : String) : Word :=
  match text.toList with
  | ['-', '-'] => divider
  | '-' :: '-' :: rest =>
    let name := rest.takeWhile (· != '=')
    let value := if name.length < rest.length then some (rest.drop (name.length + 1)) else none
    long (String.ofList name) (value.map String.ofList)
  | '-' :: c :: rest => short c rest
  | _ => operand text

/-- The place in a row of words. -/
structure Scan where
  given : Given := {}
  /-- The option whose value comes next. -/
  pending : Option OptionSpec := none
  /-- Two dashes were seen. -/
  divided : Bool := false

namespace Scan

/-- Takes an option, perhaps with its value. -/
def takeOption (s : Scan) (spec : OptionSpec) (value : Option String) : Except Stop Scan := do
  if spec.takesValue then
    match value with
    | some value => return { s with given := ← s.given.addValue spec value }
    | none => return { s with pending := some spec }
  else
    match value with
    | some _ => throw .usage
    | none => return { s with given := ← s.given.addFlag spec }

/-- The value inside the word of a short option. -/
def shortValue : List Char → Option String
  | [] => none
  | '=' :: rest => some (String.ofList rest)
  | rest => some (String.ofList rest)

/-- Takes a word that is not an operand. -/
def takeMarked (specs : List OptionSpec) (s : Scan) : Word → Except Stop Scan
  | .divider => .ok { s with divided := true }
  | .long name value =>
    match s.pending, specs.find? (·.name == name) with
    | none, some spec => s.takeOption spec value
    | _, _ => .error .usage
  | .short letter rest =>
    match s.pending, specs.find? (·.short == some letter) with
    | none, some spec =>
      if spec.takesValue then s.takeOption spec (shortValue rest) else s.takeOption spec none
    | _, _ => .error .usage
  | .operand _ => .ok s

/-- Ends a row of words. -/
def finish (s : Scan) : Except Stop Given :=
  if s.pending.isSome then .error .usage else .ok s.given

end Scan

/-- Takes the options in front of the first operand.  The operand and all words after it are left
over. -/
def scanFront (specs : List OptionSpec) : List String → Scan → Except Stop (Given × List String)
  | [], s => do return (← s.finish, [])
  | text :: rest, s => do
    match (if s.divided then .operand text else Word.ofText text), s.pending with
    | .operand value, some spec =>
      scanFront specs rest { s with given := ← s.given.addValue spec value, pending := none }
    | .operand name, none => if s.divided then throw .usage else return (s.given, name :: rest)
    | word, _ => scanFront specs rest (← s.takeMarked specs word)

/-- Takes options and operands, of which there may be at most `limit`. -/
def scanAll (specs : List OptionSpec) (limit : Option Nat) : List String → Scan → Except Stop Given
  | [], s => s.finish
  | text :: rest, s => do
    match (if s.divided then .operand text else Word.ofText text), s.pending with
    | .operand value, some spec =>
      scanAll specs limit rest { s with given := ← s.given.addValue spec value, pending := none }
    | .operand value, none =>
      if limit.any (· ≤ s.given.operands.length) then throw .usage
      scanAll specs limit rest { s with given := ← s.given.addOperand value }
    | word, _ => scanAll specs limit rest (← s.takeMarked specs word)

/-! ## 4. The options of commands -/

/-- An address: decimal, or hexadecimal after `0x` or `$`. -/
def readAddress? (text : String) : Option UInt16 :=
  let n := match text.toList with
    | '0' :: 'x' :: digits => readUnsigned? 16 0x10000 digits
    | '$' :: digits => readUnsigned? 16 0x10000 digits
    | digits => readUnsigned? 10 0x10000 digits
  n.map UInt16.ofNat

/-- A seed. -/
def readSeed? (text : String) : Option UInt64 :=
  (readUnsigned? 10 0x10000000000000000 text.toList).map UInt64.ofNat

/-- A value that is a path. -/
def allowsPath (value : String) : Bool := !value.isEmpty

/-- The options of every command. -/
def sharedOptions : List OptionSpec :=
  [{ name := "config", takesValue := true, allows := allowsPath },
    { name := "log-level", takesValue := true,
      allows := ["error", "warn", "info", "debug", "trace"].contains },
    { name := "help", short := some 'h', stops := some .help }]

/-- The options in front of a command. -/
def frontOptions : List OptionSpec :=
  { name := "version", short := some 'V', stops := some .version } :: sharedOptions

/-- The options for the order of passes. -/
def scheduleOptions : List OptionSpec :=
  [{ name := "shuffle" },
    { name := "seed", takesValue := true, allows := fun s => (readSeed? s).isSome }]

/-- What a command takes: its own options, how many operands, and the command they make. -/
structure CommandSpec where
  name : String
  options : List OptionSpec
  limit : Option Nat
  build : Given → Option Command

/-- The flags for the order of passes; a seed is nothing without shuffling. -/
def scheduleFlags? (g : Given) : Option ScheduleFlags :=
  let seed := (g.value? "seed").bind readSeed?
  if seed.isSome && !g.has "shuffle" then none else some ⟨g.has "shuffle", seed⟩

/-- All commands. -/
def commandSpecs : List CommandSpec :=
  [{ name := "compile", limit := some 1
     options := { name := "out-dir", short := some 'o', takesValue := true,
                  allows := allowsPath } :: scheduleOptions
     build := fun g => do
       return .compile (← g.operands.head?) (g.value? "out-dir") (← scheduleFlags? g) },
    { name := "ast", limit := some 1, options := [{ name := "simplify" }]
      build := fun g => do return .ast (← g.operands.head?) (g.has "simplify") },
    { name := "trace", limit := some 1, options := scheduleOptions
      build := fun g => do return .trace (← g.operands.head?) (← scheduleFlags? g) },
    { name := "passes", limit := some 0, options := scheduleOptions
      build := fun g => do return .passes (← scheduleFlags? g) },
    { name := "dump", limit := some 1, options := []
      build := fun g => do return .dump (← g.operands.head?) },
    { name := "link", limit := none
      options :=
        [{ name := "output", short := some 'o', takesValue := true, allows := allowsPath },
          { name := "entry", takesValue := true },
          { name := "origin", takesValue := true, allows := fun s => (readAddress? s).isSome },
          { name := "header" }, { name := "map" }]
      build := fun g => do
        if g.operands.isEmpty then none
        return .link g.operands (← g.value? "output") (g.value? "entry")
          ((g.value? "origin").bind readAddress?) (g.has "header") (g.has "map") }]

/-! ## 5. Invocations -/

/-- The command of a name with its words. -/
def readCommand (front : Given) (name : String) (words : List String) : Except Stop Invocation :=
  match commandSpecs.find? (·.name == name) with
  | none => .error .usage
  | some spec => do
    let g ← scanAll (spec.options ++ sharedOptions) spec.limit words {}
    match spec.build g with
    | some command => return ⟨(g.value? "config").orElse fun _ => front.value? "config", command⟩
    | none => throw .usage

/-- Whether words after `help` name a command. -/
def isHelpTopic : List String → Bool
  | [] => true
  | [name] => name == "help" || commandSpecs.any (·.name == name)
  | _ => false

/-- What the words of a command line ask for. -/
def readArguments (words : List String) : Except Stop Invocation := do
  match ← scanFront frontOptions words {} with
  | (_, []) => throw .usage
  | (_, "help" :: topic) => throw (if isHelpTopic topic then .help else .usage)
  | (front, name :: rest) => readCommand front name rest

end Lode.CommandLine
