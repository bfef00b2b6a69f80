/-
# Configuration

The settings of the compiler and of the linker.  Every setting has a default, so a document names
only what it changes.  Names that mean nothing are passed over, and no setting may be given twice.
-/
import Lode.Link
import Lode.Pass.Schedule
import Lode.Yaml.Document

namespace Lode

/-- The settings of the toolchain. -/
structure Config where
  schedule : ScheduleOptions := {}
  link : LinkOptions := {}
deriving DecidableEq, Repr

namespace Config

/-! ## 1. Values -/

/-- Digits after a mark for their base. -/
def basedDigits? (digits : List Char) : Option (Nat × List Char) :=
  match digits with
  | '0' :: 'x' :: rest => some (16, rest)
  | '0' :: 'o' :: rest => some (8, rest)
  | '0' :: 'b' :: rest => some (2, rest)
  | _ => none

/-- A whole number: decimal without needless zeros, or in another base after its mark. -/
def natural? (text : String) : Option Nat :=
  let digits := match text.toList with
    | '+' :: rest => rest
    | cs => cs
  match basedDigits? digits with
  | some (base, rest) => readNatural? base rest
  | none =>
    if digits.length > 1 && digits.head? == some '0' then none else readNatural? 10 digits

/-- A whole number below a bound. -/
def natural (bound : Nat) : Yaml → Option Nat
  | .plain s => (natural? s).filter (· < bound)
  | _ => none

/-- A truth value. -/
def bool : Yaml → Option Bool
  | .plain s =>
    if ["true", "True", "TRUE"].contains s then some true
    else if ["false", "False", "FALSE"].contains s then some false
    else none
  | _ => none

/-- The characters of a scalar of any kind. -/
def text : Yaml → Option String
  | .plain s | .quoted s => some s
  | _ => none

/-- Whether a value says that there is none. -/
def isNone : Yaml → Bool
  | .plain s => ["", "~", "null", "Null", "NULL"].contains s
  | _ => false

/-- A value that may be none. -/
def optional {α : Type} (read : Yaml → Option α) (v : Yaml) : Option (Option α) :=
  if isNone v then some none else (read v).map some

/-! ## 2. Groups of settings -/

/-- The settings of a group, by name; a group that is left out has none. -/
def entries : Yaml → Option (List (String × Yaml))
  | .mapping es => es.mapM fun (key, v) => (text key).map fun name => (name, v)
  | .plain "" => some []
  | _ => none

/-- Reads the settings of a group in order.  `put` is asked for the names it knows. -/
def group {α : Type} (known : List String) (put : α → String → Yaml → Option α) (start : α)
    (v : Yaml) : Option α := do
  let es ← entries v
  let named := (es.filter fun (name, _) => known.contains name)
  if (named.map (·.1)).Nodup then named.foldlM (fun a (name, v) => put a name v) start
  else none

/-- The settings of the schedule. -/
def schedule? : Yaml → Option ScheduleOptions :=
  group ["deterministic", "seed"] (fun o name v =>
    match name with
    | "deterministic" => (bool v).map fun b => { o with deterministic := b }
    | _ =>
      (optional (natural 0x10000000000000000) v).map fun n =>
        { o with seed := n.map UInt64.ofNat }) {}

/-- The settings of the compiler. -/
def compile? : Yaml → Option ScheduleOptions :=
  group ["schedule"] (fun _ _ v => schedule? v) {}

/-- The settings of the linker. -/
def link? : Yaml → Option LinkOptions :=
  group ["origin", "zp_origin", "entry", "header"] (fun o name v =>
    match name with
    | "origin" => (natural 0x10000 v).map fun n => { o with origin := UInt16.ofNat n }
    | "zp_origin" => (natural 0x100 v).map fun n => { o with zeroPageOrigin := UInt8.ofNat n }
    | "entry" => (optional text v).map fun s => { o with entry := s }
    | _ => (bool v).map fun b => { o with header := b }) {}

/-- The settings of a document. -/
def ofYaml? : Yaml → Option Config :=
  group ["compile", "link"] (fun c name v =>
    match name with
    | "compile" => (compile? v).map fun o => { c with schedule := o }
    | _ => (link? v).map fun o => { c with link := o }) {}

/-- The settings of a text. -/
def read (text : String) : Except Error Config :=
  match (Yaml.ofText? text).bind ofYaml? with
  | some config => .ok config
  | none => .error ⟨.config, none⟩

end Config

end Lode
