/-
# Reading settings documents

The tokens of a text are read as one document.  In flow form an entry of a mapping may leave out its
value, and an item of a sequence may be a single entry of a mapping.  In block form a sequence may
stand under its key without further indentation.  After the document nothing may follow but marks of
its end.

Every function takes a budget that the number of tokens covers.  `none` means that the text is not
of this form.
-/
import Lode.Yaml.Token

namespace Lode.Yaml

/-- A value that is left out. -/
def missing : Yaml := plain ""

/-- The tokens after the comma that stands in front of all parts of a flow collection but the
first. -/
def afterComma (first : Bool) (ts : List Token) : Option (List Token) :=
  match first, ts with
  | true, ts => some ts
  | false, .comma :: ts => some ts
  | false, _ => none

mutual

/-- A value and the tokens after it.  If it is `flush`, it may be a sequence that has no beginning
of its own. -/
def readNode (flush : Bool) : Nat → List Token → Option (Yaml × List Token)
  | 0, _ => none
  | fuel + 1, ts =>
    match ts with
    | .plain s :: ts => some (plain s, ts)
    | .quoted s :: ts => some (quoted s, ts)
    | .flowSequence :: ts =>
      (readFlowItems true fuel ts).map fun (vs, ts) => (sequence vs, ts)
    | .flowMapping :: ts =>
      (readFlowEntries true fuel ts).map fun (es, ts) => (mapping es, ts)
    | .blockSequence :: ts => (readItems fuel ts).map fun (vs, ts) => (sequence vs, ts)
    | .blockMapping :: ts => (readEntries fuel ts).map fun (es, ts) => (mapping es, ts)
    | .item :: _ =>
      if flush then (readFlushItems fuel ts).map fun (vs, ts) => (sequence vs, ts) else none
    | _ => none

/-- A value, which is left out in front of one of the tokens `stops`. -/
def readValue (flush : Bool) (stops : List Token) : Nat → List Token → Option (Yaml × List Token)
  | 0, _ => none
  | fuel + 1, ts =>
    if ts.head?.any stops.contains then some (missing, ts) else readNode flush fuel ts

/-- A value after its colon; without a colon it is left out. -/
def readColonValue (flush : Bool) (stops : List Token) :
    Nat → List Token → Option (Yaml × List Token)
  | 0, _ => none
  | fuel + 1, ts =>
    match ts with
    | .value :: ts => readValue flush stops fuel ts
    | _ => some (missing, ts)

/-- The items of a block sequence. -/
def readItems : Nat → List Token → Option (List Yaml × List Token)
  | 0, _ => none
  | fuel + 1, ts =>
    match ts with
    | .item :: ts => do
      let (v, ts) ← readValue false [.item, .blockEnd] fuel ts
      let (vs, ts) ← readItems fuel ts
      return (v :: vs, ts)
    | .blockEnd :: ts => some ([], ts)
    | _ => none

/-- The items of a block sequence that stands under its key without further indentation. -/
def readFlushItems : Nat → List Token → Option (List Yaml × List Token)
  | 0, _ => none
  | fuel + 1, ts =>
    match ts with
    | .item :: ts => do
      let (v, ts) ← readValue false [.item, .key, .value, .blockEnd] fuel ts
      let (vs, ts) ← readFlushItems fuel ts
      return (v :: vs, ts)
    | _ => some ([], ts)

/-- The entries of a block mapping. -/
def readEntries : Nat → List Token → Option (List (Yaml × Yaml) × List Token)
  | 0, _ => none
  | fuel + 1, ts =>
    match ts with
    | .key :: ts => do
      let (k, ts) ← readValue true [.key, .value, .blockEnd] fuel ts
      let (v, ts) ← readColonValue true [.key, .value, .blockEnd] fuel ts
      let (es, ts) ← readEntries fuel ts
      return ((k, v) :: es, ts)
    | .blockEnd :: ts => some ([], ts)
    | _ => none

/-- The items of a flow sequence.  A key that is left out takes the token after it along. -/
def readFlowItems (first : Bool) : Nat → List Token → Option (List Yaml × List Token)
  | 0, _ => none
  | fuel + 1, ts =>
    match ts with
    | .flowSequenceEnd :: ts => some ([], ts)
    | _ => do
      let ts ← afterComma first ts
      match ts with
      | .flowSequenceEnd :: ts => some ([], ts)
      | .key :: ts => do
        let (k, ts) ←
          if ts.head?.any [Token.value, .comma, .flowSequenceEnd].contains then
            some (missing, ts.drop 1)
          else readNode false fuel ts
        let (v, ts) ← readColonValue false [.comma, .flowSequenceEnd] fuel ts
        let (vs, ts) ← readFlowItems false fuel ts
        return (mapping [(k, v)] :: vs, ts)
      | ts => do
        let (v, ts) ← readNode false fuel ts
        let (vs, ts) ← readFlowItems false fuel ts
        return (v :: vs, ts)

/-- The entries of a flow mapping. -/
def readFlowEntries (first : Bool) :
    Nat → List Token → Option (List (Yaml × Yaml) × List Token)
  | 0, _ => none
  | fuel + 1, ts =>
    match ts with
    | .flowMappingEnd :: ts => some ([], ts)
    | _ => do
      let ts ← afterComma first ts
      match ts with
      | .flowMappingEnd :: ts => some ([], ts)
      | .key :: ts => do
        let (k, ts) ← readValue false [.value, .comma, .flowMappingEnd] fuel ts
        let (v, ts) ← readColonValue false [.comma, .flowMappingEnd] fuel ts
        let (es, ts) ← readFlowEntries false fuel ts
        return ((k, v) :: es, ts)
      | ts => do
        let (k, ts) ← readNode false fuel ts
        let (es, ts) ← readFlowEntries false fuel ts
        return ((k, missing) :: es, ts)

end

/-- The document of a list of tokens; without any it is empty. -/
def ofTokens? (ts : List Token) : Option Yaml := do
  let budget := 4 * ts.length + 4
  let (v, ts) ← match ts with
    | [] => some (missing, [])
    | .documentStart :: ts =>
      if ts.head?.all [Token.documentStart, .documentEnd].contains then some (missing, ts)
      else readNode false budget ts
    | ts => readNode false budget ts
  if ts.all (· == .documentEnd) then return v else none

/-- The document of a text.  A byte order mark may stand in front of it. -/
def ofText? (text : String) : Option Yaml := do
  let cs := match text.toList with
    | '\ufeff' :: rest => rest
    | cs => cs
  if cs.all isAllowed then ofTokens? (← tokens? (unifyBreaks cs)) else none

end Lode.Yaml
