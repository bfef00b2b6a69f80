/-
# Reading JSON

What a text holds, read as JSON.  The result is always a value: where the text stops being JSON the
value says `cut`, and nothing follows.  So a decoder that goes through the value in order meets the
first fault first, be it in the text or in what the text says.

Numbers are integers if they are written as integers; all others, and minus zero, are `decimal`.
A text or a name with half of a surrogate pair is well formed but stands for no characters: such
texts are `unpaired`, and the value of such a member is wrapped in `unnamed`.
-/
import Lode.Text.Number

namespace Lode

/-- What reading a text as JSON finds. -/
inductive JsonReading where
  | null
  | bool (b : Bool)
  | integer (n : Int)
  /-- A number that is not written as an integer, or minus zero. -/
  | decimal
  | text (s : String)
  /-- A text with half of a surrogate pair. -/
  | unpaired
  | list (items : List JsonReading)
  | object (members : List (String × JsonReading))
  /-- The value of a member whose name has half of a surrogate pair. -/
  | unnamed (value : JsonReading)
  /-- The place where the text stops being JSON. -/
  | cut

namespace JsonReading

/-! ## 1. Texts -/

/-- The number of exactly four hexadecimal digits and what follows them. -/
def readUnit : List Char → Option (Nat × List Char)
  | a :: b :: c :: d :: rest => (readNatural? 16 [a, b, c, d]).map fun n => (n, rest)
  | _ => none

/-- The half of a surrogate pair that comes first. -/
def isLeading (u : Nat) : Bool := 0xd800 ≤ u && u < 0xdc00

/-- The half of a surrogate pair that comes second. -/
def isTrailing (u : Nat) : Bool := 0xdc00 ≤ u && u < 0xe000

/-- The character of a surrogate pair. -/
def pairChar (leading trailing : Nat) : Char :=
  Char.ofNat (0x10000 + (leading - 0xd800) * 0x400 + (trailing - 0xdc00))

/-- The character of an escape other than `\u`. -/
def simpleEscape? : Char → Option Char
  | '"' => some '"'
  | '\\' => some '\\'
  | '/' => some '/'
  | 'b' => some (Char.ofNat 8)
  | 'f' => some (Char.ofNat 12)
  | 'n' => some '\n'
  | 'r' => some '\r'
  | 't' => some '\t'
  | _ => none

/-- What an escape stands for, after its backslash; no character for half of a surrogate pair.
Nothing if it is not well formed. -/
def readEscape : List Char → Option (Option Char × List Char)
  | 'u' :: rest => do
    let (u, rest) ← readUnit rest
    if isTrailing u then return (none, rest)
    else if isLeading u then
      match rest with
      | '\\' :: 'u' :: more =>
        let (v, more) ← readUnit more
        if isTrailing v then return (some (pairChar u v), more) else return (none, rest)
      | _ => return (none, rest)
    else return (some (Char.ofNat u), rest)
  | c :: rest => (simpleEscape? c).map fun d => (some d, rest)
  | [] => none

/-- The characters of a text after its opening quote, and what follows the closing one.  The
characters are missing if the text has half of a surrogate pair. -/
def readText : Nat → List Char → Option (Option (List Char) × List Char)
  | 0, _ => none
  | _ + 1, '"' :: rest => some (some [], rest)
  | fuel + 1, '\\' :: rest => do
    let (c, rest) ← readEscape rest
    let (cs, rest) ← readText fuel rest
    return (do return (← c) :: (← cs), rest)
  | fuel + 1, c :: rest => do
    if c.toNat < 0x20 then none
    let (cs, rest) ← readText fuel rest
    return (cs.map (c :: ·), rest)
  | _ + 1, [] => none

/-! ## 2. Numbers -/

/-- At least one digit and what follows. -/
def readDigitRun (cs : List Char) : Option (List Char × List Char) :=
  let digits := cs.takeWhile Char.isDigit
  if digits.isEmpty then none else some (digits, cs.dropWhile Char.isDigit)

/-- The digits of an integer, without needless zeros in front. -/
def readWhole : List Char → Option (List Char × List Char)
  | '0' :: rest =>
    match rest with
    | c :: _ => if c.isDigit then none else some (['0'], rest)
    | [] => some (['0'], [])
  | cs => readDigitRun cs

/-- What follows a fraction, if there is one. -/
def skipFraction : List Char → Option (List Char)
  | '.' :: rest => (readDigitRun rest).map (·.2)
  | cs => some cs

/-- What follows an exponent, if there is one. -/
def skipExponent : List Char → Option (List Char)
  | c :: rest =>
    if c == 'e' || c == 'E' then
      let digits := match rest with
        | '+' :: more | '-' :: more => more
        | _ => rest
      (readDigitRun digits).map (·.2)
    else some (c :: rest)
  | [] => some []

/-- The value of a number with the given sign. -/
def numberValue (negative : Bool) (digits : List Char) : JsonReading :=
  let n := (readDigits? 10 digits 0).getD 0
  if negative then if n = 0 then decimal else integer (-(n : Int)) else integer n

/-- A number after its sign. -/
def readMagnitude (negative : Bool) (cs : List Char) : Option (JsonReading × List Char) := do
  let (digits, rest) ← readWhole cs
  let after ← skipFraction rest
  let after ← skipExponent after
  if after.length = rest.length then return (numberValue negative digits, rest)
  else return (decimal, after)

/-- A number and what follows. -/
def readNumber : List Char → Option (JsonReading × List Char)
  | '-' :: rest => readMagnitude true rest
  | cs => readMagnitude false cs

/-! ## 3. Values -/

/-- Whether a character may stand between the parts of a document. -/
def isBlank (c : Char) : Bool := c == ' ' || c == '\n' || c == '\t' || c == '\r'

/-- A text without the blanks in front. -/
def skipBlanks (cs : List Char) : List Char := cs.dropWhile isBlank

/-- A text or a number and what follows; the rest is missing where the text is cut. -/
def readScalar : List Char → JsonReading × Option (List Char)
  | '"' :: rest =>
    match readText (rest.length + 1) rest with
    | some (some cs, rest) => (text (String.ofList cs), some rest)
    | some (none, rest) => (unpaired, some rest)
    | none => (cut, none)
  | 'n' :: 'u' :: 'l' :: 'l' :: rest => (null, some rest)
  | 't' :: 'r' :: 'u' :: 'e' :: rest => (bool true, some rest)
  | 'f' :: 'a' :: 'l' :: 's' :: 'e' :: rest => (bool false, some rest)
  | cs =>
    match readNumber cs with
    | some (n, rest) => (n, some rest)
    | none => (cut, none)

/-- The name of a member and what follows its colon.  The name is missing if it has half of a
surrogate pair. -/
def readName : List Char → Option (Option String × List Char)
  | '"' :: rest => do
    let (cs, rest) ← readText (rest.length + 1) rest
    match skipBlanks rest with
    | ':' :: rest => return (cs.map String.ofList, rest)
    | _ => none
  | _ => none

/-- A member of an object. -/
def member (name : Option String) (value : JsonReading) : String × JsonReading :=
  match name with
  | some name => (name, value)
  | none => ("", unnamed value)

mutual

/-- A value and what follows; the rest is missing where the text is cut.  Every call consumes a
character or follows one that did, so twice the length of the text is budget enough. -/
def readValue : Nat → List Char → JsonReading × Option (List Char)
  | 0, _ => (cut, none)
  | fuel + 1, cs =>
    match skipBlanks cs with
    | '[' :: rest =>
      match skipBlanks rest with
      | ']' :: rest => (list [], some rest)
      | rest =>
        let (items, rest) := readItems fuel rest
        (list items, rest)
    | '\x7b' :: rest =>
      match skipBlanks rest with
      | '\x7d' :: rest => (object [], some rest)
      | rest =>
        let (members, rest) := readMembers fuel rest
        (object members, rest)
    | rest => readScalar rest

/-- The items of a list after its opening bracket. -/
def readItems : Nat → List Char → List JsonReading × Option (List Char)
  | 0, _ => ([cut], none)
  | fuel + 1, cs =>
    match readValue fuel cs with
    | (v, none) => ([v], none)
    | (v, some rest) =>
      match skipBlanks rest with
      | ',' :: rest =>
        let (items, rest) := readItems fuel rest
        (v :: items, rest)
      | ']' :: rest => ([v], some rest)
      | _ => ([v, cut], none)

/-- The members of an object after its opening brace. -/
def readMembers : Nat → List Char → List (String × JsonReading) × Option (List Char)
  | 0, _ => ([("", cut)], none)
  | fuel + 1, cs =>
    match readName (skipBlanks cs) with
    | none => ([("", cut)], none)
    | some (name, rest) =>
      match readValue fuel rest with
      | (v, none) => ([member name v], none)
      | (v, some rest) =>
        match skipBlanks rest with
        | ',' :: rest =>
          let (members, rest) := readMembers fuel rest
          (member name v :: members, rest)
        | '\x7d' :: rest => ([member name v], some rest)
        | _ => ([member name v, ("", cut)], none)

end

/-- What a whole text holds, and whether nothing but blanks follows. -/
def ofText (text : String) : JsonReading × Bool :=
  let cs := text.toList
  match readValue (2 * cs.length + 2) cs with
  | (value, some rest) => (value, (skipBlanks rest).isEmpty)
  | (value, none) => (value, false)

/-! ## 4. Well-formedness -/

mutual

/-- Whether a value has no cut. -/
def isWhole : JsonReading → Bool
  | cut => false
  | list items => areWhole items
  | object members => membersWhole members
  | unnamed value => isWhole value
  | _ => true

/-- Whether the items of a list have no cut. -/
def areWhole : List JsonReading → Bool
  | [] => true
  | v :: vs => isWhole v && areWhole vs

/-- Whether the members of an object have no cut. -/
def membersWhole : List (String × JsonReading) → Bool
  | [] => true
  | (_, v) :: rest => isWhole v && membersWhole rest

end

end JsonReading

end Lode
