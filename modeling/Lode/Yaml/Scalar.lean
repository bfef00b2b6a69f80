/-
# Scalars

Scalars go over line breaks.  The blanks and breaks between two words are a gap: within a line it
stands for itself; a single line break becomes a space; of several line feeds the first one is
dropped.  A plain scalar ends at a comment, at a colon that ends a key, in flow form at a mark, and
in block form at a line that is not indented far enough.
-/
import Lode.Text.Number
import Lode.Yaml.Basic

namespace Lode.Yaml

/-! ## 1. Gaps -/

/-- The blanks and line breaks between two words of a scalar. -/
structure Gap where
  /-- The blanks before the first line break. -/
  blanks : List Char := []
  breaks : List Char := []
  /-- The number of blanks after the last line break. -/
  indent : Nat := 0
deriving DecidableEq, Repr

namespace Gap

/-- Whether a gap has a line break. -/
def isBroken (gap : Gap) : Bool := !gap.breaks.isEmpty

/-- What a gap stands for. -/
def text (gap : Gap) : List Char :=
  match gap.breaks with
  | [] => gap.blanks
  | ['\n'] => [' ']
  | '\n' :: more => more
  | breaks => breaks

/-- The gap at the front of a text, and what follows.  At the beginning of a line a tab may not
stand left of the margin. -/
def read (margin : Nat) : Gap → List Char → Option (Gap × List Char)
  | gap, [] => some (gap, [])
  | gap, c :: rest =>
    if isBreak c then read margin { gap with breaks := gap.breaks ++ [c], indent := 0 } rest
    else if isBlank c then
      if !gap.isBroken then read margin { gap with blanks := gap.blanks ++ [c] } rest
      else if c == '\t' && gap.indent < margin then none
      else read margin { gap with indent := gap.indent + 1 } rest
    else some (gap, c :: rest)

end Gap

/-! ## 2. Scalars between quotes -/

/-- The character of an escape without digits. -/
def simpleEscape? : Char → Option Char
  | '0' => some (Char.ofNat 0)
  | 'a' => some (Char.ofNat 7)
  | 'b' => some (Char.ofNat 8)
  | 't' | '\t' => some '\t'
  | 'n' => some '\n'
  | 'v' => some (Char.ofNat 11)
  | 'f' => some (Char.ofNat 12)
  | 'r' => some '\r'
  | 'e' => some (Char.ofNat 27)
  | ' ' => some ' '
  | '"' => some '"'
  | '/' => some '/'
  | '\\' => some '\\'
  | 'N' => some '\u0085'
  | '_' => some '\u00a0'
  | 'L' => some '\u2028'
  | 'P' => some '\u2029'
  | _ => none

/-- The number of digits of an escape with digits. -/
def escapeDigits? : Char → Option Nat
  | 'x' => some 2
  | 'u' => some 4
  | 'U' => some 8
  | _ => none

/-- The character of a code point. -/
def charOf? (n : Nat) : Option Char := if n.isValidChar then some (Char.ofNat n) else none

/-- The character of an escape after its backslash, and what follows. -/
def readEscape : List Char → Option (Char × List Char)
  | [] => none
  | c :: rest =>
    match escapeDigits? c with
    | some count => do
      let n ← readNatural? 16 (rest.take count)
      if rest.length < count then none
      return (← charOf? n, rest.drop count)
    | none => (simpleEscape? c).map fun d => (d, rest)

/-- A scalar after its opening quote, and what follows the closing one.  Between double quotes there
are escapes, one of which hides a line break; between single quotes the quote is written twice.  No
line may begin with the mark of a document. -/
def readQuoted (double : Bool) : Nat → List Char → Option (List Char × List Char)
  | 0, _ | _ + 1, [] => none
  | fuel + 1, c :: rest =>
    let goOn (text rest : List Char) :=
      (readQuoted double fuel rest).map fun (cs, rest) => (text ++ cs, rest)
    if double && c == '\\' then
      if rest.head?.any isBreak then do
        let (gap, after) ← Gap.read 0 {} (rest.drop 1)
        let indent := if gap.isBroken then gap.indent else gap.blanks.length
        if indent == 0 && isDocumentMark after then none
        goOn gap.breaks after
      else do
        let (d, after) ← readEscape rest
        goOn [d] after
    else if double && c == '"' then some ([], rest)
    else if !double && c == '\x27' then
      if rest.head? == some '\x27' then goOn ['\x27'] (rest.drop 1) else some ([], rest)
    else if isBlank c || isBreak c then do
      let (gap, after) ← Gap.read 0 {} (c :: rest)
      if gap.isBroken && gap.indent == 0 && isDocumentMark after then none
      goOn gap.text after
    else goOn [c] rest

/-! ## 3. Plain scalars -/

/-- Whether a character cannot begin a plain scalar. -/
def isIndicator (c : Char) : Bool :=
  isFlowMark c || "-?:#&*!|>\x27\"%@\x60".toList.contains c

/-- Whether a plain scalar can begin here.  A dash has to be followed by something, and so has, in
block form, a question mark or a colon. -/
def canBegin (flow : Bool) : List Char → Bool
  | [] => false
  | c :: rest =>
    if c == '-' || (!flow && (c == '?' || c == ':')) then !isGap rest
    else !(isIndicator c || isBlank c || isBreak c)

/-- The word at the front of a text, and what follows.  In flow form a colon may not stand in front
of a mark. -/
def readWord (flow : Bool) : List Char → Option (List Char × List Char)
  | [] => some ([], [])
  | c :: rest =>
    if isBlank c || isBreak c || (flow && isFlowMark c) then some ([], c :: rest)
    else if c == ':' && flow && rest.head?.any (fun d => isFlowMark d || d == '?') then none
    else if c == ':' && isGap rest then some ([], c :: rest)
    else (readWord flow rest).map fun (word, rest) => (c :: word, rest)

/-- What a plain scalar goes on with after a word, whether a line break ends it, and what
follows. -/
def readWords (flow : Bool) (margin : Nat) :
    Nat → List Char → Option (List Char × Bool × List Char)
  | 0, _ => none
  | fuel + 1, cs => do
    let (gap, rest) ← Gap.read margin {} cs
    let outside := gap.isBroken &&
      ((!flow && gap.indent < margin) || (gap.indent == 0 && isDocumentMark rest))
    if outside || rest.head? == some '#' then return ([], gap.isBroken, rest)
    let (word, after) ← readWord flow rest
    if word.isEmpty then return ([], gap.isBroken, rest)
    let (more, broken, rest) ← readWords flow margin fuel after
    return (gap.text ++ word ++ more, broken, rest)

/-- A plain scalar, whether a line break ends it, and what follows. -/
def readPlain (flow : Bool) (margin : Nat) (cs : List Char) :
    Option (List Char × Bool × List Char) := do
  let (word, rest) ← readWord flow cs
  let (more, broken, rest) ← readWords flow margin (cs.length + 1) rest
  return (word ++ more, broken, rest)

end Lode.Yaml
