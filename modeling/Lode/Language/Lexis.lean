/-
# The words of the language

The language is read in three modes: the default one, the inside of strings, and the inside of block
comments.  Blanks and line comments travel on one hidden channel, block comments on another.
Characters that begin no token become tokens of the kind `invalid`, so that reading never stops.
-/
import Lode.Lexer

namespace Lode.Language

/-- The mode of ordinary text. -/
def defaultMode : String := "default"

/-- The mode of the inside of strings. -/
def stringMode : String := "string"

/-- The mode of the inside of block comments. -/
def commentMode : String := "comment"

/-- The channel of block comments. -/
def commentChannel : String := "comment"

/-- The channel of blanks and line comments. -/
def blankChannel : String := "whitespace"

/-- The reserved words. -/
def keywords : List String :=
  ["use", "constant", "let", "mut", "stash", "fun", "endfun", "return"]

/-- The names of the primitive types. -/
def typeNames : List String :=
  ["u8", "u16", "u24", "u32", "i8", "i16", "i24", "i32", "void"]

/-- Operators and delimiters, longer ones before their beginnings. -/
def punctuation : List String :=
  ["->", ":", "=", "(", ")", ",", ".", "+", "-", "*", "@", "&", "\""]

/-- Decimal digits. -/
def digit : ClassItem := .range '0' '9'

/-- Hexadecimal digits. -/
def hexDigits : CharClass := ⟨false, [digit, .range 'A' 'F', .range 'a' 'f']⟩

/-- What a name begins with. -/
def nameStart : CharClass := ⟨false, [.range 'A' 'Z', .range 'a' 'z', .range '_' '_']⟩

/-- What a name goes on with. -/
def nameRest : CharClass := ⟨false, [.range 'A' 'Z', .range 'a' 'z', digit, .range '_' '_']⟩

/-- A name. -/
def nameRegex : Regex := .seq (.one nameStart) (.many (.one nameRest))

/-- A number in one of its four forms. -/
def numberRegex : Regex :=
  .alts [.seq (.literal "0x") (.atLeastOne (.one hexDigits)),
    .seq (.literal "0b") (.atLeastOne (.one (.oneOf ['0', '1']))),
    .seq (.char '$') (.atLeastOne (.one hexDigits)),
    .atLeastOne (.one ⟨false, [digit]⟩)]

/-- A reserved word, which ends where a word ends. -/
def wordRegex (word : String) : Regex := .seq (.literal word) .boundary

/-- An escape inside a string. -/
def escapeRegex : Regex :=
  .seq (.char '\\') (.alt (.one (.oneOf ['n', 't', '\\', '"']))
    (.seqs [.char 'x', .one hexDigits, .one hexDigits]))

/-- The rules of ordinary text. -/
def defaultRules : List LexRule :=
  [⟨.atLeastOne (.one ⟨false, [.space]⟩), "WS", .hidden blankChannel⟩,
    ⟨.seq (.literal "//") (.many (.one (.noneOf ['\n']))), "LINE_COMMENT", .hidden blankChannel⟩,
    ⟨.literal "/*", "/*", .hidden commentChannel⟩] ++
  (keywords ++ typeNames).map (fun word => ⟨wordRegex word, word, .default⟩) ++
  [⟨nameRegex, "IDENT", .default⟩, ⟨numberRegex, "NUMBER", .default⟩] ++
  punctuation.map (fun text => ⟨.literal text, text, .default⟩) ++
  [⟨.one (.noneOf ['\n']), "invalid", .default⟩]

/-- The rules of the inside of strings. -/
def stringRules : List LexRule :=
  [⟨escapeRegex, "ESCAPE", .default⟩,
    ⟨.atLeastOne (.one (.noneOf ['"', '\\', '\n'])), "STRING_TEXT", .default⟩,
    ⟨.char '"', "\"", .default⟩,
    ⟨.one .any, "invalid", .default⟩]

/-- The rules of the inside of block comments. -/
def commentRules : List LexRule :=
  [⟨.literal "/*", "/*", .hidden commentChannel⟩,
    ⟨.literal "*/", "*/", .hidden commentChannel⟩,
    ⟨.atLeastOne (.one (.noneOf ['*', '/'])), "COMMENT_TEXT", .hidden commentChannel⟩,
    ⟨.one (.oneOf ['*', '/']), "COMMENT_TEXT", .hidden commentChannel⟩]

/-- The lexer of the language. -/
def lexer : Lexer :=
  .ofRules (defaultRules.map (defaultMode, ·) ++ stringRules.map (stringMode, ·) ++
    commentRules.map (commentMode, ·))

end Lode.Language
