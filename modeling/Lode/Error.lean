/-
# Errors

Every failure of the toolchain is an `Error`: a cause and, if it has one, a place.  Causes are data:
each says which rule of the language, of the grammar formalism or of an object format was broken,
and holds the things the rule speaks of.  The words a user reads are made from the cause in one
place, at the end of this file.

Causes are sorted into fourteen kinds, and kinds into six categories.  The kind `internal` is for
states that the other parts of the toolchain never produce; it is kept apart so that its absence can
be stated.
-/
import Lode.Grammar.Rule
import Lode.Text.Hex
import Lode.Text.Quoted
import Lode.Tree.Tag
import Lode.Types.Basic

namespace Lode

/-! ## 1. Kinds and categories -/

/-- The kinds of failures. -/
inductive ErrorKind where
  | grammar | lex | unexpectedToken | unclosed | type | duplicateDefinition | unknownName | constant
  | assembly | topology | link | io | config | internal
deriving DecidableEq, Repr

/-- The areas that kinds belong to. -/
inductive ErrorCategory where
  | grammar | lexical | semantic | codegen | environment | internal
deriving DecidableEq, Repr

namespace ErrorKind

/-- The area of a kind. -/
def category : ErrorKind → ErrorCategory
  | grammar | topology => .grammar
  | lex | unexpectedToken | unclosed => .lexical
  | type | duplicateDefinition | unknownName | constant => .semantic
  | assembly | link => .codegen
  | io | config => .environment
  | internal => .internal

/-- The last part of a diagnostic's code. -/
def suffix : ErrorKind → String
  | grammar => "grammar"
  | lex => "lex"
  | unexpectedToken => "unexpected_token"
  | unclosed => "unclosed_delimiter"
  | type => "type"
  | duplicateDefinition => "duplicate_definition"
  | unknownName => "unknown_name"
  | constant => "constant"
  | assembly => "assembly"
  | topology => "topology"
  | link => "link"
  | io => "io"
  | config => "config"
  | internal => "internal"

/-- The words in front of every message of the kind. -/
def heading : ErrorKind → String
  | grammar => "grammar error: "
  | lex => "lex error: "
  | unexpectedToken | unclosed => "parse error: "
  | type => "type error: "
  | duplicateDefinition | unknownName => "name error: "
  | constant => "constant error: "
  | assembly => "assembly error: "
  | topology => "pass scheduling error: "
  | link => "link error: "
  | io => "io error: "
  | config => "config error: "
  | internal => "internal error: "

/-- The note that a diagnostic puts at the place of the failure. -/
def label : ErrorKind → String
  | lex => "not a token"
  | unexpectedToken => "unexpected here"
  | unclosed => "opened here"
  | type => "type mismatch"
  | duplicateDefinition => "redefined here"
  | unknownName => "not in scope"
  | constant => "not a constant"
  | assembly => "cannot encode"
  | _ => "here"

end ErrorKind

/-- The name of a category. -/
def ErrorCategory.name : ErrorCategory → String
  | grammar => "Grammar"
  | lexical => "Syntax"
  | semantic => "Semantic"
  | codegen => "Codegen"
  | environment => "Environment"
  | internal => "Internal"

/-! ## 2. Causes -/

/-- Two actions that claim the same lookahead. -/
inductive Clash where
  | shiftReduce (rule : Rule)
  | reduceReduce (first second : Rule)
deriving DecidableEq, Repr

/-- What can be wrong with a grammar or with the rules of a lexer. -/
inductive GrammarProblem where
  | invalidPattern (kind mode : String)
  | missingStart (start : String)
  | severalStarts (count : Nat) (start : String)
  | undefinedNonterminal (name : String)
  | modeConflict (state : Nat) (modes : List String)
  | conflict (state : Nat) (lookahead : Terminal) (clash : Clash)
deriving DecidableEq, Repr

/-- Text that is no token. -/
inductive LexProblem where
  | unrecognized (text : String)
  | numberRange (text : String)
  | invalidEscape (text : String)
deriving DecidableEq, Repr

/-- Violations of the typing rules. -/
inductive TypeProblem where
  | mismatch (expected found : Ty)
  | notAnAddress (value : Int)
  | notAReference (found : Ty)
  | arithmetic (found : Ty)
  | incompatible (left right : Ty)
  | negation (found : Ty)
  | notAFunction
  | argumentCount (function : String) (expected found : Nat)
  | immutable (name : String)
  | missingReturn (expected : Ty)
  | unexpectedReturn
  | intrinsicAsValue (member : String)
  | noMembers
  | dynamicAddress
deriving DecidableEq, Repr

/-- Expressions that have no value while compiling. -/
inductive ConstantProblem where
  | unknownOperator (op : String)
  | overflow
  | notAConstantName (name : String)
  | usedBeforeDefinition (name : String)
  | notAConstant
  | range (value : Int) (type : Ty)
  | argumentCount (found : Nat)
  | argumentNotANumber
  | wordRange (value : Int)
  | dynamicInitializer
deriving DecidableEq, Repr

/-- Trees that the machine has no instructions for. -/
inductive AssemblyProblem where
  | nestedCall
  | literalWidth (value : Int) (width : Nat)
  | storageWidth (type : Ty) (width : Nat)
  | noInstruction (op : String)
  | compoundOperand
  | notComputable (tag : Tag)
  | notAssignable
  /-- The width as trees show it. -/
  | unsupportedWidth (width : String)
  | storeIntoLiteral
  | operandRange (value : Int)
  | unresolvedOperand (tag : Tag)
deriving DecidableEq, Repr

/-- Obstacles to laying out a memory image. -/
inductive LinkProblem where
  | definedTwice (symbol firstUnit secondUnit : String)
  | initializedZeroPage (symbol : String)
  | zeroPageOverflow (symbol : String)
  | entryInZeroPage (entry : String)
  | entryUndefined (entry : String)
  | memoryOverflow (symbol : String)
  | undefinedSymbol (symbol target : String)
  | relocationOutside (offset : Nat) (symbol : String)
  | notInZeroPage (target : String)
deriving DecidableEq, Repr

/-- Why a list of bytes is no UTF-8 text: the index of the first byte that fits nowhere, and the
number of bytes of the broken character, none if the text just stops inside one. -/
structure EncodingFault where
  index : Nat
  broken : Option Nat
deriving DecidableEq, Repr

/-- What can be wrong with the binary form of a type. -/
inductive DescriptorProblem where
  | truncated
  | trailing (count : Nat)
  | integerWidth (width : Nat)
  | truncatedName
  | nameEncoding (fault : EncodingFault)
  | unknownTag (byte : UInt8)
  | oddLength
  | invalidDigit (byte : UInt8)
  | tooManyArguments (count : Nat)
  | nameTooLong (length : Nat)
deriving DecidableEq, Repr

/-- Why a text is no archive. -/
inductive ArchiveProblem where
  /-- The text is not of the archive's form. -/
  | malformed
  | oddData
  /-- A pair of digits begins or ends inside a character. -/
  | cutCharacter
  | descriptor (problem : DescriptorProblem)
deriving DecidableEq, Repr

/-- Failures at the border to files. -/
inductive IoProblem where
  | descriptor (problem : DescriptorProblem)
  | archive (problem : ArchiveProblem)
  | notASource (path : String)
  | noSources (path : String)
  | unreadable (path : String)
  | unwritable (path : String)
deriving DecidableEq, Repr

/-- States that no other part of the toolchain produces. -/
inductive InternalProblem where
  | unknownMode (mode : String)
  | noLexRule (mode : String)
  | stackUnderflow
  | shiftWithoutLookahead
  | noGoto (lhs : String) (state : Nat)
  | valuesLeft
  | rewoundToken
  | noMove (symbol : Symbol) (state : Nat)
  | programShape
  | childShape (index : Nat) (expected : String)
  | unlabelledRule (lhs : String)
  | unknownLabel (label : String)
  | captureShape (name expected : String)
  | ruleSetRemovedRoot (name : String)
  | passRemovedUnit (pass : String)
  | noDeclaredType (tag : Tag)
  | untyped (tag : Tag)
  | missingAttribute (tag : Tag) (name : String)
  | calleeType
  | assignmentWidth (width : Nat) (target : Ty)
  | resultType
  | functionType
  | numberValue
  | intrinsicUnit
  | noMember (unit member : String)
  | neverEvaluated (name : String)
  | noSection
  | storageTarget
  | unboundFunction
  | serialization (problem : DescriptorProblem)
  | symbolName
  | symbolType (name : String)
  | symbolSection
  | notASymbol (tag : Tag)
  | outOfFuel
deriving DecidableEq, Repr

/-- Why something failed. -/
inductive Cause where
  | grammar (problems : List GrammarProblem)
  | lex (problem : LexProblem)
  /-- A token that no rule has a place for; no text stands for the end of the input. -/
  | unexpectedToken (found : Option String) (expected : List Terminal)
  /-- A delimiter that is still open at the end of the input, with its partner. -/
  | unclosed (opening closing : String)
  | type (problem : TypeProblem)
  | duplicateDefinition (name : String)
  | unknownName (name : String)
  /-- A `use` of a unit that does not exist. -/
  | unknownUnit (name : String)
  | constant (problem : ConstantProblem)
  | assembly (problem : AssemblyProblem)
  /-- Passes that wait for each other: the first one is repeated at the end. -/
  | topology (cycle : List String)
  | link (problem : LinkProblem)
  | io (problem : IoProblem)
  /-- A configuration that cannot be read. -/
  | config
  | internal (problem : InternalProblem)
  /-- A failure in words of its own, raised by a rule or a hook that a user of the library wrote. -/
  | stated (kind : ErrorKind) (message : String) (help : Option String)
deriving DecidableEq, Repr

/-- A failure and its place. -/
structure Error where
  cause : Cause
  span : Option Span := none
deriving DecidableEq, Repr

/-! ## 3. Words -/

namespace Clash

/-- The two sides of a conflict. -/
def text : Clash → String
  | shiftReduce rule => "shift vs reduce " ++ rule.text
  | reduceReduce first second => "reduce " ++ first.text ++ " vs reduce " ++ second.text

/-- The name of a kind of conflict. -/
def name : Clash → String
  | shiftReduce _ => "shift/reduce"
  | reduceReduce _ _ => "reduce/reduce"

end Clash

/-- The words for a problem of a grammar. -/
def GrammarProblem.text : GrammarProblem → String
  | invalidPattern kind mode => s!"invalid pattern for token '{kind}' in mode '{mode}'"
  | missingStart start => s!"missing starting rule for '{start}'"
  | severalStarts count start => s!"{count} starting rules for '{start}', expected one"
  | undefinedNonterminal name => s!"nonterminal '{name}' has no rules"
  | modeConflict state modes =>
    s!"mode/mode conflict in state {state}: " ++ " vs ".intercalate modes
  | conflict state lookahead clash =>
    s!"{clash.name} conflict in state {state} on {lookahead.describe}: {clash.text}"

/-- The words for text that is no token. -/
def LexProblem.text : LexProblem → String
  | unrecognized text => s!"unrecognized input `{escaped text}`"
  | numberRange text => s!"number literal `{text}` is out of range"
  | invalidEscape text => s!"invalid escape `{text}`"

/-- The words for a violation of the typing rules. -/
def TypeProblem.text : TypeProblem → String
  | mismatch expected found => s!"expected `{expected.text}`, found `{found.text}`"
  | notAnAddress value => s!"{value} is not an address"
  | notAReference found => s!"cannot dereference a value of type `{found.text}`"
  | arithmetic found => s!"arithmetic on a value of type `{found.text}`"
  | incompatible left right =>
    s!"operands have incompatible types `{left.text}` and `{right.text}`"
  | negation found => s!"cannot negate a value of type `{found.text}`"
  | notAFunction => "only functions can be called"
  | argumentCount function expected found =>
    s!"`{function}` takes {expected} argument(s), found {found}"
  | immutable name => s!"cannot assign to immutable `{name}`"
  | missingReturn expected => s!"missing return value of type `{expected.text}`"
  | unexpectedReturn => "this function does not return a value"
  | intrinsicAsValue member => s!"`{member}` must be called with constant arguments"
  | noMembers => "only units have members"
  | dynamicAddress => "only constant addresses can be dereferenced"

/-- The words for an expression without a value. -/
def ConstantProblem.text : ConstantProblem → String
  | unknownOperator op => s!"unknown operator `{op}`"
  | overflow => "arithmetic overflow"
  | notAConstantName name => s!"`{name}` is not a constant"
  | usedBeforeDefinition name => s!"constant `{name}` is used before its definition"
  | notAConstant => "not a constant expression"
  | range value type => s!"{value} does not fit in `{type.text}`"
  | argumentCount found => s!"expected 1 argument, found {found}"
  | argumentNotANumber => "argument is not a constant number"
  | wordRange value => s!"{value} does not fit in 16 bits"
  | dynamicInitializer => "global initializers must be constant"

/-- The words for a tree without instructions. -/
def AssemblyProblem.text : AssemblyProblem → String
  | nestedCall => "calls are only supported as statements, assignments and return values"
  | literalWidth value width => s!"literal {value} does not fit in {width} byte(s)"
  | storageWidth type width => s!"`{type.text}` is {type.width} byte(s) wide, expected {width}"
  | noInstruction op => s!"operator `{op}` has no machine equivalent"
  | compoundOperand => "the right operand must be a variable or a literal"
  | notComputable tag => s!"cannot evaluate `{tag.name}` at run time"
  | notAssignable => "only variables and constant addresses can be assigned"
  | unsupportedWidth width => s!"{width}-byte operations are not supported"
  | storeIntoLiteral => "cannot store into a literal"
  | operandRange value => s!"{value} does not fit in an 8-bit operand"
  | unresolvedOperand tag => s!"unresolved operand `{tag.name}`"

/-- The words for an obstacle to linking. -/
def LinkProblem.text : LinkProblem → String
  | definedTwice symbol firstUnit secondUnit =>
    s!"symbol `{symbol}` is defined by both `{firstUnit}` and `{secondUnit}`"
  | initializedZeroPage symbol => s!"zero-page symbol `{symbol}` cannot have an initial value"
  | zeroPageOverflow symbol => s!"zero page overflow while placing `{symbol}`"
  | entryInZeroPage entry => s!"entry symbol `{entry}` is in the zero page"
  | entryUndefined entry => s!"entry symbol `{entry}` is not defined"
  | memoryOverflow symbol => s!"`{symbol}` does not fit below $ffff"
  | undefinedSymbol symbol target => s!"`{symbol}` refers to undefined symbol `{target}`"
  | relocationOutside offset symbol => s!"relocation at +{offset} lies outside `{symbol}`"
  | notInZeroPage target => s!"`{target}` is not in the zero page"

/-- The words for bytes that are no text. -/
def EncodingFault.text (fault : EncodingFault) : String :=
  match fault.broken with
  | some count => s!"invalid utf-8 sequence of {count} bytes from index {fault.index}"
  | none => s!"incomplete utf-8 byte sequence from index {fault.index}"

/-- The words for a broken type descriptor. -/
def DescriptorProblem.text : DescriptorProblem → String
  | truncated => "truncated type descriptor"
  | trailing count => s!"{count} trailing bytes after type descriptor"
  | integerWidth width => s!"invalid integer width {width}"
  | truncatedName => "truncated phantom type name"
  | nameEncoding fault => "phantom type name: " ++ fault.text
  | unknownTag byte => "unknown type descriptor tag 0x" ++ hexByte byte
  | oddLength => "odd-length type descriptor"
  | invalidDigit byte => "type descriptor: invalid hex byte 0x" ++ hexByte byte
  | tooManyArguments count => s!"too many function arguments to encode: {count}"
  | nameTooLong length => s!"too many phantom type name to encode: {length}"

/-- The words for a text that is no archive. -/
def ArchiveProblem.text : ArchiveProblem → String
  | malformed => "not of the archive form"
  | oddData => "odd-length hex string"
  | cutCharacter => "a pair of hex digits cuts a character"
  | descriptor problem => ErrorKind.io.heading ++ problem.text

/-- The words for a failure at the border to files. -/
def IoProblem.text : IoProblem → String
  | descriptor problem => problem.text
  | archive problem => "invalid archive: " ++ problem.text
  | notASource path => s!"{path}: not a source file name"
  | noSources path => s!"no .lode files under {path}"
  | unreadable path => s!"{path}: cannot be read"
  | unwritable path => s!"{path}: cannot be written"

/-- The words for a state that should not arise. -/
def InternalProblem.text : InternalProblem → String
  | unknownMode mode => s!"unknown lexer mode '{mode}'"
  | noLexRule mode => s!"malformed lexer table: no rule of mode '{mode}' matches"
  | stackUnderflow => "parse stack underflow"
  | shiftWithoutLookahead => "shift without a lookahead"
  | noGoto lhs state => s!"no goto on {lhs} from state {state}"
  | valuesLeft => "parser accepted with values left on the stack"
  | rewoundToken => "only the most recently produced token can be rewound"
  | noMove symbol state => s!"automaton has no move on {symbol.text} from state {state}"
  | programShape => "program did not reduce to a node"
  | childShape index expected => s!"reduction child {index} is not a {expected}"
  | unlabelledRule lhs => s!"unlabelled rule for '{lhs}' must have one value child"
  | unknownLabel label => s!"unknown rule label '{label}'"
  | captureShape name expected => s!"pattern capture '{name}' is not a {expected}"
  | ruleSetRemovedRoot name => s!"rule set '{name}' removed the root node"
  | passRemovedUnit pass => s!"pass '{pass}' removed the unit"
  | noDeclaredType tag => s!"`{tag.name}` has no constructed type"
  | untyped tag => s!"`{tag.name}` has not been typed"
  | missingAttribute tag name => s!"`{tag.name}` is missing its `{name}`"
  | calleeType => "callee without a function type"
  | assignmentWidth width target => s!"assignment of {width} byte(s) into `{target.text}`"
  | resultType => "return type was not constructed"
  | functionType => "function binding without a function type"
  | numberValue => "number without a value"
  | intrinsicUnit => "intrinsic without a unit"
  | noMember unit member => s!"unit `{unit}` has no member `{member}`"
  | neverEvaluated name => s!"constant `{name}` was never evaluated"
  | noSection => "declaration has no section"
  | storageTarget => "storage without an address or symbol"
  | unboundFunction => "function was not bound with its unit"
  | serialization problem => "serializing archive: " ++ ErrorKind.io.heading ++ problem.text
  | symbolName => "symbol without a name"
  | symbolType name => s!"`{name}` has no type"
  | symbolSection => "data symbol without a section"
  | notASymbol tag => s!"`{tag.name}` was not lowered to a symbol"
  | outOfFuel => "step budget exhausted"

namespace Cause

/-- The kind of a cause. -/
def kind : Cause → ErrorKind
  | grammar _ => .grammar
  | lex _ => .lex
  | unexpectedToken _ _ => .unexpectedToken
  | unclosed _ _ => .unclosed
  | type _ => .type
  | duplicateDefinition _ => .duplicateDefinition
  | unknownName _ | unknownUnit _ => .unknownName
  | constant _ => .constant
  | assembly _ => .assembly
  | topology _ => .topology
  | link _ => .link
  | io _ => .io
  | config => .config
  | internal _ => .internal
  | stated kind _ _ => kind

/-- The words for a cause, without the heading of its kind. -/
def text : Cause → String
  | grammar problems => "; ".intercalate (problems.map GrammarProblem.text)
  | lex problem => problem.text
  | unexpectedToken found expected =>
    let what := match found with
      | some text => "`" ++ escaped text ++ "`"
      | none => Terminal.eof.describe
    s!"unexpected {what}, expected one of: " ++ ", ".intercalate (expected.map Terminal.describe)
  | unclosed opening _ => s!"unclosed `{opening}` at end of input"
  | type problem => problem.text
  | duplicateDefinition name => s!"duplicate definition of '{name}'"
  | unknownName name | unknownUnit name => s!"unknown name '{name}'"
  | constant problem => problem.text
  | assembly problem => problem.text
  | topology cycle => "dependency cycle through " ++ " -> ".intercalate cycle
  | link problem => problem.text
  | io problem => problem.text
  | config => "invalid configuration"
  | internal problem => problem.text
  | stated _ message _ => message

/-- Advice that goes with a cause. -/
def help : Cause → Option String
  | unclosed _ closing => some s!"add the missing `{closing}`"
  | unknownUnit _ => some "the only built-in unit is `mem`"
  | type (.immutable _) => some "declare it with `let mut` or `let stash`"
  | assembly (.unsupportedWidth _) => some "only 8-bit values can be loaded and stored"
  | internal _ => some "This is an internal compiler error. Please report it as a bug."
  | stated _ _ help => help
  | _ => none

end Cause

namespace Error

/-- The kind of an error. -/
def kind (e : Error) : ErrorKind := e.cause.kind

/-- Advice that goes with an error. -/
def help (e : Error) : Option String := e.cause.help

/-- The whole message of an error. -/
def message (e : Error) : String :=
  e.kind.heading ++ e.cause.text ++
    match e.span with
    | some span => " at " ++ span.text
    | none => ""

/-- The same error, at a place if it has none yet. -/
def locate (e : Error) (span : Span) : Error :=
  { e with span := some (e.span.getD span) }

/-- The code of an error's diagnostic. -/
def code (e : Error) : String := "lodestar::" ++ e.kind.suffix

end Error

/-! ## 4. Raising errors -/

namespace TypeProblem

/-- The error of a typing problem at a place. -/
def atSpan (problem : TypeProblem) (span : Span) : Error := ⟨.type problem, some span⟩

end TypeProblem

namespace ConstantProblem

/-- The error of a problem with a constant at a place. -/
def atSpan (problem : ConstantProblem) (span : Span) : Error := ⟨.constant problem, some span⟩

end ConstantProblem

namespace AssemblyProblem

/-- The error of an assembly problem at a place. -/
def atSpan (problem : AssemblyProblem) (span : Span) : Error := ⟨.assembly problem, some span⟩

end AssemblyProblem

namespace InternalProblem

/-- The error of a state that should not arise, without a place. -/
def error (problem : InternalProblem) : Error := ⟨.internal problem, none⟩

/-- The error of a state that should not arise, at a place. -/
def atSpan (problem : InternalProblem) (span : Span) : Error := ⟨.internal problem, some span⟩

end InternalProblem

end Lode
