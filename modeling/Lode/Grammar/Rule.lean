/-
# Grammar rules

A rule expands a nonterminal to a row of slots, and a slot is a choice among symbols, so that
`type := 'u8' | 'u16'` is one rule with one slot.  A rule may carry a precedence, which settles
conflicts, a lexer mode, in which the text at its two ends is read, and a label, which says what is
built when the rule is reduced.
-/
import Lode.Sorted
import Lode.Token

namespace Lode

/-- A symbol of a grammar.  Terminals come before nonterminals. -/
inductive Symbol where
  | terminal (t : Terminal)
  | nonterminal (name : String)
deriving DecidableEq, Repr, Ord

namespace Symbol

/-- The terminal of a kind of token. -/
def token (kind : String) : Symbol := terminal (.kind kind)

/-- The name of a nonterminal. -/
def nonterminal? : Symbol → Option String
  | terminal _ => none
  | nonterminal name => some name

/-- A symbol as rules show it. -/
def text : Symbol → String
  | terminal t => "'" ++ t.text ++ "'"
  | nonterminal name => name

end Symbol

/-- One place of a right-hand side: a choice among at least one symbol. -/
structure Slot where
  symbols : List Symbol
  nonempty : symbols ≠ []
deriving DecidableEq, Repr

namespace Slot

/-- The slot for one symbol. -/
def one (s : Symbol) : Slot := ⟨[s], by simp⟩

/-- The slot for the symbols of a list, if there are any. -/
def ofList? (symbols : List Symbol) : Option Slot :=
  if h : Sorted.ofList symbols ≠ [] then some ⟨Sorted.ofList symbols, h⟩ else none

/-- The slot for a symbol and further ones. -/
def choice (s : Symbol) (others : List Symbol) : Slot :=
  (ofList? (s :: others)).getD (one s)

/-- A slot as rules show it. -/
def text (slot : Slot) : String :=
  match slot.symbols with
  | [s] => s.text
  | symbols => "(" ++ " | ".intercalate (symbols.map Symbol.text) ++ ")"

end Slot

/-- A rule `lhs := rhs`. -/
structure Rule where
  lhs : String
  rhs : List Slot
  precedence : Option Nat := none
  rightAssociative : Bool := false
  mode : Option String := none
  label : Option String := none
deriving DecidableEq, Repr

/-- A rule as diagnostics show it. -/
def Rule.text (rule : Rule) : String :=
  rule.lhs ++ " :=" ++
    (if rule.rhs.isEmpty then " ε" else String.join (rule.rhs.map fun slot => " " ++ slot.text))

end Lode
