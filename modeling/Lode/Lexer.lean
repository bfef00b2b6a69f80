/-
# Lexers

A lexer is a table of rules grouped by mode.  In a mode the rules are tried in the order of their
declaration, and the first one with a match that is not empty gives the next token.  Once the text
is used up, every mode gives the end of the input.
-/
import Lode.Error
import Lode.Regex.Reader
import Lode.Stream

namespace Lode

/-- A rule of a lexer: what the token looks like, its kind and its channel. -/
structure LexRule where
  regex : Regex
  kind : String
  channel : Channel := .default
deriving DecidableEq, Repr

/-- A rule in written form, with the mode it belongs to. -/
structure LexPattern where
  mode : String
  pattern : String
  kind : String
  channel : Channel := .default
deriving DecidableEq, Repr

/-- The rules of every mode, by name. -/
structure Lexer where
  modes : List (String × List LexRule)
deriving DecidableEq, Repr

/-- The length of a rule's match at the cursor, if it is not empty. -/
def LexRule.length? (rule : LexRule) (s : Stream) : Option Nat :=
  (s.matchLength? rule.regex).filter (0 < ·)

namespace Lexer

/-- Adds a rule at the end of a mode. -/
def addRule (lexer : Lexer) (mode : String) (rule : LexRule) : Lexer :=
  ⟨Sorted.alter mode (fun rules => rules.getD [] ++ [rule]) lexer.modes⟩

/-- The lexer of a list of rules with their modes. -/
def ofRules (rules : List (String × LexRule)) : Lexer :=
  rules.foldl (fun lexer (mode, rule) => lexer.addRule mode rule) ⟨[]⟩

/-- The lexer of a list of written rules.  All patterns that cannot be read are reported. -/
def ofPatterns (patterns : List LexPattern) : Except Error Lexer :=
  let read := patterns.map fun p => (p, Regex.ofPattern? p.pattern)
  let problems := read.filterMap fun (p, regex) =>
    match regex with
    | none => some (GrammarProblem.invalidPattern p.kind p.mode)
    | some _ => none
  if problems.isEmpty then
    .ok (ofRules (read.filterMap fun (p, regex) =>
      regex.map fun regex => (p.mode, ⟨regex, p.kind, p.channel⟩)))
  else
    .error ⟨.grammar problems, none⟩

/-- The token of the first rule with a match that is not empty. -/
def firstMatch? (s : Stream) : List LexRule → Option (Token × Stream)
  | [] => none
  | rule :: rules =>
    match rule.length? s with
    | some length => s.produce? (.kind rule.kind) length rule.channel
    | none => firstMatch? s rules

/-- The next token in a mode. -/
def next (lexer : Lexer) (mode : String) (s : Stream) : Except Error (Token × Stream) :=
  if s.atEnd then .ok s.produceEof
  else
    match Sorted.find? mode lexer.modes with
    | none => .error (InternalProblem.unknownMode mode).error
    | some rules =>
      match firstMatch? s rules with
      | some result => .ok result
      | none => .error (InternalProblem.noLexRule mode).error

end Lexer

end Lode
