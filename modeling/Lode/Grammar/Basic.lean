/-
# Grammars

A grammar is a list of rules, a start nonterminal with exactly one rule, and the terminals that may
end a parse.  Rules are known by their number in the list.
-/
import Lode.Error

namespace Lode

/-- The number of a rule in its grammar. -/
abbrev RuleId := Nat

/-- Rules with a start nonterminal. -/
structure Grammar where
  start : String
  rules : List Rule
  /-- The terminals that may end a parse, in increasing order. -/
  ends : List Terminal
  startRule : RuleId
deriving DecidableEq, Repr

namespace Grammar

/-- The rules of a nonterminal among a list of rules, by number. -/
def rulesOf (rules : List Rule) (name : String) : List RuleId :=
  (rules.zipIdx.filter fun (rule, _) => rule.lhs == name).map (·.2)

/-- The symbols of the right-hand sides of a list of rules. -/
def rhsSymbols (rules : List Rule) : List Symbol :=
  rules.flatMap fun rule => rule.rhs.flatMap Slot.symbols

/-- The nonterminals that are used and have no rule, in increasing order. -/
def undefinedNames (rules : List Rule) : List String :=
  Sorted.ofList <| (rhsSymbols rules).filterMap fun symbol =>
    symbol.nonterminal?.filter fun name => (rulesOf rules name).isEmpty

/-- What keeps a list of rules from being a grammar. -/
def problems (start : String) (rules : List Rule) : List GrammarProblem :=
  (match rulesOf rules start with
    | [] => [.missingStart start]
    | [_] => []
    | ids => [.severalStarts ids.length start]) ++
  (undefinedNames rules).map .undefinedNonterminal

/-- The grammar of a list of rules.  Everything that is wrong with them is reported at once. -/
def ofRules (start : String) (rules : List Rule) (ends : List Terminal) : Except Error Grammar :=
  match problems start rules, rulesOf rules start with
  | [], id :: _ => .ok ⟨start, rules, Sorted.ofList ends, id⟩
  | found, _ => .error ⟨.grammar found, none⟩

/-- The rule of a number; a number of no rule gives an empty one. -/
def rule (g : Grammar) (id : RuleId) : Rule := (g.rules[id]?).getD { lhs := "", rhs := [] }

/-- The rules of a nonterminal. -/
def productionsOf (g : Grammar) (name : String) : List RuleId := rulesOf g.rules name

end Grammar

end Lode
