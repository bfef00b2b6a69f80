/-
# Lookaheads of reductions

A path symbol is a symbol tied to the states it leads from and to.  Every walk of a rule through the
automaton is a production over path symbols, and the Follow set of its left-hand side holds exactly
the terminals before which the rule may be reduced at the end of that walk.
-/
import Lode.Grammar.Automaton
import Lode.Grammar.FirstFollow

namespace Lode

/-- A symbol with the states around it.  The symbol of a start rule leads nowhere. -/
structure PathSymbol where
  start : StateId
  symbol : Symbol
  stop : Option StateId
deriving DecidableEq, Repr, Ord

instance : GrammarSymbol PathSymbol where
  terminal? s := GrammarSymbol.terminal? s.symbol

/-- A walk of a rule through the automaton. -/
structure PathRule where
  rule : RuleId
  lhs : PathSymbol
  rhs : List (List PathSymbol)
  final : StateId
deriving DecidableEq, Repr

/-- A state in which a rule is complete. -/
structure Completion where
  state : StateId
  rule : RuleId
deriving DecidableEq, Repr, Ord

namespace Automaton

/-! ## 1. Walks -/

/-- The moves of a state over the symbols of a slot, grouped by their target. -/
def slotMoves (a : Automaton) (state : StateId) :
    List Symbol → Except Error (List (StateId × List PathSymbol))
  | [] => .ok []
  | symbol :: symbols =>
    match a.goto? state symbol with
    | none => .error (InternalProblem.noMove symbol state).error
    | some target => do
      let groups ← slotMoves a state symbols
      return Sorted.alter target (fun old => ⟨state, symbol, some target⟩ :: old.getD []) groups

/-- The walks over a row of slots: the path symbols passed and the state at the end. -/
def walks (a : Automaton) : List Slot → StateId → Except Error (List (List (List PathSymbol) × StateId))
  | [], state => .ok [([], state)]
  | slot :: slots, state => do
    let groups ← a.slotMoves state slot.symbols
    let found ← groups.mapM fun (target, symbols) => do
      let here ← a.walks slots target
      return here.map fun (path, final) => (symbols :: path, final)
    return found.flatten

/-- The walks of a rule from a state that predicts it. -/
def pathRulesOf (g : Grammar) (a : Automaton) (state : StateId) (id : RuleId) :
    Except Error (List PathRule) := do
  let rule := g.rule id
  let lhs : PathSymbol :=
    ⟨state, .nonterminal rule.lhs, a.goto? state (.nonterminal rule.lhs)⟩
  let found ← a.walks rule.rhs state
  return found.map fun (path, final) => ⟨id, lhs, path, final⟩

/-- All walks of all rules, by state and rule. -/
def pathRules (g : Grammar) (a : Automaton) : Except Error (List PathRule) := do
  let starts := a.states.toList.zipIdx.flatMap fun (state, id) =>
    (state.items.filter (·.point == 0)).map fun item => (id, item.rule)
  let found ← starts.mapM fun (state, rule) => a.pathRulesOf g state rule
  return found.flatten

end Automaton

/-! ## 2. Lookaheads -/

/-- The terminals before which a rule may be reduced in a state in which it is complete. -/
def lookaheads (g : Grammar) (paths : List PathRule) : List (Completion × List Terminal) :=
  let productions := paths.map fun path => (⟨path.lhs, path.rhs⟩ : Production PathSymbol)
  let follow := followSets productions ⟨0, .nonterminal g.start, none⟩ g.ends
  paths.foldl (fun found path =>
    Sorted.alter ⟨path.final, path.rule⟩
      (fun old => Sorted.union (old.getD []) (follow.of path.lhs)) found) []

end Lode
