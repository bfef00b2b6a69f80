/-
# Parse tables

In every state and for every lookahead the table says whether to shift the token, to reduce a rule,
or to accept.  Shifts come from the moves of the automaton, reductions from the lookaheads.  Where
two actions claim the same lookahead the precedences of their rules decide; what they leave open is
a conflict, and all conflicts are reported together.
-/
import Lode.Grammar.Lookahead

namespace Lode

/-- What to do with a lookahead. -/
inductive Action where
  | shift (target : StateId)
  | reduce (rule : RuleId)
  | accept (rule : RuleId)
deriving DecidableEq, Repr

/-- The entries of one state. -/
structure TableRow where
  actions : List (Terminal × Action)
  gotos : List (String × StateId)
  mode : Option String
deriving DecidableEq, Repr

/-- The tables of a parser. -/
structure ParseTable where
  grammar : Grammar
  rows : Array TableRow
deriving Repr

namespace ParseTable

/-! ## 1. Precedence -/

/-- A precedence, and whether it goes with right associativity. -/
structure Strength where
  level : Nat
  right : Bool
deriving DecidableEq, Repr

/-- The stronger of two; of equals either may be right-associative. -/
def Strength.max (a b : Strength) : Strength :=
  if b.level < a.level then a
  else if a.level == b.level then ⟨a.level, a.right || b.right⟩
  else b

/-- The strongest of the given rules, none if one of them has no precedence. -/
def strongest : List Rule → Option Strength → Option Strength
  | [], best => best
  | rule :: rules, best =>
    match rule.precedence with
    | none => none
    | some level =>
      let here : Strength := ⟨level, rule.rightAssociative⟩
      strongest rules (some (match best with
        | some b => b.max here
        | none => here))

/-- The strength of shifting a terminal: that of the rules with the point before it. -/
def shiftStrength (g : Grammar) (items : List Item) (t : Terminal) : Option Strength :=
  strongest ((items.filter fun item =>
    (item.next? g).any fun slot => slot.symbols.contains (.terminal t)).map fun item =>
      g.rule item.rule) none

/-- Whether a shift is preferred to a reduction. -/
def shiftWins (shift : Option Strength) (rule : Rule) : Except Clash Bool :=
  match shift, rule.precedence with
  | some s, some level => .ok (level < s.level || (level == s.level && s.right))
  | _, _ => .error (.shiftReduce rule)

/-- Whether the first of two reductions is preferred. -/
def firstWins (first second : Rule) : Except Clash Bool :=
  match first.precedence, second.precedence with
  | some p, some q =>
    if p == q then .error (.reduceReduce first second) else .ok (q < p)
  | _, _ => .error (.reduceReduce first second)

/-- The action for a lookahead that `candidate`, for the rule of a number, and perhaps another
action claim. -/
def resolve (g : Grammar) (items : List Item) (t : Terminal) (id : RuleId) (candidate : Action) :
    Option Action → Except Clash Action
  | none => .ok candidate
  | some (.shift target) => do
    let wins ← shiftWins (shiftStrength g items t) (g.rule id)
    return if wins then .shift target else candidate
  | some (.reduce other) => settle other (.reduce other)
  | some (.accept other) => settle other (.accept other)
where
  /-- The action of two rules that claim the same lookahead. -/
  settle (other : RuleId) (present : Action) : Except Clash Action :=
    if other == id then .ok candidate
    else do
      let wins ← firstWins (g.rule other) (g.rule id)
      return if wins then present else candidate

/-! ## 2. Rows -/

/-- The shifts and gotos of a state. -/
def rowOfMoves (state : State) : TableRow :=
  { actions := state.moves.filterMap fun (symbol, target) =>
      match symbol with
      | .terminal t => some (t, .shift target)
      | .nonterminal _ => none
    gotos := state.moves.filterMap fun (symbol, target) =>
      symbol.nonterminal?.map fun name => (name, target)
    mode := state.mode }

/-- The action of a completed rule for a lookahead. -/
def completion (g : Grammar) (id : RuleId) (t : Terminal) : Action :=
  if id == g.startRule && g.ends.contains t then .accept id else .reduce id

/-- Adds the reductions of one rule to the actions of a state, in the order of its lookaheads. -/
def addReductions (g : Grammar) (items : List Item) (c : Completion) :
    List Terminal → List (Terminal × Action) → List GrammarProblem →
    List (Terminal × Action) × List GrammarProblem
  | [], actions, problems => (actions, problems)
  | t :: ts, actions, problems =>
    match resolve g items t c.rule (completion g c.rule t) (Sorted.find? t actions) with
    | .ok action => addReductions g items c ts (Sorted.set t action actions) problems
    | .error clash =>
      addReductions g items c ts actions (problems ++ [.conflict c.state t clash])

/-- Adds all reductions, in the order of states and rules. -/
def addAll (g : Grammar) (a : Automaton) :
    List (Completion × List Terminal) → Array TableRow → List GrammarProblem →
    Array TableRow × List GrammarProblem
  | [], rows, problems => (rows, problems)
  | (c, ts) :: rest, rows, problems =>
    match rows[c.state]? with
    | none => addAll g a rest rows problems
    | some row =>
      let (actions, problems) := addReductions g (a.items c.state) c ts row.actions problems
      addAll g a rest (rows.setIfInBounds c.state { row with actions := actions }) problems

/-- The tables of a grammar. -/
def ofGrammar (g : Grammar) : Except Error ParseTable := do
  let a ← Automaton.ofGrammar g
  let paths ← a.pathRules g
  match addAll g a (lookaheads g paths) (a.states.map rowOfMoves) [] with
  | (rows, []) => return ⟨g, rows⟩
  | (_, problems) => throw ⟨.grammar problems, none⟩

/-! ## 3. Reading the tables -/

/-- The action for a lookahead. -/
def action? (table : ParseTable) (state : StateId) (t : Terminal) : Option Action :=
  (table.rows[state]?).bind fun row => Sorted.find? t row.actions

/-- The state after reducing to a nonterminal. -/
def goto? (table : ParseTable) (state : StateId) (name : String) : Option StateId :=
  (table.rows[state]?).bind fun row => Sorted.find? name row.gotos

/-- The action of a state that needs no lookahead: its only entry is the empty marker's. -/
def lookaheadFree? (table : ParseTable) (state : StateId) : Option Action :=
  match table.rows[state]? with
  | some ⟨[(.empty, action)], _, _⟩ => some action
  | _ => none

/-- The terminals with an action, the empty marker left out. -/
def expected (table : ParseTable) (state : StateId) : List Terminal :=
  match table.rows[state]? with
  | some row => (row.actions.map (·.1)).filter (· != .empty)
  | none => []

/-- The lexer mode of a state, none if the mode below it is kept. -/
def mode? (table : ParseTable) (state : StateId) : Option String :=
  (table.rows[state]?).bind (·.mode)

end ParseTable

end Lode
