/-
# The item-set automaton

An item is a rule with a point in its right-hand side: what stands before the point has been read.
A state is a set of items that is closed under prediction: with the point before a nonterminal, the
rules of that nonterminal belong to the state too, with the point in front.  Moving the point over a
symbol leads from one state to another.

States are numbered as they are found, beginning with the closure of the start rule, and found in
the order of the states and, within a state, of the symbols.
-/
import Lode.Grammar.Basic

namespace Lode

/-- The number of a state. -/
abbrev StateId := Nat

/-- A rule with a point. -/
structure Item where
  rule : RuleId
  point : Nat
deriving DecidableEq, Repr, Ord

namespace Item

/-- The slot after the point. -/
def next? (g : Grammar) (item : Item) : Option Slot := (g.rule item.rule).rhs[item.point]?

/-- The nonterminals after the point. -/
def expected (g : Grammar) (item : Item) : List String :=
  match item.next? g with
  | some slot => slot.symbols.filterMap Symbol.nonterminal?
  | none => []

/-- The point is at the end. -/
def isComplete (g : Grammar) (item : Item) : Bool := item.point == (g.rule item.rule).rhs.length

/-- The point is at one of the two ends. -/
def isAtBoundary (g : Grammar) (item : Item) : Bool := item.point == 0 || item.isComplete g

/-- The item with the point one slot further. -/
def advance (item : Item) : Item := ⟨item.rule, item.point + 1⟩

/-- The items that an item predicts. -/
def predicted (g : Grammar) (item : Item) : List Item :=
  (item.expected g).flatMap fun name => (g.productionsOf name).map (⟨·, 0⟩)

end Item

namespace Grammar

/-! ## 1. Closure -/

/-- Adds what the items of `frontier` predict, and what that predicts in turn. -/
def closeFrom (g : Grammar) : Nat → List Item → List Item → List Item
  | 0, _, items => items
  | fuel + 1, frontier, items =>
    let new := (Sorted.ofList (frontier.flatMap (Item.predicted g))).filter (!items.contains ·)
    if new.isEmpty then items else closeFrom g fuel new (Sorted.union items new)

/-- The least closed set around a list of items.  Every round but the last adds a rule. -/
def closure (g : Grammar) (kernel : List Item) : List Item :=
  closeFrom g (g.rules.length + 1) kernel (Sorted.ofList kernel)

/-- The items after moving over each symbol, by symbol, not yet closed. -/
def kernels (g : Grammar) (items : List Item) : List (Symbol × List Item) :=
  items.foldl (fun moves item =>
    match item.next? g with
    | none => moves
    | some slot => slot.symbols.foldl (fun moves symbol =>
        Sorted.alter symbol (fun old => Sorted.insert item.advance (old.getD [])) moves) moves) []

/-! ## 2. States -/

/-- Item sets by number, and the moves of those that were explored. -/
structure Exploration where
  sets : Array (List Item)
  moves : Array (List (Symbol × StateId))
deriving Repr

/-- The number of an item set, which may be new. -/
def Exploration.number (e : Exploration) (items : List Item) : StateId × Exploration :=
  match e.sets.findIdx? (· == items) with
  | some id => (id, e)
  | none => (e.sets.size, { e with sets := e.sets.push items })

/-- Explores the moves of one state. -/
def exploreMoves (g : Grammar) : List (Symbol × List Item) → Exploration →
    List (Symbol × StateId) × Exploration
  | [], e => ([], e)
  | (symbol, kernel) :: rest, e =>
    let (target, e) := e.number (g.closure kernel)
    let (moves, e) := exploreMoves g rest e
    ((symbol, target) :: moves, e)

/-- Explores the states that have a number and no moves yet, in order. -/
def explore (g : Grammar) : Nat → Exploration → Exploration
  | 0, e => e
  | fuel + 1, e =>
    match e.sets[e.moves.size]? with
    | none => e
    | some items =>
      let (moves, e) := exploreMoves g (g.kernels items) e
      explore g fuel { e with moves := e.moves.push moves }

/-- The number of items of a grammar. -/
def itemCount (g : Grammar) : Nat := g.rules.foldr (fun rule n => rule.rhs.length + 1 + n) 0

/-- All states that can be reached.  There are no more of them than sets of items. -/
def exploration (g : Grammar) : Exploration :=
  explore g (Nat.pow 2 g.itemCount + 1) ⟨#[g.closure [⟨g.startRule, 0⟩]], #[]⟩

end Grammar

/-- A state of the automaton.  The mode is that of the rules whose point is at an end; without one
the mode of the state below it on the stack is kept. -/
structure State where
  items : List Item
  moves : List (Symbol × StateId)
  mode : Option String
deriving DecidableEq, Repr

/-- The states of a grammar by number. -/
structure Automaton where
  states : Array State
deriving Repr

namespace Automaton

/-- The modes that the rules of a state ask for. -/
def modesOf (g : Grammar) (items : List Item) : List String :=
  Sorted.ofList <| (items.filter (·.isAtBoundary g)).filterMap fun item => (g.rule item.rule).mode

/-- The states whose rules ask for different modes. -/
def modeProblems (g : Grammar) (sets : List (List Item)) : List GrammarProblem :=
  sets.zipIdx.filterMap fun (items, id) =>
    let modes := modesOf g items
    if 1 < modes.length then some (.modeConflict id modes) else none

/-- The automaton of a grammar. -/
def ofGrammar (g : Grammar) : Except Error Automaton :=
  let e := g.exploration
  match modeProblems g e.sets.toList with
  | [] =>
    .ok ⟨(e.sets.zip e.moves).map fun (items, moves) => ⟨items, moves, (modesOf g items).head?⟩⟩
  | found => .error ⟨.grammar found, none⟩

/-- The items of a state. -/
def items (a : Automaton) (state : StateId) : List Item :=
  match a.states[state]? with
  | some s => s.items
  | none => []

/-- The target of a move. -/
def goto? (a : Automaton) (state : StateId) (symbol : Symbol) : Option StateId :=
  (a.states[state]?).bind fun s => Sorted.find? symbol s.moves

end Automaton

end Lode
