/-
# First and Follow

The first terminals of what a symbol derives, and the terminals that can come after it.  Both are
least solutions of equations over the productions and are found by repeating a round of updates
until nothing changes.

The symbols may be of any type with an order that tells terminals from the rest: grammars use it
with their own symbols, and the lookaheads with symbols that are tied to states.
-/
import Lode.Grammar.Basic

namespace Lode

/-! ## 1. Rounds of updates -/

/-- Repeats a step until it changes nothing, at most `fuel` times. -/
def stabilize {α : Type} [DecidableEq α] (step : α → α) : Nat → α → α
  | 0, a => a
  | fuel + 1, a => if step a = a then a else stabilize step fuel (step a)

/-! ## 2. Productions -/

/-- Symbols of which some are terminals. -/
class GrammarSymbol (S : Type) extends Ord S where
  terminal? : S → Option Terminal

instance : GrammarSymbol Symbol where
  terminal?
    | .terminal t => some t
    | .nonterminal _ => none

/-- A production: every place of the right-hand side is a choice among symbols. -/
structure Production (S : Type) where
  lhs : S
  slots : List (List S)
deriving DecidableEq, Repr

/-- A set of terminals for every symbol that has one. -/
abbrev TerminalSets (S : Type) := List (S × List Terminal)

variable {S : Type} [GrammarSymbol S]

/-- The set of a symbol, empty if it has none. -/
def TerminalSets.of (sets : TerminalSets S) (s : S) : List Terminal :=
  (Sorted.find? s sets).getD []

/-- Adds terminals to the set of a symbol. -/
def TerminalSets.add (sets : TerminalSets S) (s : S) (ts : List Terminal) : TerminalSets S :=
  Sorted.alter s (fun old => Sorted.union (old.getD []) ts) sets

/-- Empty sets for the left-hand sides. -/
def TerminalSets.initial (productions : List (Production S)) : TerminalSets S :=
  productions.foldl (fun sets p => sets.add p.lhs []) []

/-- More rounds than updates can happen: every round but the last adds a terminal to a set. -/
def roundLimit (productions : List (Production S)) (ends : List Terminal) : Nat :=
  let symbols := productions.foldr (fun p n => 1 + p.slots.flatten.length + n) 0
  (symbols + 1) * (symbols + ends.length + 1) + 1

/-! ## 3. First -/

/-- The first terminals of a symbol. -/
def firstOfSymbol (first : TerminalSets S) (s : S) : List Terminal :=
  match GrammarSymbol.terminal? s with
  | some t => [t]
  | none => first.of s

/-- The first terminals of a choice. -/
def firstOfSlot (first : TerminalSets S) (slot : List S) : List Terminal :=
  slot.foldl (fun acc s => Sorted.union acc (firstOfSymbol first s)) []

/-- The first terminals of a row of slots; the empty marker is among them if the whole row can be
empty. -/
def firstOfSlots (first : TerminalSets S) : List (List S) → List Terminal
  | [] => [.empty]
  | slot :: slots =>
    let here := firstOfSlot first slot
    if here.contains .empty then
      Sorted.union (here.filter (· != .empty)) (firstOfSlots first slots)
    else here

/-- One round over all productions. -/
def firstRound (productions : List (Production S)) (first : TerminalSets S) : TerminalSets S :=
  productions.foldl (fun sets p => sets.add p.lhs (firstOfSlots sets p.slots)) first

/-- The First sets of the left-hand sides. -/
def firstSets [DecidableEq S] (productions : List (Production S)) : TerminalSets S :=
  stabilize (firstRound productions) (roundLimit productions [])
    (TerminalSets.initial productions)

/-! ## 4. Follow -/

/-- What the slots of a right-hand side add, given the terminals that may come after it. -/
def followSlots (first : TerminalSets S) (after : List Terminal) :
    List (List S) → TerminalSets S → TerminalSets S
  | [], sets => sets
  | slot :: slots, sets =>
    let rest := firstOfSlots first slots
    let added := Sorted.union (rest.filter (· != .empty))
      (if rest.contains .empty then after else [])
    let sets := slot.foldl (fun sets s =>
      if (GrammarSymbol.terminal? s).isNone then sets.add s added else sets) sets
    followSlots first after slots sets

/-- One round over all productions. -/
def followRound (productions : List (Production S)) (first : TerminalSets S)
    (follow : TerminalSets S) : TerminalSets S :=
  productions.foldl (fun sets p => followSlots first (sets.of p.lhs) p.slots sets) follow

/-- The Follow sets: the end terminals may come after the start symbol. -/
def followSets [DecidableEq S] (productions : List (Production S)) (start : S)
    (ends : List Terminal) : TerminalSets S :=
  let first := firstSets productions
  stabilize (followRound productions first) (roundLimit productions ends)
    (Sorted.set start ends (TerminalSets.initial productions))

namespace Grammar

/-! ## 5. Grammars -/

/-- The rules of a grammar as productions. -/
def productions (g : Grammar) : List (Production Symbol) :=
  g.rules.map fun rule => ⟨.nonterminal rule.lhs, rule.rhs.map Slot.symbols⟩

/-- The sets of the nonterminals, by name. -/
def namedSets (sets : TerminalSets Symbol) : List (String × List Terminal) :=
  sets.filterMap fun (symbol, ts) => symbol.nonterminal?.map fun name => (name, ts)

/-- The First set of every nonterminal. -/
def first (g : Grammar) : List (String × List Terminal) := namedSets (firstSets g.productions)

/-- The Follow set of every nonterminal. -/
def follow (g : Grammar) : List (String × List Terminal) :=
  namedSets (followSets g.productions (.nonterminal g.start) g.ends)

end Grammar

end Lode
