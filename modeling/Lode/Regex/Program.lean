/-
# Programs of regular expressions

An expression is carried out as a numbered program.  An instruction reads a character, asks for a
border of a word, or goes on elsewhere; a choice goes on in two ways, the first one preferred.  The
address after the last instruction is the end of the match.

A text is read once, character by character, by threads that are kept in order of preference.
Between two characters no address is visited twice, so there are never more threads than
instructions, and a round of a repetition that reads nothing is not followed by another one.  A
repetition whose rounds may read nothing has a choice of its own after the round: stopping there
comes in the order before the other ways through the round.
-/
import Lode.Regex.Basic
import Lode.Text.Bytes
import Lode.Text.Word

namespace Lode

/-- An instruction, with the addresses it goes on to. -/
inductive Instruction where
  /-- Reads one character of a class. -/
  | read (cls : CharClass) (next : Nat)
  /-- Asks for a border of a word. -/
  | border (next : Nat)
  /-- Goes on. -/
  | jump (next : Nat)
  /-- Goes on in two ways, the first one preferred. -/
  | choice (first second : Nat)
deriving DecidableEq, Repr

namespace Regex

/-! ## 1. From expressions to instructions -/

/-- The number of instructions of an expression. -/
def size : Regex → Nat
  | empty | one _ | boundary => 1
  | seq r s => r.size + s.size
  | alt r s => 1 + r.size + s.size
  | star r _ => 1 + r.size + 1
  | rounds r _ => r.size + 1
  | group r => r.size

/-- The choice between another round, which begins at `round`, and stopping. -/
def another (greedy : Bool) (round next : Nat) : Instruction :=
  if greedy then .choice round next else .choice next round

/-- The instructions of an expression, placed from `start` on; its matches end at `next`. -/
def instructions : Regex → (start next : Nat) → List Instruction
  | empty, _, next => [.jump next]
  | one cls, _, next => [.read cls next]
  | boundary, _, next => [.border next]
  | group r, start, next => r.instructions start next
  | seq r s, start, next =>
    let middle := start + r.size
    r.instructions start middle ++ s.instructions middle next
  | alt r s, start, next =>
    let first := start + 1
    let second := first + r.size
    .choice first second :: r.instructions first next ++ s.instructions second next
  | star r greedy, start, next =>
    let round := start + 1
    let last := round + r.size
    another greedy round next :: r.instructions round last ++
      [if r.isNullable then another greedy round next else .jump start]
  | rounds r greedy, start, next =>
    r.instructions start (start + r.size) ++ [another greedy start next]

/-- The program of an expression. -/
def program (r : Regex) : Array Instruction := (r.instructions 0 r.size).toArray

theorem length_instructions (r : Regex) (start next : Nat) :
    (r.instructions start next).length = r.size := by
  induction r generalizing start next with
  | empty | one | boundary => rfl
  | group r ih => exact ih start next
  | seq r s ihr ihs => simp [instructions, size, ihr, ihs]
  | alt r s ihr ihs => simp [instructions, size, ihr, ihs]; omega
  | star r greedy ih => simp [instructions, size, ih]; omega
  | rounds r greedy ih => simp [instructions, size, ih]

end Regex

/-! ## 2. Threads -/

/-- A border of a word: exactly one of the two neighbours is a word character. -/
def isBorder (previous next : Option Char) : Bool := previous.any isWordChar != next.any isWordChar

/-- A way of matching that waits for a character. -/
structure Thread where
  cls : CharClass
  next : Nat
deriving DecidableEq, Repr

/-- The threads between two characters. -/
structure Front where
  /-- The addresses that were visited. -/
  visited : List Nat := []
  /-- The threads that wait, the preferred one last. -/
  waiting : List Thread := []
  /-- Whether a match ends here; ways that come after it in the order are dropped. -/
  done : Bool := false
deriving DecidableEq, Repr

/-- Follows the ways from an address, between the characters `previous` and `next`. -/
def Front.visit (program : Array Instruction) (previous next : Option Char) :
    Nat → Nat → Front → Front
  | 0, _, front => front
  | fuel + 1, address, front =>
    if front.done || front.visited.contains address then front
    else
      let front := { front with visited := address :: front.visited }
      match program[address]? with
      | none => { front with done := true }
      | some (.read cls after) => { front with waiting := ⟨cls, after⟩ :: front.waiting }
      | some (.jump after) => front.visit program previous next fuel after
      | some (.border after) =>
        if isBorder previous next then front.visit program previous next fuel after else front
      | some (.choice first second) =>
        (front.visit program previous next fuel first).visit program previous next fuel second

/-- The threads after the character `c`, where `next` comes next. -/
def Front.after (program : Array Instruction) (c : Char) (next : Option Char) (front : Front) :
    Front :=
  front.waiting.foldr (fun thread (front : Front) =>
    if thread.cls.contains c then
      front.visit program (some c) next (program.size + 1) thread.next
    else front) {}

/-- The end of the preferred match, where `taken` bytes were read and `best` is the end of the match
that is preferred so far. -/
def Front.matchEnd? (program : Array Instruction) :
    (taken : Nat) → (best : Option Nat) → Front → List Char → Option Nat
  | taken, best, front, text =>
    let best := if front.done then some taken else best
    match text with
    | [] => best
    | c :: cs =>
      if front.waiting.isEmpty then best
      else
        Front.matchEnd? program (taken + c.utf8Size) best (front.after program c cs.head?) cs

/-- The length in bytes of the match at the front of a text. -/
def Regex.matchLength? (r : Regex) (text : List Char) : Option Nat :=
  let program := r.program
  let front := Front.visit program none text.head? (program.size + 1) 0 {}
  front.matchEnd? program 0 none text

end Lode
