/-
# The tables of the language

What the tables of a source unit say, as far as expressions are concerned.  The tables are computed once, by
evaluation (`tables_facts`), and everything that is known of them is checked there: they have hundreds of
states, and no statement about them is proved by unfolding them a second time.

Three properties are checked, each of them a decidable statement about the rows.  The precedences are kept
in all states (`KeepsLevels`): a state in which an operator is complete shifts only operators that bind
tighter, and before an operator only what binds at least as tightly is reduced.  The mode of strings is that
of the inside of string literals (`KeepsStrings`): a quote leads into a literal or out of it, and nothing
else does.  And the way through a declaration `constant c: u8 = e` is the one that `Spot` lists
(`FollowsSpots`): a spot stands for the state after a row of symbols.

Section 6 says what the properties give for one entry of the tables, which is how they are used: nothing
behind this module looks at a row.

With the tables at hand a text is parsed as well (`sampleText`), and its tree is taken through the passes in
all of their orders.  What is proved of the archives of texts is therefore not about nothing.
-/
import Lode.Language.Reader
import Lode.Proofs.Except
import Lode.Proofs.Grammar.Coding
import Lode.Proofs.Grammar.Order
import Lode.Proofs.Pass.Topology

namespace Lode.Language

/-! ## 1. Precedences -/

/-- The operators between expressions, with their precedences. -/
def operators : List (String × Nat) := [("+", sumLevel), ("-", sumLevel), ("*", productLevel)]

/-- Whether the actions shift a kind of token. -/
def shiftsKind (actions : List (Terminal × Action)) (kind : String) : Bool :=
  match Sorted.find? (.kind kind) actions with
  | some (.shift _) => true
  | _ => false

/-- Whether an action keeps the precedences among the actions of a state. -/
def keepsLevels (g : Grammar) (actions : List (Terminal × Action)) : Terminal × Action → Bool
  | (t, .reduce id) =>
    match (g.rule id).precedence with
    | some level => operators.all fun (op, here) =>
        (t != .kind op || here ≤ level) &&
          ((g.rule id).rhs.getLast? != some (var "expr") || !shiftsKind actions op || level < here)
    | none => true
  | _ => true

/-- The tables keep the precedences. -/
def KeepsLevels (table : ParseTable) : Prop :=
  ∀ row ∈ table.rows.toList, ∀ entry ∈ row.actions, keepsLevels table.grammar row.actions entry = true

instance (table : ParseTable) : Decidable (KeepsLevels table) :=
  inferInstanceAs (Decidable (∀ row ∈ table.rows.toList, ∀ entry ∈ row.actions, _ = true))

/-! ## 2. Strings -/

/-- The kind of quotes. -/
def quote : Terminal := .kind "\""

/-- Whether the tables are inside a string literal in a state: a piece of its text may come next. -/
def insideString (table : ParseTable) (s : StateId) : Bool :=
  (table.action? s (.kind "STRING_TEXT")).isSome

/-- The mode inside string literals, and outside of them. -/
def modeWithin (inside : Bool) : String := if inside then stringMode else defaultMode

/-- Whether a state is inside a literal just as it is said to be.  If it has no mode of its own, then the
state from which it is reached is inside a literal as well, or neither is. -/
def keepsMode (table : ParseTable) (below inside : Bool) (target : StateId) : Bool :=
  insideString table target == inside &&
    match table.mode? target with
    | some mode => mode == modeWithin inside
    | none => inside == below

/-- Whether the entries of a state keep track of string literals. -/
def keepsStrings (table : ParseTable) (row : TableRow) : Bool :=
  let inside := (Sorted.find? (.kind "STRING_TEXT") row.actions).isSome
  row.actions.all (fun entry => entry.1 != .kind "invalid" &&
    match entry.2 with
    | .shift target => keepsMode table inside (inside != (entry.1 == quote)) target
    | .reduce id => inside == ((table.grammar.rule id).lhs == "string_body")
    | .accept _ => true) &&
  row.gotos.all fun entry => keepsMode table inside (entry.1 == "string_body") entry.2

/-- The tables keep track of string literals. -/
def KeepsStrings (table : ParseTable) : Prop := ∀ row ∈ table.rows.toList, keepsStrings table row = true

instance (table : ParseTable) : Decidable (KeepsStrings table) :=
  inferInstanceAs (Decidable (∀ row ∈ table.rows.toList, _ = true))

/-! ## 3. Spots -/

/-- What an operand is waited for: the value of a constant, brackets, the arguments of a call, or an
operator. -/
inductive Operand where
  | value | paren | argument | further | sum | product | neg | deref
deriving DecidableEq

/-- The precedence that an operand has to exceed. -/
def Operand.level : Operand → Nat
  | value | paren | argument | further => 0
  | sum => sumLevel
  | product | neg | deref => productLevel

/-- A state on the way through the declaration of a constant. -/
inductive Spot where
  /-- Before and after the parts of the declaration. -/
  | start | items | keyword | declared | colon | primitive | type | item
  /-- Before an operand, and after it. -/
  | operand (o : Operand) | after (o : Operand)
  /-- After the parts of expressions. -/
  | name | number | target | call | string | closed | dot | member | args | argList | called
  /-- In string literals. -/
  | quote | body | piece | unquoted
deriving DecidableEq

namespace Spot

/-- What is read up to the value of a constant. -/
def home : List Symbol :=
  [.nonterminal "item_list", .token "constant", .token "IDENT", .token ":", .nonterminal "type", .token "="]

/-- The symbols that are read up to a spot. -/
def row : Spot → List Symbol
  | start => []
  | items => home.take 1
  | keyword => home.take 2
  | declared => home.take 3
  | colon => home.take 4
  | primitive => home.take 4 ++ [.token "u8"]
  | type => home.take 5
  | item => [.nonterminal "item_list", .nonterminal "item"]
  | operand o => operandRow o
  | after o => operandRow o ++ [.nonterminal "expr"]
  | name => home ++ [.token "IDENT"]
  | number => home ++ [.token "NUMBER"]
  | target => home ++ [.nonterminal "postfix"]
  | call => home ++ [.nonterminal "call"]
  | string => home ++ [.nonterminal "string_lit"]
  | closed => home ++ [.token "(", .nonterminal "expr", .token ")"]
  | dot => home ++ [.nonterminal "postfix", .token "."]
  | member => home ++ [.nonterminal "postfix", .token ".", .token "IDENT"]
  | args => home ++ [.nonterminal "postfix", .token "(", .nonterminal "args"]
  | argList => home ++ [.nonterminal "postfix", .token "(", .nonterminal "arg_list"]
  | called => home ++ [.nonterminal "postfix", .token "(", .nonterminal "arg_list", .token ")"]
  | quote => home ++ [.token "\""]
  | body => home ++ [.token "\"", .nonterminal "string_body"]
  | piece => home ++ [.token "\"", .nonterminal "string_body", .token "STRING_TEXT"]
  | unquoted => home ++ [.token "\"", .nonterminal "string_body", .token "\""]
where
  /-- The symbols that are read up to an operand. -/
  operandRow : Operand → List Symbol
    | .value => home
    | .paren => home ++ [.token "("]
    | .argument => home ++ [.nonterminal "postfix", .token "("]
    | .further => home ++ [.nonterminal "postfix", .token "(", .nonterminal "args", .token ","]
    | .sum => home ++ [.nonterminal "expr", .token "+"]
    | .product => home ++ [.nonterminal "expr", .token "*"]
    | .neg => home ++ [.token "-"]
    | .deref => home ++ [.token "@"]

/-- Where a token leads. -/
def shift : Spot → String → Option Spot
  | items, "constant" => some keyword
  | keyword, "IDENT" => some declared
  | declared, ":" => some colon
  | colon, "u8" => some primitive
  | type, "=" => some (operand .value)
  | operand _, "IDENT" => some name
  | operand _, "NUMBER" => some number
  | operand _, "(" => some (operand .paren)
  | operand _, "-" => some (operand .neg)
  | operand _, "@" => some (operand .deref)
  | operand _, "\"" => some quote
  | after .paren, ")" => some closed
  | after o, "+" => if o.level < sumLevel then some (operand .sum) else none
  | after o, "-" => if o.level < sumLevel then some (operand .sum) else none
  | after o, "*" => if o.level < productLevel then some (operand .product) else none
  | target, "." => some dot
  | dot, "IDENT" => some member
  | target, "(" => some (operand .argument)
  | args, "," => some (operand .further)
  | argList, ")" => some called
  | body, "STRING_TEXT" => some piece
  | body, "ESCAPE" => some piece
  | body, "\"" => some unquoted
  | _, _ => none

/-- Where a nonterminal leads. -/
def goto : Spot → String → Option Spot
  | start, "item_list" => some items
  | colon, "type" => some type
  | items, "item" => some item
  | operand o, "expr" => some (after o)
  | operand _, "postfix" => some target
  | operand _, "call" => some call
  | operand _, "string_lit" => some string
  | operand .argument, "args" => some args
  | operand .argument, "arg_list" => some argList
  | quote, "string_body" => some body
  | _, _ => none

/-- The left-hand side, the length and the label of a rule. -/
structure Shape where
  lhs : String
  length : Nat
  label : Option String
deriving DecidableEq

/-- The shape of a rule. -/
def shapeOf (rule : Rule) : Shape := ⟨rule.lhs, rule.rhs.length, rule.label⟩

/-- The rule that is complete at a spot. -/
def completed : Spot → Option Shape
  | start => some ⟨"item_list", 0, some "empty_list"⟩
  | primitive => some ⟨"type", 1, some "type_name"⟩
  | item => some ⟨"item_list", 2, some "append"⟩
  | after .value => some ⟨"item", 6, some "constant"⟩
  | after .argument => some ⟨"args", 1, some "singleton"⟩
  | after .further => some ⟨"args", 3, some "append_sep"⟩
  | after .sum | after .product => some ⟨"expr", 3, some "binop"⟩
  | after .neg => some ⟨"expr", 2, some "neg"⟩
  | after .deref => some ⟨"expr", 2, some "deref"⟩
  | operand .argument => some ⟨"arg_list", 0, some "empty_list"⟩
  | args => some ⟨"arg_list", 1, none⟩
  | name => some ⟨"postfix", 1, some "ident"⟩
  | member => some ⟨"postfix", 3, some "member"⟩
  | call => some ⟨"postfix", 1, none⟩
  | called => some ⟨"call", 4, some "call"⟩
  | number => some ⟨"expr", 1, some "number"⟩
  | target | string => some ⟨"expr", 1, none⟩
  | closed => some ⟨"expr", 3, some "paren"⟩
  | quote => some ⟨"string_body", 0, some "string_empty"⟩
  | piece => some ⟨"string_body", 2, some "string_piece"⟩
  | unquoted => some ⟨"string_lit", 3, some "string"⟩
  | _ => none

/-- What may stand after an expression. -/
def closers : List Terminal := ["+", "-", "*", ")", ","].map .kind ++ [.eof]

/-- What may stand after an expression of which members can be taken and which can be called. -/
def openers : List Terminal := [".", "("].map .kind

/-- What may stand in a string literal. -/
def pieces : List Terminal := ["STRING_TEXT", "ESCAPE", "\""].map .kind

/-- The lookaheads before which the rule that is complete at a spot is reduced. -/
def lookaheads : Spot → List Terminal
  | start => [.kind "constant"]
  | primitive => [.kind "="]
  | item | after .value => [.eof]
  | after .argument | after .further => [.kind ",", .kind ")"]
  | operand .argument | args => [.kind ")"]
  | after .sum => closers.filter (· != .kind "*")
  | name | member | call | called => closers ++ openers
  | quote | piece => pieces
  | _ => closers

/-- The mode in which a spot reads, if it has one of its own. -/
def mode : Spot → Option String
  | operand _ | unquoted => some defaultMode
  | quote | piece => some stringMode
  | _ => none

/-- All kinds of operands. -/
def operands : List Operand := [.value, .paren, .argument, .further, .sum, .product, .neg, .deref]

/-- All spots. -/
def all : List Spot :=
  [start, items, keyword, declared, colon, primitive, type, item, name, number, target, call, string,
    closed, dot, member, args, argList, called, quote, body, piece, unquoted] ++
  operands.map operand ++ operands.map after

theorem mem_all (spot : Spot) : spot ∈ all := by
  cases spot with
  | operand o => cases o <;> decide
  | after o => cases o <;> decide
  | _ => decide

/-- The kinds of tokens on the way through a declaration. -/
def kinds : List String :=
  ["constant", "IDENT", ":", "u8", "=", "NUMBER", "(", ")", "+", "-", "*", "@", "\"", ".", ",",
    "STRING_TEXT", "ESCAPE"]

/-- The nonterminals on the way through a declaration. -/
def names : List String :=
  ["item_list", "item", "type", "expr", "postfix", "call", "string_lit", "args", "arg_list", "string_body"]

end Spot

/-! ## 4. Tables and spots -/

/-- The state after a row of symbols. -/
def stateAfter (table : ParseTable) : StateId → List Symbol → StateId
  | s, [] => s
  | s, .terminal t :: rest =>
    match table.action? s t with
    | some (.shift target) => stateAfter table target rest
    | _ => s
  | s, .nonterminal name :: rest =>
    match table.goto? s name with
    | some target => stateAfter table target rest
    | none => s

/-- The state of a spot. -/
def stateOf (table : ParseTable) (spot : Spot) : StateId := stateAfter table 0 spot.row

/-- Whether an action reduces a rule of the given shape. -/
def reducesShape (table : ParseTable) (shape : Spot.Shape) : Option Action → Bool
  | some (.reduce id) => Spot.shapeOf (table.grammar.rule id) == shape
  | _ => false

/-- Whether the tables do at a spot what is listed for it. -/
def followsSpot (table : ParseTable) (spot : Spot) : Bool :=
  let s := stateOf table spot
  Spot.kinds.all (fun kind => (spot.shift kind).all fun after =>
    table.action? s (.kind kind) == some (.shift (stateOf table after))) &&
  Spot.names.all (fun name => (spot.goto name).all fun after =>
    table.goto? s name == some (stateOf table after)) &&
  spot.completed.all (fun shape => spot.lookaheads.all fun t =>
    reducesShape table shape (table.action? s t)) &&
  table.mode? s == spot.mode

/-- The tables lead through a declaration from spot to spot, and accept it at its end. -/
def FollowsSpots (table : ParseTable) : Prop :=
  (∀ spot ∈ Spot.all, followsSpot table spot = true) ∧
    table.action? (stateOf table .items) .eof = some (.accept table.grammar.startRule) ∧
    Spot.shapeOf (table.grammar.rule table.grammar.startRule) = ⟨"program", 1, some "unit"⟩

instance (table : ParseTable) : Decidable (FollowsSpots table) :=
  inferInstanceAs (Decidable (_ ∧ _ ∧ _))

/-! ## 5. Evaluation -/

/-- The parser of the language with given tables. -/
def parserOf (comments table : ParseTable) : Parser :=
  (Parser.ofTable table .default unitDelimiters).withInner commentChannel
    (Parser.ofTable comments (.hidden commentChannel) commentDelimiters)

/-- A text with a bit of everything: a unit in use, a constant, and a function with a parameter, a local
variable that hides it, a dereference, and a call. -/
def sampleText : String :=
  "use mem constant k: u8 = 9 fun f(x: u8) let x: u8 = @mem.addr8(k) f(x) endfun"

/-- Whether a text has a raw tree, and this goes through all passes. -/
def accepted (comments table : ParseTable) (unit text : String) : Bool :=
  ((parserOf comments table).parse lexer (stepBudget text) defaultMode (fun r (_ : Unit) => (build r, ()))
    (.ofText text) ()).1.toOption.any fun
      | .node raw => Schedule.accepts unit text raw
      | _ => false

theorem unitTable_eq : unitTable = unitGrammar.bind ParseTable.evaluated :=
  congrArg unitGrammar.bind (funext fun g => (ParseTable.evaluated_eq g).symm)

theorem commentTable_eq : commentTable = commentGrammar.bind ParseTable.evaluated :=
  congrArg commentGrammar.bind (funext fun g => (ParseTable.evaluated_eq g).symm)

/-- The tables of the language and the tree of the sample, by evaluation. -/
theorem tables_facts : ((commentGrammar.bind ParseTable.evaluated).toOption.any fun comments =>
    (unitGrammar.bind ParseTable.evaluated).toOption.any fun table =>
      decide (KeepsLevels table ∧ KeepsStrings table ∧ FollowsSpots table) &&
        accepted comments table "demo" sampleText) = true := by
  decide +kernel

/-- **The tables of the language** have the three properties, and the sample goes through. -/
theorem exists_tables : ∃ comments table, commentTable = .ok comments ∧ unitTable = .ok table ∧
    (KeepsLevels table ∧ KeepsStrings table ∧ FollowsSpots table) ∧
    accepted comments table "demo" sampleText = true := by
  obtain ⟨comments, hcomments, hrest⟩ := exists_of_toOption_any tables_facts
  obtain ⟨table, htable, hfacts⟩ := exists_of_toOption_any hrest
  obtain ⟨hfacts, haccepted⟩ := Bool.and_eq_true_iff.mp hfacts
  exact ⟨comments, table, commentTable_eq.trans hcomments, unitTable_eq.trans htable,
    of_decide_eq_true hfacts, haccepted⟩

/-! ## 6. What follows -/

section Levels

variable {table : ParseTable} (h : KeepsLevels table) {s : StateId} {t : Terminal} {id : RuleId}
  {level here : Nat} {op : String}
include h

theorem KeepsLevels.entry (haction : table.action? s t = some (.reduce id)) : ∃ row,
    table.rows[s]? = some row ∧ keepsLevels table.grammar row.actions (t, .reduce id) = true := by
  obtain ⟨row, hrow, hfind⟩ := Option.bind_eq_some_iff.mp haction
  exact ⟨row, hrow, h row (Array.mem_toList_iff.mpr (Array.mem_of_getElem? hrow)) _
    (Sorted.mem_of_find? hfind)⟩

/-- Before an operator only what binds at least as tightly is reduced. -/
theorem KeepsLevels.reduce (haction : table.action? s (.kind op) = some (.reduce id))
    (hlevel : (table.grammar.rule id).precedence = some level) (hop : (op, here) ∈ operators) :
    here ≤ level := by
  obtain ⟨row, -, hkeeps⟩ := h.entry haction
  simp only [keepsLevels, hlevel, List.all_eq_true, Bool.and_eq_true] at hkeeps
  simpa using (hkeeps _ hop).1

/-- Where an operator is complete, only operators that bind tighter are shifted. -/
theorem KeepsLevels.shift (haction : table.action? s t = some (.reduce id))
    (hlevel : (table.grammar.rule id).precedence = some level)
    (hlast : (table.grammar.rule id).rhs.getLast? = some (var "expr")) (hop : (op, here) ∈ operators)
    {target : StateId} (hshift : table.action? s (.kind op) = some (.shift target)) : level < here := by
  obtain ⟨row, hrow, hkeeps⟩ := h.entry haction
  have hshifts : shiftsKind row.actions op = true := by
    rw [ParseTable.action?, hrow, Option.bind_some] at hshift
    rw [shiftsKind, hshift]
  simp only [keepsLevels, hlevel, List.all_eq_true, Bool.and_eq_true] at hkeeps
  simpa [hlast, hshifts] using (hkeeps _ hop).2

end Levels

section Strings

variable {table : ParseTable} (h : KeepsStrings table) {s target : StateId} {t : Terminal} {id : RuleId}
include h

theorem KeepsStrings.entry {action : Action} (haction : table.action? s t = some action) : ∃ row,
    table.rows[s]? = some row ∧ (t, action) ∈ row.actions ∧ keepsStrings table row = true ∧
      (Sorted.find? (.kind "STRING_TEXT") row.actions).isSome = insideString table s := by
  obtain ⟨row, hrow, hfind⟩ := Option.bind_eq_some_iff.mp haction
  refine ⟨row, hrow, Sorted.mem_of_find? hfind, h row (Array.mem_toList_iff.mpr (Array.mem_of_getElem? hrow)), ?_⟩
  rw [insideString, ParseTable.action?, hrow, Option.bind_some]

/-- No state goes on with a character that begins no token. -/
theorem KeepsStrings.valid {action : Action} (haction : table.action? s t = some action) :
    t ≠ .kind "invalid" := by
  obtain ⟨row, -, hmem, hkeeps, -⟩ := h.entry haction
  simp only [keepsStrings, Bool.and_eq_true, List.all_eq_true] at hkeeps
  simpa using (hkeeps.1 _ hmem).1

/-- A quote leads into a literal or out of it. -/
theorem KeepsStrings.shift (haction : table.action? s t = some (.shift target)) :
    keepsMode table (insideString table s) (insideString table s != (t == quote)) target = true := by
  obtain ⟨row, -, hmem, hkeeps, hinside⟩ := h.entry haction
  simp only [keepsStrings, Bool.and_eq_true, List.all_eq_true, hinside] at hkeeps
  exact (hkeeps.1 _ hmem).2

/-- What is reduced inside a literal is its text. -/
theorem KeepsStrings.reduce (haction : table.action? s t = some (.reduce id)) :
    insideString table s = ((table.grammar.rule id).lhs == "string_body") := by
  obtain ⟨row, -, hmem, hkeeps, hinside⟩ := h.entry haction
  simp only [keepsStrings, Bool.and_eq_true, List.all_eq_true, hinside] at hkeeps
  exact eq_of_beq (hkeeps.1 _ hmem).2

/-- After its text the parser is inside a literal. -/
theorem KeepsStrings.goto {name : String} (hgoto : table.goto? s name = some target) :
    keepsMode table (insideString table s) (name == "string_body") target = true := by
  obtain ⟨row, hrow, hfind⟩ := Option.bind_eq_some_iff.mp hgoto
  have hkeeps := h row (Array.mem_toList_iff.mpr (Array.mem_of_getElem? hrow))
  have hinside : (Sorted.find? (.kind "STRING_TEXT") row.actions).isSome = insideString table s := by
    rw [insideString, ParseTable.action?, hrow, Option.bind_some]
  simp only [keepsStrings, Bool.and_eq_true, List.all_eq_true, hinside] at hkeeps
  exact hkeeps.2 _ (Sorted.mem_of_find? hfind)

end Strings

section Spots

variable {table : ParseTable} (h : FollowsSpots table) {spot next : Spot}
include h

theorem FollowsSpots.shift {kind : String} (hmove : spot.shift kind = some next)
    (hkind : kind ∈ Spot.kinds) :
    table.action? (stateOf table spot) (.kind kind) = some (.shift (stateOf table next)) := by
  have hspot := h.1 spot spot.mem_all
  simp only [followsSpot, Bool.and_eq_true, List.all_eq_true] at hspot
  simpa [hmove] using hspot.1.1.1 kind hkind

theorem FollowsSpots.goto {name : String} (hmove : spot.goto name = some next)
    (hname : name ∈ Spot.names) :
    table.goto? (stateOf table spot) name = some (stateOf table next) := by
  have hspot := h.1 spot spot.mem_all
  simp only [followsSpot, Bool.and_eq_true, List.all_eq_true] at hspot
  simpa [hmove] using hspot.1.1.2 name hname

/-- At a spot with a complete rule this rule is reduced. -/
theorem FollowsSpots.reduce {shape : Spot.Shape} (hshape : spot.completed = some shape) {t : Terminal}
    (ht : t ∈ spot.lookaheads) : ∃ id, table.action? (stateOf table spot) t = some (.reduce id) ∧
      Spot.shapeOf (table.grammar.rule id) = shape := by
  have hspot := h.1 spot spot.mem_all
  simp only [followsSpot, Bool.and_eq_true, List.all_eq_true, hshape, Option.all_some] at hspot
  have hreduces := hspot.1.2 t ht
  unfold reducesShape at hreduces
  split at hreduces
  · rename_i id haction
    exact ⟨id, haction, eq_of_beq hreduces⟩
  · cases hreduces

theorem FollowsSpots.mode (spot : Spot) : table.mode? (stateOf table spot) = spot.mode := by
  have hspot := h.1 spot spot.mem_all
  simp only [followsSpot, Bool.and_eq_true, beq_iff_eq] at hspot
  exact hspot.2

end Spots

end Lode.Language
