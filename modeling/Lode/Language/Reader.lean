/-
# Reading source units

The parser of the language and what its reductions build.  `Language.read` turns a text into the raw
tree of a unit.

A reduction finds nodes, texts, lists of nodes or nothing at its slots.  The label of its rule says
what it makes of them.
-/
import Lode.Language.Rules
import Lode.Parser
import Lode.Text.Number
import Lode.Tree.Sequence

namespace Lode.Language

/-- What a reduction builds. -/
inductive Piece where
  | node (n : Node)
  | text (s : String)
  | list (ns : List Node)
  | nothing

/-! ## 1. What stands at a slot -/

/-- What a reduction finds at its slots. -/
abbrev Slots := List (Child Piece)

namespace Slots

/-- The error for a slot that holds something else. -/
def wrong (index : Nat) (expected : String) : Error := (InternalProblem.childShape index expected).error

/-- The token at a slot. -/
def token (slots : Slots) (index : Nat) : Except Error Token :=
  match slots[index]? with
  | some (.token t) => .ok t
  | _ => .error (wrong index "token")

/-- The text of the token at a slot. -/
def tokenText (slots : Slots) (index : Nat) : Except Error Value :=
  (slots.token index).map fun t => .str t.text

/-- The piece at a slot. -/
def piece (slots : Slots) (index : Nat) : Except Error Piece :=
  match slots[index]? with
  | some (.value v) => .ok v
  | _ => .error (wrong index "value")

/-- The node at a slot. -/
def node (slots : Slots) (index : Nat) : Except Error Node := do
  match ← slots.piece index with
  | .node n => return n
  | _ => throw (wrong index "node")

/-- The node at a slot, as a value. -/
def child (slots : Slots) (index : Nat) : Except Error Value := (slots.node index).map .node

/-- The node at a slot that may hold nothing. -/
def node? (slots : Slots) (index : Nat) : Except Error (Option Node) := do
  match ← slots.piece index with
  | .node n => return some n
  | .nothing => return none
  | _ => throw (wrong index "optional node")

/-- The list at a slot. -/
def list (slots : Slots) (index : Nat) : Except Error (List Node) := do
  match ← slots.piece index with
  | .list ns => return ns
  | _ => throw (wrong index "list")

/-- The text at a slot that may hold nothing. -/
def text? (slots : Slots) (index : Nat) : Except Error (Option String) := do
  match ← slots.piece index with
  | .text s => return some s
  | .nothing => return none
  | _ => throw (wrong index "text")

end Slots

/-! ## 2. Literals -/

/-- The value of a number token. -/
def numberOf (token : Token) : Except Error Int :=
  match readLiteral? token.text with
  | some value => .ok value
  | none => .error ⟨.lex (.numberRange token.text), some token.span⟩

/-- The character of an escape token. -/
def escapeOf (token : Token) : Except Error Char :=
  match token.text.toList.drop 1 with
  | ['n'] => .ok '\n'
  | ['t'] => .ok '\t'
  | ['\\'] => .ok '\\'
  | ['"'] => .ok '"'
  | 'x' :: digits =>
    match readUnsigned? 16 256 digits with
    | some code => .ok (Char.ofNat code)
    | none => .error ⟨.lex (.invalidEscape token.text), some token.span⟩
  | _ => .error ⟨.lex (.invalidEscape token.text), some token.span⟩

/-- A string with the token after it. -/
def appendPiece (text : String) (token : Token) : Except Error String :=
  if token.kind == .kind "ESCAPE" then (escapeOf token).map text.push
  else .ok (text ++ token.text)

/-! ## 3. Building -/

/-- What a labelled rule builds from its slots. -/
def buildLabelled (label : String) (span : Span) (c : Slots) : Except Error Piece := do
  let node (tag : Tag) (attributes : List (String × Value)) : Piece :=
    .node (.build tag span attributes)
  match label with
  | "unit" =>
    let items ← c.list 0
    return .node ((Node.build .unit span []).set? "body"
      ((Node.sequence .items items none).map .node))
  | "empty_list" => return .list []
  | "singleton" => return .list [← c.node 0]
  | "append" =>
    let front ← c.list 0
    return .list (front ++ [← c.node 1])
  | "append_sep" =>
    let front ← c.list 0
    return .list (front ++ [← c.node 2])
  | "nothing" => return .nothing
  | "second" => return .node (← c.node 1)
  | "text" => return .text (← c.token 0).text
  | "use" => return node .use [("name", ← c.tokenText 1)]
  | "constant" =>
    return node .constant [("name", ← c.tokenText 1), ("ty", ← c.child 3), ("value", ← c.child 5)]
  | "let" =>
    let name ← c.tokenText 2
    let storage ← c.text? 1
    let declared := Node.build .letDecl span
      [("name", name), ("ty", ← c.child 4), ("value", ← c.child 6)]
    return .node (declared.set? "storage" (storage.map .str))
  | "fun" =>
    let name ← c.tokenText 1
    let params ← c.list 3
    let result ← c.node? 5
    let body ← c.list 6
    return .node <| (((Node.build .function span [("name", name)]).set? "params"
      ((Node.sequence .params params none).map .node)).set? "ret" (result.map .node)).set? "body"
      ((Node.sequence .stmts body none).map .node)
  | "param" => return node .param [("name", ← c.tokenText 0), ("ty", ← c.child 2)]
  | "set" => return node .set [("lvalue", ← c.child 0), ("rvalue", ← c.child 2)]
  | "return" =>
    let value ← if 1 < c.length then (c.child 1).map some else pure none
    return .node ((Node.build .ret span []).set? "value" value)
  | "ident" => return node .ident [("name", ← c.tokenText 0)]
  | "deref" => return node .deref [("target", ← c.child 1)]
  | "type_name" => return node .typeName [("name", ← c.tokenText 0)]
  | "type_ref" => return node .typeRef [("target", ← c.child 1)]
  | "binop" =>
    return node .binop [("op", ← c.tokenText 1), ("lhs", ← c.child 0), ("rhs", ← c.child 2)]
  | "neg" => return node .neg [("operand", ← c.child 1)]
  | "paren" => return node .paren [("expr", ← c.child 1)]
  | "number" => return node .number [("value", .int (← numberOf (← c.token 0)))]
  | "member" => return node .member [("target", ← c.child 0), ("name", ← c.tokenText 2)]
  | "call" =>
    let target ← c.child 0
    let args ← c.list 2
    return .node ((Node.build .call span [("target", target)]).set? "args"
      ((Node.sequence .args args none).map .node))
  | "string" => return node .string [("value", .str ((← c.text? 1).getD ""))]
  | "string_empty" => return .text ""
  | "string_piece" =>
    let front ← c.text? 0
    return .text (← appendPiece (front.getD "") (← c.token 1))
  | other => throw (InternalProblem.unknownLabel other).error

/-- What a reduction builds.  A rule without a label hands on the value of its only slot. -/
def build (r : Reduction Piece) : Except Error Piece :=
  match r.label, r.children with
  | some label, children => buildLabelled label r.span children
  | none, [.value v] => .ok v
  | none, _ => .error (InternalProblem.unlabelledRule r.lhs).error

/-! ## 4. The parser -/

/-- The delimiters of source units. -/
def unitDelimiters : List (String × String) := [("(", ")"), ("fun", "endfun"), ("\"", "\"")]

/-- The delimiters of block comments. -/
def commentDelimiters : List (String × String) := [("/*", "*/")]

/-- The parser of the language: source units on the default channel, and block comments on theirs. -/
def parser : Except Error Parser := do
  let comments := Parser.ofTable (← commentTable) (.hidden commentChannel) commentDelimiters
  return (Parser.ofTable (← unitTable) .default unitDelimiters).withInner commentChannel comments

/-- A budget of steps for a text: every byte gives at most one token, and a bounded number of
reductions goes with each. -/
def stepBudget (text : String) : Nat := 64 * (text.utf8ByteSize + 4)

/-- The raw tree of a source text. -/
def read (text : String) : Except Error Node := do
  let p ← parser
  let (result, _, _) := p.parse lexer (stepBudget text) defaultMode
    (fun r (_ : Unit) => (build r, ())) (.ofText text) ()
  match ← result with
  | .node n => return n
  | _ => throw InternalProblem.programShape.error

end Lode.Language
