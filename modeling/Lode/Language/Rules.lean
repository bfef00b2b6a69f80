/-
# The rules of the language

The grammar of a source unit, and a second small grammar for block comments, which may be nested.
Precedences settle the ambiguity of expressions; a `return` without a value binds loosest, so an
expression after it is always taken as the returned value.  Labels name what a rule builds.
-/
import Lode.Grammar.Table
import Lode.Language.Lexis

namespace Lode.Language

/-! ## 1. Writing rules -/

/-- The slot for a kind of token. -/
def tok (kind : String) : Slot := .one (.token kind)

/-- The slot for a nonterminal. -/
def var (name : String) : Slot := .one (.nonterminal name)

/-- The slot for one of several kinds of tokens. -/
def tokens (kind : String) (others : List String) : Slot :=
  .choice (.token kind) (others.map Symbol.token)

/-- A rule whose value is that of its only slot. -/
def pass (lhs rhs : String) : Rule := { lhs := lhs, rhs := [var rhs] }

/-- A rule with a label. -/
def rule (lhs : String) (rhs : List Slot) (label : String) : Rule :=
  { lhs := lhs, rhs := rhs, label := some label }

/-- A rule with a label and a precedence. -/
def ranked (lhs : String) (rhs : List Slot) (label : String) (precedence : Nat) : Rule :=
  { lhs := lhs, rhs := rhs, label := some label, precedence := some precedence }

/-! ## 2. Precedences -/

/-- A `return` without a value. -/
def returnLevel : Nat := 1

/-- Sums and differences. -/
def sumLevel : Nat := 10

/-- Products. -/
def productLevel : Nat := 20

/-- Negation and dereference. -/
def unaryLevel : Nat := 30

/-- Members and calls. -/
def postfixLevel : Nat := 40

/-- Names, numbers, strings and brackets. -/
def atomLevel : Nat := 50

/-! ## 3. Source units -/

/-- The rules of declarations. -/
def itemRules : List Rule :=
  [rule "program" [var "item_list"] "unit",
    rule "item_list" [var "item_list", var "item"] "append",
    rule "item_list" [] "empty_list",
    rule "item" [tok "use", tok "IDENT"] "use",
    rule "item" [tok "constant", tok "IDENT", tok ":", var "type", tok "=", var "expr"] "constant",
    pass "item" "let_decl",
    rule "item" [tok "fun", tok "IDENT", tok "(", var "param_list", tok ")", var "ret",
      var "stmt_list", tok "endfun"] "fun",
    pass "param_list" "params",
    rule "param_list" [] "empty_list",
    rule "params" [var "param"] "singleton",
    rule "params" [var "params", tok ",", var "param"] "append_sep",
    rule "param" [tok "IDENT", tok ":", var "type"] "param",
    rule "ret" [] "nothing",
    rule "ret" [tok "->", var "type"] "second",
    rule "let_decl" [tok "let", var "storage", tok "IDENT", tok ":", var "type", tok "=",
      var "expr"] "let",
    rule "storage" [] "nothing",
    rule "storage" [tokens "mut" ["stash"]] "text"]

/-- The rules of statements. -/
def statementRules : List Rule :=
  [rule "stmt_list" [var "stmt_list", var "stmt"] "append",
    rule "stmt_list" [] "empty_list",
    pass "stmt" "let_decl",
    rule "stmt" [var "lvalue", tok "=", var "expr"] "set",
    pass "stmt" "call",
    ranked "stmt" [tok "return"] "return" returnLevel,
    rule "stmt" [tok "return", var "expr"] "return",
    rule "lvalue" [tok "IDENT"] "ident",
    rule "lvalue" [tok "@", var "address"] "deref",
    pass "address" "postfix",
    rule "address" [tok "NUMBER"] "number",
    rule "address" [tok "(", var "expr", tok ")"] "paren"]

/-- The rules of types. -/
def typeRules : List Rule :=
  [rule "type" [tokens "u8" typeNames] "type_name",
    rule "type" [tok "&", var "type"] "type_ref"]

/-- The rules of expressions. -/
def expressionRules : List Rule :=
  [ranked "expr" [var "expr", tokens "+" ["-"], var "expr"] "binop" sumLevel,
    ranked "expr" [var "expr", tok "*", var "expr"] "binop" productLevel,
    ranked "expr" [tok "-", var "expr"] "neg" unaryLevel,
    ranked "expr" [tok "@", var "expr"] "deref" unaryLevel,
    pass "expr" "postfix",
    ranked "expr" [tok "NUMBER"] "number" atomLevel,
    pass "expr" "string_lit",
    ranked "expr" [tok "(", var "expr", tok ")"] "paren" atomLevel,
    ranked "postfix" [tok "IDENT"] "ident" atomLevel,
    ranked "postfix" [var "postfix", tok ".", tok "IDENT"] "member" postfixLevel,
    pass "postfix" "call",
    ranked "call" [var "postfix", tok "(", var "arg_list", tok ")"] "call" postfixLevel,
    rule "arg_list" [] "empty_list",
    pass "arg_list" "args",
    rule "args" [var "expr"] "singleton",
    rule "args" [var "args", tok ",", var "expr"] "append_sep"]

/-- The rules of string literals, whose inside is read in a mode of its own. -/
def stringLiteralRules : List Rule :=
  [{ ranked "string_lit" [tok "\"", var "string_body", tok "\""] "string" atomLevel with
      mode := some defaultMode },
    { rule "string_body" [] "string_empty" with mode := some stringMode },
    { rule "string_body" [var "string_body", tokens "STRING_TEXT" ["ESCAPE"]] "string_piece" with
      mode := some stringMode }]

/-- The rules of a source unit. -/
def unitRules : List Rule :=
  itemRules ++ statementRules ++ typeRules ++ expressionRules ++ stringLiteralRules

/-- The rules of a block comment. -/
def blockCommentRules : List Rule :=
  [pass "comment" "block",
    { lhs := "block", rhs := [tok "/*", var "comment_body", tok "*/"], mode := some commentMode },
    { lhs := "comment_body", rhs := [], mode := some commentMode },
    { lhs := "comment_body"
      rhs := [var "comment_body", .choice (.token "COMMENT_TEXT") [.nonterminal "block"]]
      mode := some commentMode }]

/-! ## 4. Grammars and tables -/

/-- The grammar of a source unit. -/
def unitGrammar : Except Error Grammar := Grammar.ofRules "program" unitRules [.eof]

/-- The grammar of a block comment, which ends with its last token. -/
def commentGrammar : Except Error Grammar := Grammar.ofRules "comment" blockCommentRules [.empty]

/-- The tables of a source unit. -/
def unitTable : Except Error ParseTable := unitGrammar.bind ParseTable.ofGrammar

/-- The tables of a block comment. -/
def commentTable : Except Error ParseTable := commentGrammar.bind ParseTable.ofGrammar

end Lode.Language
