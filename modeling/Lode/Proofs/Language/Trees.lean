/-
# The trees of texts

Every reduction of the language builds the tree of a written part of a program, if it finds such trees at
its slots (`built_reduction`); only a literal may turn out to be unreadable.  So the tree of every text that
can be read is that of a written program (`read_written`).  Later passes are about programs, and this is
where the trees of texts become such: nothing behind this module has to ask whether a tree has the
attributes that its tag calls for.

What stands for a nonterminal is said by its name (`Shaped`): a list of items for `item_list`, an expression
for `expr`, and so on.  A rule is right if it makes a piece of the shape of its left-hand side of pieces of
the shapes of its slots (`Makes`), and there is one lemma for each rule of the grammar.  The four rules of
lists are proved once for all kinds of elements (`Lists`), and rules that only hand on a value once for all
of them (`makes_pass`).

The grammar also says what is assigned to: names and dereferences.  This is kept along with the shape of
statements, since later passes rely on it (`read_assigns`).

What a run keeps on its stack is good as long as every rule is right (`respects`), and what an accepting run
ends with is the piece of the start symbol (`drive_good`).
-/
import Lode.Proofs.Language.Operators
import Lode.Proofs.Parser.Soundness
import Lode.Proofs.Program.Written

namespace Lode.Parser

variable {V σ : Type} {g : Grammar} {a : Automaton} {lexer : Lexer} {p : Parser} {base : String}
  {build : Builder V σ} {good : Grown V → Prop}

/-- The value of an accepting run is good. -/
theorem drive_good {paths : List PathRule} (m : ParseTable.Made g p.table a paths)
    (hstart : .nonterminal g.start ∉ Grammar.rhsSymbols g.rules)
    (hempty : .terminal .empty ∉ Grammar.rhsSymbols g.rules)
    (hrespects : Respects g lexer build good) : ∀ (fuel : Nat) {run : Run V} {state : σ}
    {row : List (Grown V)}, Stands a good run row →
    ∀ {v}, (drive lexer fuel p base build run state).1 = .ok v → good (.value g.start v)
  | 0, run, state, row, _, v, hdrive => by simp [drive] at hdrive
  | fuel + 1, run, state, row, h, v, hdrive => by
    have hout : Outcome g a lexer (delegateWith lexer fuel) p base build good run state row _ :=
      step_outcome m hstart hempty h state
    rw [drive_succ] at hdrive
    cases hstep : step (delegateWith lexer fuel) lexer p base build run state with
    | stopped result stream1 state1 =>
      rw [hstep] at hout hdrive
      obtain rfl : result = .ok v := hdrive
      cases hout with
      | @accept look stream stream' new r parts _ _ hsees hrow hred _ hid hbuild hends =>
        have hlhs : r.lhs = g.start := by rw [hred.lhs, hid, m.proper.lhs_startRule]
        rw [← hlhs]
        exact hrespects.value hred (fun c hc => h.all_good c (by simp [hrow, hc])) hbuild
    | running run1 state1 =>
      rw [hstep] at hout hdrive
      obtain ⟨row1, _, _, h1, _⟩ := hout.running hrespects h
      exact drive_good m hstart hempty hrespects fuel h1 hdrive

end Lode.Parser

namespace Lode.Language

open Program

/-! ## 1. What stands for the nonterminals -/

/-- A piece that stands for a nonterminal is the tree of a written part of a program. -/
def Shaped (name : String) (v : Piece) : Prop :=
  match name with
  | "program" => ∃ p : Program, (p.Written ∧ p.Assigns) ∧ v = .node p.node
  | "item_list" => ∃ items : List Program.Item, (∀ i ∈ items, i.Written ∧ i.Assigns) ∧
      v = .list (items.map Program.Item.node)
  | "item" => ∃ i : Program.Item, (i.Written ∧ i.Assigns) ∧ v = .node i.node
  | "param_list" | "params" => ∃ params : List Param, (∀ p ∈ params, p.Written) ∧
      v = .list (params.map Param.node)
  | "param" => ∃ p : Param, p.Written ∧ v = .node p.node
  | "ret" => ∃ t : Option TypeExpr, v = t.elim .nothing fun t => .node t.node
  | "let_decl" => ∃ d : Let, d.Written ∧ v = .node d.node
  | "storage" => ∃ s : Option String, v = s.elim .nothing .text
  | "stmt_list" => ∃ stmts : List Stmt, (∀ s ∈ stmts, s.Written ∧ s.Assigns) ∧
      v = .list (stmts.map Stmt.node)
  | "stmt" => ∃ s : Stmt, (s.Written ∧ s.Assigns) ∧ v = .node s.node
  | "type" => ∃ t : TypeExpr, t.Written ∧ v = .node t.node
  | "lvalue" => ∃ e : Expr, (e.Written ∧ e.isAssignable = true) ∧ v = .node e.node
  | "address" | "expr" | "string_lit" => ∃ e : Expr, e.Written ∧ v = .node e.node
  | "postfix" | "call" => ∃ e : Expr, (e.isPostfix = true ∧ e.Written) ∧ v = .node e.node
  | "arg_list" | "args" => ∃ args : List Expr, (∀ e ∈ args, e.Written) ∧ v = .list (args.map Expr.node)
  | "string_body" => ∃ s : String, v = .text s
  | _ => True

/-- Names and numbers have their characters, and values have the shape of their nonterminals. -/
def Good : Grown Piece → Prop
  | .token t => Lexeme t
  | .value name v => Shaped name v

/-! ## 2. What stands at the slots of a rule -/

/-- Good parts at slots. -/
inductive Filled : List Slot → List (Child Piece) → Prop
  | nil : Filled [] []
  | cons {slot : Slot} {slots : List Slot} {c : Grown Piece} {children : List (Child Piece)} :
      c.symbol ∈ slot.symbols → Good c → Filled slots children →
      Filled (slot :: slots) (c.child :: children)

/-- Good parts for the symbols of the slots fill them. -/
theorem filled_of_expands : ∀ {slots : List Slot} {parts : List (Grown Piece)},
    List.Forall₂ (fun slot X => X ∈ slot.symbols) slots (parts.map Grown.symbol) →
    (∀ c ∈ parts, Good c) → Filled slots (parts.map Grown.child)
  | [], [], _, _ => .nil
  | slot :: slots, c :: parts, h, hgood => by
    obtain ⟨hc, hrest⟩ := List.forall₂_cons.mp h
    obtain ⟨hgoodc, hgood⟩ := List.forall_mem_cons.mp hgood
    exact .cons hc hgoodc (filled_of_expands hrest hgood)

namespace Filled

variable {slots : List Slot} {children : List (Child Piece)}

theorem eq_nil (h : Filled [] children) : children = [] := by cases h; rfl

/-- At a slot for a nonterminal there is a value of its shape. -/
theorem value {name : String} (h : Filled (var name :: slots) children) :
    ∃ v rest, children = .value v :: rest ∧ Shaped name v ∧ Filled slots rest := by
  cases h with
  | @cons _ _ c rest hc hgood hrest =>
    have hc : c.symbol = .nonterminal name := List.mem_singleton.mp hc
    cases c with
    | token t => cases hc
    | value name' v =>
      obtain rfl := Symbol.nonterminal.inj hc
      exact ⟨v, rest, rfl, hgood, hrest⟩

/-- At a slot for a kind of token there is a token of that kind. -/
theorem token {kind : String} (h : Filled (tok kind :: slots) children) :
    ∃ t rest, children = .token t :: rest ∧ t.kind = .kind kind ∧ Lexeme t ∧ Filled slots rest := by
  cases h with
  | @cons _ _ c rest hc hgood hrest =>
    have hc : c.symbol = .terminal (.kind kind) := List.mem_singleton.mp hc
    cases c with
    | token t =>
      exact ⟨t, rest, rfl, Symbol.terminal.inj hc, hgood, hrest⟩
    | value name' v => cases hc

/-- At a slot for several kinds of tokens there is a token. -/
theorem anyToken {slot : Slot} (hslot : ∀ X ∈ slot.symbols, X.nonterminal? = none)
    (h : Filled (slot :: slots) children) : ∃ t rest, children = .token t :: rest ∧ Filled slots rest := by
  cases h with
  | @cons _ _ c rest hc _ hrest =>
    cases c with
    | token t => exact ⟨t, rest, rfl, hrest⟩
    | value name v => cases hslot _ hc

end Filled

/-! ## 3. What rules build -/

/-- A value of the right shape, or an error of a token that cannot be read. -/
inductive Built (shaped : Piece → Prop) : Except Error Piece → Prop
  | ok {v : Piece} : shaped v → Built shaped (.ok v)
  | unreadable {e : Error} : e.kind = .lex → Built shaped (.error e)

theorem Built.bind {α : Type} {shaped : Piece → Prop} {read : Except Error α} {f : α → Except Error Piece}
    (herror : ∀ {e}, read = .error e → e.kind = .lex) (hok : ∀ a, read = .ok a → Built shaped (f a)) :
    Built shaped (read >>= f) := by
  cases read with
  | error e => exact .unreadable (herror rfl)
  | ok a => exact hok a rfl

/-- What a rule builds from good parts has the shape of its left-hand side. -/
def Makes (rule : Rule) : Prop :=
  ∀ r : Reduction Piece, r.label = rule.label → Filled rule.rhs r.children →
    Built (Shaped rule.lhs) (build r)

/-- A rule that hands on a value. -/
theorem makes_pass {lhs rhs : String} (h : ∀ v, Shaped rhs v → Shaped lhs v) : Makes (pass lhs rhs) := by
  intro r hlabel hfilled
  obtain ⟨w, rest, hchildren, hshaped, hrest⟩ := hfilled.value
  rw [hrest.eq_nil] at hchildren
  simp only [build, show r.label = none from hlabel, hchildren]
  exact .ok (h w hshaped)

/-- A rule with a label. -/
theorem makes_of_label {rule : Rule} {label : String} (hrule : rule.label = some label)
    (h : ∀ (span : Span) (children : List (Child Piece)), Filled rule.rhs children →
      Built (Shaped rule.lhs) (buildLabelled label span children)) : Makes rule := by
  intro r hlabel hfilled
  simp only [build, hlabel.trans hrule]
  exact h r.span r.children hfilled

section Lists

/-- What stands for a nonterminal of lists, and for one of their elements. -/
structure Lists {α : Type} (node : α → Node) (good : α → Prop) (lists elements : String) : Prop where
  list : ∀ v, Shaped lists v ↔ ∃ l : List α, (∀ a ∈ l, good a) ∧ v = .list (l.map node)
  element : ∀ v, Shaped elements v ↔ ∃ a, good a ∧ v = .node (node a)

variable {α : Type} {node : α → Node} {good : α → Prop} {lists elements : String}
  (h : Lists node good lists elements)
include h

theorem makes_emptyList : Makes (rule lists [] "empty_list") :=
  makes_of_label rfl fun _ _ _ => .ok ((h.list _).mpr ⟨[], by simp, rfl⟩)

/-- A list of one element. -/
theorem makes_singleton : Makes (rule lists [var elements] "singleton") :=
  makes_of_label rfl fun span children hfilled => by
    obtain ⟨w, _, rfl, hw, hrest⟩ := hfilled.value
    obtain ⟨a, ha, rfl⟩ := (h.element w).mp hw
    obtain rfl := hrest.eq_nil
    exact .ok ((h.list _).mpr ⟨[a], by simpa using ha, rfl⟩)

theorem shaped_append {l : List α} {a : α} (hl : ∀ a ∈ l, good a) (ha : good a) :
    Shaped lists (.list (l.map node ++ [node a])) := by
  refine (h.list _).mpr ⟨l ++ [a], List.forall_mem_append.mpr ⟨hl, by simpa using ha⟩, ?_⟩
  rw [List.map_append]
  rfl

/-- A list that goes on. -/
theorem makes_append : Makes (rule lists [var lists, var elements] "append") :=
  makes_of_label rfl fun span children hfilled => by
    obtain ⟨front, _, rfl, hfront, h1⟩ := hfilled.value
    obtain ⟨w, _, rfl, hw, hrest⟩ := h1.value
    obtain ⟨l, hl, rfl⟩ := (h.list front).mp hfront
    obtain ⟨a, ha, rfl⟩ := (h.element w).mp hw
    obtain rfl := hrest.eq_nil
    exact .ok (shaped_append h hl ha)

/-- A list that goes on behind a comma. -/
theorem makes_appendSep : Makes (rule lists [var lists, tok ",", var elements] "append_sep") :=
  makes_of_label rfl fun span children hfilled => by
    obtain ⟨front, _, rfl, hfront, h1⟩ := hfilled.value
    obtain ⟨_, _, rfl, -, -, h2⟩ := h1.token
    obtain ⟨w, _, rfl, hw, hrest⟩ := h2.value
    obtain ⟨l, hl, rfl⟩ := (h.list front).mp hfront
    obtain ⟨a, ha, rfl⟩ := (h.element w).mp hw
    obtain rfl := hrest.eq_nil
    exact .ok (shaped_append h hl ha)

end Lists

theorem lists_items : Lists Program.Item.node (fun i => i.Written ∧ i.Assigns) "item_list" "item" :=
  ⟨fun _ => .rfl, fun _ => .rfl⟩

theorem lists_params : Lists Param.node Param.Written "params" "param" := ⟨fun _ => .rfl, fun _ => .rfl⟩

theorem lists_stmts : Lists Stmt.node (fun s => s.Written ∧ s.Assigns) "stmt_list" "stmt" :=
  ⟨fun _ => .rfl, fun _ => .rfl⟩

theorem lists_args : Lists Expr.node Expr.Written "args" "expr" := ⟨fun _ => .rfl, fun _ => .rfl⟩

/-! ## 4. Items -/

theorem makes_unit : Makes (rule "program" [var "item_list"] "unit") :=
  makes_of_label rfl fun span children hfilled => by
    obtain ⟨_, _, rfl, ⟨items, hitems, rfl⟩, hrest⟩ := hfilled.value
    obtain rfl := hrest.eq_nil
    refine .ok ⟨⟨Items.ofList items, {}, span⟩, ⟨⟨fun i hi => ?_, rfl⟩, fun i hi => ?_⟩, ?_⟩
    · rw [Items.map_fst_ofList] at hi
      exact (hitems i hi).1
    · rw [Items.map_fst_ofList] at hi
      exact (hitems i hi).2
    rw [Items.sequence_eq]
    cases items <;> rfl

theorem makes_use : Makes (rule "item" [tok "use", tok "IDENT"] "use") :=
  makes_of_label rfl fun span children hfilled => by
    obtain ⟨_, _, rfl, -, -, h1⟩ := hfilled.token
    obtain ⟨t, _, rfl, hkind, ht, hrest⟩ := h1.token
    obtain rfl := hrest.eq_nil
    exact .ok ⟨.use t.text span, ⟨ht.name hkind, trivial⟩, rfl⟩

theorem makes_constant : Makes (rule "item"
    [tok "constant", tok "IDENT", tok ":", var "type", tok "=", var "expr"] "constant") :=
  makes_of_label rfl fun span children hfilled => by
    obtain ⟨_, _, rfl, -, -, h1⟩ := hfilled.token
    obtain ⟨t, _, rfl, hkind, ht, h2⟩ := h1.token
    obtain ⟨_, _, rfl, -, -, h3⟩ := h2.token
    obtain ⟨_, _, rfl, ⟨ty, -, rfl⟩, h4⟩ := h3.value
    obtain ⟨_, _, rfl, -, -, h5⟩ := h4.token
    obtain ⟨_, _, rfl, ⟨e, he, rfl⟩, hrest⟩ := h5.value
    obtain rfl := hrest.eq_nil
    exact .ok ⟨.constant t.text ty e none span, ⟨⟨ht.name hkind, he, rfl⟩, trivial⟩, rfl⟩

theorem makes_function : Makes (rule "item" [tok "fun", tok "IDENT", tok "(", var "param_list", tok ")",
    var "ret", var "stmt_list", tok "endfun"] "fun") :=
  makes_of_label rfl fun span children hfilled => by
    obtain ⟨_, _, rfl, -, -, h1⟩ := hfilled.token
    obtain ⟨t, _, rfl, hkind, ht, h2⟩ := h1.token
    obtain ⟨_, _, rfl, -, -, h3⟩ := h2.token
    obtain ⟨_, _, rfl, ⟨params, hparams, rfl⟩, h4⟩ := h3.value
    obtain ⟨_, _, rfl, -, -, h5⟩ := h4.token
    obtain ⟨_, _, rfl, ⟨result, rfl⟩, h6⟩ := h5.value
    obtain ⟨_, _, rfl, ⟨stmts, hstmts, rfl⟩, h7⟩ := h6.value
    obtain ⟨_, _, rfl, -, -, hrest⟩ := h7.token
    obtain rfl := hrest.eq_nil
    suffices hshaped : Shaped "item" (.node ((((Node.build .function span [("name", .str t.text)]).set?
        "params" ((Node.sequence .params (params.map Param.node) none).map .node)).set? "ret"
          ((result.map TypeExpr.node).map .node)).set? "body"
            ((Node.sequence .stmts (stmts.map Stmt.node) none).map .node))) by
      cases result <;> exact .ok hshaped
    refine ⟨.function ⟨t.text, Params.ofList params, result, Stmts.nil.prepend stmts, none, none, none, {},
      span⟩, ⟨⟨ht.name hkind, by rwa [Params.map_fst_ofList], fun s hs => (hstmts s ?_).1, rfl, rfl, rfl, rfl⟩,
      fun s hs => (hstmts s ?_).2⟩, ?_⟩
    · simpa [Stmts.toList] using hs
    · simpa [Stmts.toList] using hs
    have hstmts := Stmts.nil.sequence_eq stmts
    rw [show (Stmts.nil).node? = none from rfl] at hstmts
    rw [Params.sequence_eq, hstmts]
    cases params <;> cases result <;> cases stmts <;> rfl

theorem makes_param : Makes (rule "param" [tok "IDENT", tok ":", var "type"] "param") :=
  makes_of_label rfl fun span children hfilled => by
    obtain ⟨t, _, rfl, hkind, ht, h1⟩ := hfilled.token
    obtain ⟨_, _, rfl, -, -, h2⟩ := h1.token
    obtain ⟨_, _, rfl, ⟨ty, -, rfl⟩, hrest⟩ := h2.value
    obtain rfl := hrest.eq_nil
    exact .ok ⟨⟨t.text, ty, none, span⟩, ⟨ht.name hkind, rfl⟩, rfl⟩

theorem makes_noResult : Makes (rule "ret" [] "nothing") :=
  makes_of_label rfl fun _ _ _ => .ok ⟨none, rfl⟩

theorem makes_result : Makes (rule "ret" [tok "->", var "type"] "second") :=
  makes_of_label rfl fun span children hfilled => by
    obtain ⟨_, _, rfl, -, -, h1⟩ := hfilled.token
    obtain ⟨_, _, rfl, ⟨ty, -, rfl⟩, hrest⟩ := h1.value
    obtain rfl := hrest.eq_nil
    exact .ok ⟨some ty, rfl⟩

theorem makes_let : Makes (rule "let_decl" [tok "let", var "storage", tok "IDENT", tok ":", var "type",
    tok "=", var "expr"] "let") :=
  makes_of_label rfl fun span children hfilled => by
    obtain ⟨_, _, rfl, -, -, h1⟩ := hfilled.token
    obtain ⟨_, _, rfl, ⟨storage, rfl⟩, h2⟩ := h1.value
    obtain ⟨t, _, rfl, hkind, ht, h3⟩ := h2.token
    obtain ⟨_, _, rfl, -, -, h4⟩ := h3.token
    obtain ⟨_, _, rfl, ⟨ty, hty, rfl⟩, h5⟩ := h4.value
    obtain ⟨_, _, rfl, -, -, h6⟩ := h5.token
    obtain ⟨_, _, rfl, ⟨e, he, rfl⟩, hrest⟩ := h6.value
    obtain rfl := hrest.eq_nil
    have hshaped : Shaped "let_decl" (.node (Let.node ⟨t.text, storage, ty, e, none, none, none, span⟩)) :=
      ⟨⟨t.text, storage, ty, e, none, none, none, span⟩, ⟨ht.name hkind, hty, he, rfl, rfl, rfl⟩, rfl⟩
    cases storage <;> exact .ok hshaped

theorem makes_noStorage : Makes (rule "storage" [] "nothing") :=
  makes_of_label rfl fun _ _ _ => .ok ⟨none, rfl⟩

/-- At a slot for kinds of tokens there is no nonterminal. -/
theorem nonterminal?_tokens {kind : String} {others : List String} :
    ∀ X ∈ (tokens kind others).symbols, X.nonterminal? = none := by
  have hmem : ∀ X ∈ (tokens kind others).symbols, X ∈ Symbol.token kind :: others.map Symbol.token := by
    intro X hX
    unfold tokens Slot.choice Slot.ofList? at hX
    split at hX
    · exact Sorted.mem_ofList.mp hX
    · exact List.mem_cons.mpr (.inl (List.mem_singleton.mp hX))
  intro X hX
  rcases List.mem_cons.mp (hmem X hX) with rfl | hX
  · rfl
  · obtain ⟨other, -, rfl⟩ := List.mem_map.mp hX
    rfl

theorem makes_storage : Makes (rule "storage" [tokens "mut" ["stash"]] "text") :=
  makes_of_label rfl fun span children hfilled => by
    obtain ⟨t, _, rfl, hrest⟩ := hfilled.anyToken nonterminal?_tokens
    obtain rfl := hrest.eq_nil
    exact .ok ⟨some t.text, rfl⟩

/-- **The rules of items.** -/
theorem makes_items : ∀ r ∈ itemRules, Makes r := by
  simp only [itemRules, List.forall_mem_cons, List.not_mem_nil, false_implies, implies_true, and_true]
  exact ⟨makes_unit, makes_append lists_items, makes_emptyList lists_items, makes_use, makes_constant,
    makes_pass (by rintro _ ⟨d, hd, hv⟩; exact ⟨.global (.decl d), ⟨hd, trivial⟩, hv⟩), makes_function,
    makes_pass fun _ h => h, makes_emptyList ⟨fun _ => .rfl, lists_params.element⟩,
    makes_singleton lists_params, makes_appendSep lists_params, makes_param, makes_noResult,
    makes_result, makes_let, makes_noStorage, makes_storage⟩

/-! ## 5. Statements -/

theorem makes_set : Makes (rule "stmt" [var "lvalue", tok "=", var "expr"] "set") :=
  makes_of_label rfl fun span children hfilled => by
    obtain ⟨_, _, rfl, ⟨l, hl, rfl⟩, h1⟩ := hfilled.value
    obtain ⟨_, _, rfl, -, -, h2⟩ := h1.token
    obtain ⟨_, _, rfl, ⟨e, he, rfl⟩, hrest⟩ := h2.value
    obtain rfl := hrest.eq_nil
    exact .ok ⟨.set l e none span, ⟨⟨hl.1, he, rfl⟩, hl.2⟩, rfl⟩

theorem makes_return : Makes (ranked "stmt" [tok "return"] "return" returnLevel) :=
  makes_of_label rfl fun span children hfilled => by
    obtain ⟨_, _, rfl, -, -, hrest⟩ := hfilled.token
    obtain rfl := hrest.eq_nil
    exact .ok ⟨.ret none none span, ⟨⟨by simp, rfl⟩, trivial⟩, rfl⟩

theorem makes_returnValue : Makes (rule "stmt" [tok "return", var "expr"] "return") :=
  makes_of_label rfl fun span children hfilled => by
    obtain ⟨_, _, rfl, -, -, h1⟩ := hfilled.token
    obtain ⟨_, _, rfl, ⟨e, he, rfl⟩, hrest⟩ := h1.value
    obtain rfl := hrest.eq_nil
    exact .ok ⟨.ret (some e) none span, ⟨⟨by simpa using he, rfl⟩, trivial⟩, rfl⟩

/-- A name, as an expression or as what is assigned to. -/
theorem makes_ident {rule : Rule} (hrhs : rule.rhs = [tok "IDENT"]) (hlabel : rule.label = some "ident")
    (hlhs : ∀ name span, Shaped rule.lhs (.node (Expr.ident name none none span).node)) : Makes rule :=
  makes_of_label hlabel fun span children hfilled => by
    rw [hrhs] at hfilled
    obtain ⟨t, _, rfl, -, -, hrest⟩ := hfilled.token
    obtain rfl := hrest.eq_nil
    exact .ok (hlhs t.text span)

/-- Members and calls are expressions. -/
theorem Shaped.of_postfix {v : Piece} (h : Shaped "postfix" v) : Shaped "expr" v :=
  h.imp fun _ he => ⟨he.1.2, he.2⟩

/-- A dereference, as an expression or as what is assigned to. -/
theorem makes_deref {rule : Rule} {operand : String} (hrhs : rule.rhs = [tok "@", var operand])
    (hlabel : rule.label = some "deref") (hoperand : ∀ v, Shaped operand v → Shaped "expr" v)
    (hlhs : ∀ (e : Expr) span, e.Written → Shaped rule.lhs (.node (Expr.deref e none span).node)) :
    Makes rule :=
  makes_of_label hlabel fun span children hfilled => by
    rw [hrhs] at hfilled
    obtain ⟨_, _, rfl, -, -, h1⟩ := hfilled.token
    obtain ⟨w, _, rfl, hw, hrest⟩ := h1.value
    obtain ⟨e, he, rfl⟩ := hoperand w hw
    obtain rfl := hrest.eq_nil
    exact .ok (hlhs e span he)

/-- A literal without a sign is a number whose negation is a word. -/
theorem isLiteral_of_readLiteral {text : String} {value : Int} (hsign : '-' ∉ text.toList)
    (h : readLiteral? text = some value) : IsLiteral value := by
  have hword : ∀ {base : Nat} {digits : List Char}, '-' ∉ digits →
      readWord64? base digits = some value → IsLiteral value := by
    intro base digits hdigits hread
    obtain ⟨n, hn, hcheck⟩ := Option.bind_eq_some_iff.mp hread
    have hnonneg : 0 ≤ n := by
      split at hn
      · exact absurd List.mem_cons_self hdigits
      · obtain ⟨_, -, rfl⟩ := Option.map_eq_some_iff.mp hn
        exact Int.natCast_nonneg _
      · obtain ⟨_, -, rfl⟩ := Option.map_eq_some_iff.mp hn
        exact Int.natCast_nonneg _
    unfold checkWord64 at hcheck
    split at hcheck
    · rename_i hrange
      obtain rfl := Option.some.inj hcheck
      rw [isWord64, Bool.and_eq_true_iff, decide_eq_true_iff, decide_eq_true_iff] at hrange
      exact ⟨by omega, hrange.2⟩
    · cases hcheck
  unfold readLiteral? at h
  split at h <;> rename_i htext <;> refine hword ?_ h
  · exact fun hmem => hsign (by rw [htext]; simp [hmem])
  · exact fun hmem => hsign (by rw [htext]; simp [hmem])
  · exact fun hmem => hsign (by rw [htext]; simp [hmem])
  · exact hsign

/-- A number that cannot be read is an error of its token. -/
theorem kind_of_numberOf {token : Token} {e : Error} (h : numberOf token = .error e) : e.kind = .lex := by
  unfold numberOf at h
  split at h
  · cases h
  · obtain rfl := Except.error.inj h
    rfl

/-- A number without a sign. -/
theorem makes_number {rule : Rule} (hrhs : rule.rhs = [tok "NUMBER"]) (hlabel : rule.label = some "number")
    (hlhs : ∀ v, Shaped "expr" v → Shaped rule.lhs v) : Makes rule :=
  makes_of_label hlabel fun span children hfilled => by
    rw [hrhs] at hfilled
    obtain ⟨t, _, rfl, hkind, ht, hrest⟩ := hfilled.token
    obtain rfl := hrest.eq_nil
    change Built _ (numberOf t >>= _)
    refine Built.bind kind_of_numberOf fun value hvalue => ?_
    have hliteral := isLiteral_of_readLiteral (ht.number hkind) (readLiteral?_of_numberOf hvalue)
    exact .ok (hlhs _ ⟨.number value none span, ⟨rfl, hliteral⟩, rfl⟩)

/-- An expression in brackets. -/
theorem makes_paren {rule : Rule} (hrhs : rule.rhs = [tok "(", var "expr", tok ")"])
    (hlabel : rule.label = some "paren") (hlhs : ∀ v, Shaped "expr" v → Shaped rule.lhs v) : Makes rule :=
  makes_of_label hlabel fun span children hfilled => by
    rw [hrhs] at hfilled
    obtain ⟨_, _, rfl, -, -, h1⟩ := hfilled.token
    obtain ⟨_, _, rfl, ⟨e, he, rfl⟩, h2⟩ := h1.value
    obtain ⟨_, _, rfl, -, -, hrest⟩ := h2.token
    obtain rfl := hrest.eq_nil
    exact .ok (hlhs _ ⟨.paren e span, he, rfl⟩)

/-- **The rules of statements.** -/
theorem makes_statements : ∀ r ∈ statementRules, Makes r := by
  simp only [statementRules, List.forall_mem_cons, List.not_mem_nil, false_implies, implies_true, and_true]
  exact ⟨makes_append lists_stmts, makes_emptyList lists_stmts,
    makes_pass (by rintro _ ⟨d, hd, hv⟩; exact ⟨.decl d, ⟨hd, trivial⟩, hv⟩), makes_set,
    makes_pass (by rintro _ ⟨e, he, hv⟩; exact ⟨.expr e, ⟨he.2, trivial⟩, hv⟩), makes_return, makes_returnValue,
    makes_ident rfl rfl fun name span => ⟨.ident name none none span, ⟨⟨rfl, rfl⟩, rfl⟩, rfl⟩,
    makes_deref rfl rfl (fun _ h => h) fun e span he => ⟨.deref e none span, ⟨⟨he, rfl⟩, rfl⟩, rfl⟩,
    makes_pass fun _ h => h.of_postfix, makes_number rfl rfl fun _ h => h, makes_paren rfl rfl fun _ h => h⟩

/-! ## 6. Types and expressions -/

theorem makes_typeName : Makes (rule "type" [tokens "u8" typeNames] "type_name") :=
  makes_of_label rfl fun span children hfilled => by
    obtain ⟨t, _, rfl, hrest⟩ := hfilled.anyToken nonterminal?_tokens
    obtain rfl := hrest.eq_nil
    exact .ok ⟨.name t.text span, trivial, rfl⟩

theorem makes_typeRef : Makes (rule "type" [tok "&", var "type"] "type_ref") :=
  makes_of_label rfl fun span children hfilled => by
    obtain ⟨_, _, rfl, -, -, h1⟩ := hfilled.token
    obtain ⟨_, _, rfl, ⟨ty, hty, rfl⟩, hrest⟩ := h1.value
    obtain rfl := hrest.eq_nil
    exact .ok ⟨.ref ty span, hty, rfl⟩

/-- **The rules of types.** -/
theorem makes_types : ∀ r ∈ typeRules, Makes r := by
  simp only [typeRules, List.forall_mem_cons, List.not_mem_nil, false_implies, implies_true, and_true]
  exact ⟨makes_typeName, makes_typeRef⟩

/-- An operator between two expressions. -/
theorem makes_binop {slot : Slot} {level : Nat} (hslot : ∀ X ∈ slot.symbols, X.nonterminal? = none) :
    Makes (ranked "expr" [var "expr", slot, var "expr"] "binop" level) :=
  makes_of_label rfl fun span children hfilled => by
    obtain ⟨_, _, rfl, ⟨l, hl, rfl⟩, h1⟩ := hfilled.value
    obtain ⟨t, _, rfl, h2⟩ := h1.anyToken hslot
    obtain ⟨_, _, rfl, ⟨r, hr, rfl⟩, hrest⟩ := h2.value
    obtain rfl := hrest.eq_nil
    exact .ok ⟨.binop t.text l r none span, ⟨hl, hr, rfl⟩, rfl⟩

theorem makes_neg : Makes (ranked "expr" [tok "-", var "expr"] "neg" unaryLevel) :=
  makes_of_label rfl fun span children hfilled => by
    obtain ⟨_, _, rfl, -, -, h1⟩ := hfilled.token
    obtain ⟨_, _, rfl, ⟨e, he, rfl⟩, hrest⟩ := h1.value
    obtain rfl := hrest.eq_nil
    exact .ok ⟨.neg e none span, ⟨he, rfl⟩, rfl⟩

theorem makes_member :
    Makes (ranked "postfix" [var "postfix", tok ".", tok "IDENT"] "member" postfixLevel) :=
  makes_of_label rfl fun span children hfilled => by
    obtain ⟨_, _, rfl, ⟨e, he, rfl⟩, h1⟩ := hfilled.value
    obtain ⟨_, _, rfl, -, -, h2⟩ := h1.token
    obtain ⟨t, _, rfl, -, -, hrest⟩ := h2.token
    obtain rfl := hrest.eq_nil
    exact .ok ⟨.member e t.text span, ⟨rfl, he⟩, rfl⟩

theorem makes_call : Makes (ranked "call" [var "postfix", tok "(", var "arg_list", tok ")"] "call"
    postfixLevel) :=
  makes_of_label rfl fun span children hfilled => by
    obtain ⟨_, _, rfl, ⟨e, he, rfl⟩, h1⟩ := hfilled.value
    obtain ⟨_, _, rfl, -, -, h2⟩ := h1.token
    obtain ⟨_, _, rfl, ⟨args, hargs, rfl⟩, h3⟩ := h2.value
    obtain ⟨_, _, rfl, -, -, hrest⟩ := h3.token
    obtain rfl := hrest.eq_nil
    refine .ok ⟨.call e (Args.ofList args) none none span,
      ⟨rfl, he.1, he.2, Args.written_ofList hargs, rfl, rfl⟩, ?_⟩
    rw [Args.sequence_eq]
    cases args <;> rfl

/-- **The rules of expressions.** -/
theorem makes_expressions : ∀ r ∈ expressionRules, Makes r := by
  simp only [expressionRules, List.forall_mem_cons, List.not_mem_nil, false_implies, implies_true, and_true]
  exact ⟨makes_binop nonterminal?_tokens, makes_binop (by simp [tok, Slot.one, Symbol.token, Symbol.nonterminal?]), makes_neg,
    makes_deref rfl rfl (fun _ h => h) fun e span he => ⟨.deref e none span, ⟨he, rfl⟩, rfl⟩,
    makes_pass fun _ h => h.of_postfix,
    makes_number rfl rfl fun _ h => h, makes_pass fun _ h => h, makes_paren rfl rfl fun _ h => h,
    makes_ident rfl rfl fun name span => ⟨.ident name none none span, ⟨rfl, rfl, rfl⟩, rfl⟩, makes_member, makes_pass fun _ h => h, makes_call,
    makes_emptyList ⟨fun _ => .rfl, lists_args.element⟩, makes_pass fun _ h => h,
    makes_singleton lists_args, makes_appendSep lists_args⟩

theorem makes_string : Makes { ranked "string_lit" [tok "\"", var "string_body", tok "\""] "string" atomLevel
    with mode := some defaultMode } :=
  makes_of_label rfl fun span children hfilled => by
    obtain ⟨_, _, rfl, -, -, h1⟩ := hfilled.token
    obtain ⟨_, _, rfl, ⟨text, rfl⟩, h2⟩ := h1.value
    obtain ⟨_, _, rfl, -, -, hrest⟩ := h2.token
    obtain rfl := hrest.eq_nil
    exact .ok ⟨.string text none span, rfl, rfl⟩

theorem makes_stringEmpty :
    Makes { rule "string_body" [] "string_empty" with mode := some stringMode } :=
  makes_of_label rfl fun _ _ _ => .ok ⟨"", rfl⟩

/-- An escape that cannot be read is an error of its token. -/
theorem kind_of_appendPiece {text : String} {token : Token} {e : Error} (h : appendPiece text token = .error e) :
    e.kind = .lex := by
  unfold appendPiece at h
  split at h
  · cases hescape : escapeOf token with
    | ok c =>
      rw [hescape] at h
      cases h
    | error e' =>
      rw [hescape] at h
      obtain rfl := Except.error.inj h
      unfold escapeOf at hescape
      split at hescape <;> try split at hescape
      all_goals cases hescape
      all_goals rfl
  · cases h

/-- A part of a string literal is added to the text before it. -/
theorem makes_stringPiece : Makes { rule "string_body"
    [var "string_body", tokens "STRING_TEXT" ["ESCAPE"]] "string_piece" with mode := some stringMode } :=
  makes_of_label rfl fun span children hfilled => by
    obtain ⟨_, _, rfl, ⟨text, rfl⟩, h1⟩ := hfilled.value
    obtain ⟨t, _, rfl, hrest⟩ := h1.anyToken nonterminal?_tokens
    obtain rfl := hrest.eq_nil
    change Built _ (appendPiece text t >>= _)
    exact Built.bind kind_of_appendPiece fun text' _ => .ok ⟨text', rfl⟩

/-- **The rules of string literals.** -/
theorem makes_strings : ∀ r ∈ stringLiteralRules, Makes r := by
  simp only [stringLiteralRules, List.forall_mem_cons, List.not_mem_nil, false_implies, implies_true,
    and_true]
  exact ⟨makes_string, makes_stringEmpty, makes_stringPiece⟩

/-! ## 7. Whole texts -/

/-- **All rules** of the language. -/
theorem makes_unitRules : ∀ r ∈ unitRules, Makes r := by
  simp only [unitRules, List.forall_mem_append]
  exact ⟨⟨⟨⟨makes_items, makes_statements⟩, makes_types⟩, makes_expressions⟩, makes_strings⟩

/-- **Reductions build trees of written parts**, unless a literal cannot be read. -/
theorem built_reduction {g : Grammar} (hg : g.rules = unitRules) {r : Reduction Piece}
    {parts : List (Grown Piece)} (hr : Reduces g r parts) (hparts : ∀ c ∈ parts, Good c) :
    Built (Shaped r.lhs) (build r) := by
  have hmem : g.rule r.rule ∈ unitRules := hg ▸ Grammar.rule_mem hr.rule_lt
  have hfilled : Filled (g.rule r.rule).rhs r.children := by
    rw [hr.children]
    exact filled_of_expands hr.slots hparts
  rw [hr.lhs]
  exact makes_unitRules _ hmem r hr.label hfilled

/-- The builder keeps what is on the stack good. -/
theorem respects {g : Grammar} (hg : g.rules = unitRules) :
    Parser.Respects g lexer (fun r (_ : Unit) => (build r, ())) Good where
  token h := lexeme_next h
  value hr hparts hbuild := by
    have hbuilt := built_reduction hg hr hparts
    rw [(Prod.mk.inj hbuild).1] at hbuilt
    cases hbuilt with
    | ok hshaped => exact hshaped

/-- The start symbol stands in no rule, and no rule has the empty terminal. -/
theorem rhsSymbols_unitRules : ∀ X ∈ Grammar.rhsSymbols unitRules,
    X ≠ .nonterminal "program" ∧ X ≠ .terminal .empty := by
  refine fun X hX => ⟨?_, ?_⟩
  · rintro rfl
    exact absurd hX (by decide)
  · rintro rfl
    exact absurd hX (by decide)

/-- What the parser of the language gives is the tree of a written program. -/
theorem parse_written {p : Parser} (hp : parser = .ok p) {fuel : Nat} {stream : Stream} {v : Piece}
    (h : (p.parse lexer fuel defaultMode (fun r (_ : Unit) => (build r, ())) stream ()).1 = .ok v) :
    ∃ program : Program, (program.Written ∧ program.Assigns) ∧ v = .node program.node := by
  obtain ⟨comments, -, hp⟩ := bind_eq_ok.mp hp
  obtain ⟨table, htable, hp⟩ := bind_eq_ok.mp hp
  obtain ⟨g, hg, htable⟩ := bind_eq_ok.mp (show unitGrammar >>= ParseTable.ofGrammar = _ from htable)
  have hp : p.table = table := by
    rw [← Except.ok.inj hp]
    rfl
  have hproper := Grammar.proper_ofRules hg
  obtain ⟨hname, hrules, _, _⟩ := Grammar.ofRules_eq hg
  obtain ⟨a, paths, m⟩ := ParseTable.made_ofGrammar hproper (hp.symm ▸ htable)
  have hgood := Parser.drive_good m
    (fun hmem => (rhsSymbols_unitRules _ (hrules ▸ hmem)).1 (by rw [hname]))
    (fun hmem => (rhsSymbols_unitRules _ (hrules ▸ hmem)).2 rfl) (respects hrules) fuel
    (Parser.stands_start stream) h
  rw [hname] at hgood
  exact hgood

/-- **The tree of a text** is that of a written program, which assigns to names and dereferences only. -/
theorem read_assigns {text : String} {n : Node} (h : read text = .ok n) :
    ∃ p : Program, (p.Written ∧ p.Assigns) ∧ n = p.node := by
  unfold read at h
  obtain ⟨p, hp, h⟩ := bind_eq_ok.mp h
  generalize hparse : p.parse lexer (stepBudget text) defaultMode (fun r (_ : Unit) => (build r, ()))
    (.ofText text) () = parsed at h
  obtain ⟨result, stream, state⟩ := parsed
  obtain ⟨v, rfl, h⟩ := bind_eq_ok.mp h
  obtain ⟨program, hwritten, rfl⟩ := parse_written hp (congrArg Prod.fst hparse)
  exact ⟨program, hwritten, (Except.ok.inj h).symm⟩

theorem read_written {text : String} {n : Node} (h : read text = .ok n) : ∃ p : Program, p.Written ∧ n = p.node :=
  (read_assigns h).imp fun _ hp => ⟨hp.1.1, hp.2⟩

end Lode.Language
