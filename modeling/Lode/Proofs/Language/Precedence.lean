/-
# Operators bind by their precedence

In the tree of a text every operator has operands that bind as tightly as it wants (`everywhere_read`).

The tables decide by what they shift.  On top of an operand the parser shifts an operator only in states
that do so, and `demand` reads off a state which operands can have come to stand there: one that binds more
loosely would have had to shift an operator that the state does not shift.  So the order of operands is an
invariant of the stack, and not only of the trees on it: every operand exceeds what the state on top of it
demands (`Arranged`).

A reduction keeps the invariant because the tables keep the precedences (`KeepsLevels`).  Before an operator
they reduce only what binds at least as tightly, so the operand that comes to stand there exceeds the demand
(`Placed`); where an operator is complete they shift only operators that bind tighter, so its right operand
was in order when the operator was reduced.  What is no operator may stand everywhere, and for the rules of
operators there is one lemma each (section 5).

A token decides as well: the operator of a sum is the text of its token, and a token of a fixed kind has
that text (`text_of_literal`).

The parser of the language, with what is known about its tables, is put together at the end (`Reads`).
There the sample text is shown to have a raw tree that goes through all passes, in every order in which they
can be arranged (`read_sampleText`).
-/
import Lode.Proofs.Language.Operators
import Lode.Proofs.Language.Tables
import Lode.Proofs.Parser.Actions
import Lode.Proofs.Regex.Matching

namespace Lode

namespace Language

open Node (Everywhere Ordered)

/-! ## 1. Levels -/

/-- How tightly the operator of a tree binds. -/
def rank (n : Node) : Nat :=
  if n.tag = .binop then if n.isSum then sumLevel else productLevel else unaryLevel

/-- What binds more tightly than sums is no sum. -/
theorem sumLevel_lt_rank {n : Node} : sumLevel < rank n ↔ n.isSum = false := by
  unfold rank
  split
  · cases n.isSum <;> decide
  · rename_i htag
    simp [Node.isSum, htag, sumLevel, unaryLevel]

/-- What binds more tightly than products is no operator. -/
theorem productLevel_lt_rank {n : Node} : productLevel < rank n ↔ n.tag ≠ .binop := by
  unfold rank
  split
  · rename_i htag
    cases n.isSum <;> simp [htag, sumLevel, productLevel]
  · rename_i htag
    simp [htag, productLevel, unaryLevel]

/-- Whether a state shifts a kind of token. -/
def shifts (table : ParseTable) (q : StateId) (kind : String) : Bool :=
  match table.action? q (.kind kind) with
  | some (.shift _) => true
  | _ => false

/-- The level that an operand on top of the stack exceeds.  It is read off what its state shifts: where
sums go on there may be a sum, where only products go on there is none, and where no operator is
shifted there is no operator at all. -/
def demand (table : ParseTable) (q : StateId) : Nat :=
  if shifts table q "+" || shifts table q "-" then 0
  else if shifts table q "*" then sumLevel
  else productLevel

section Demand

variable {table : ParseTable} {q target : StateId}

theorem shifts_of_action {kind : String} (h : table.action? q (.kind kind) = some (.shift target)) :
    shifts table q kind = true := by
  rw [shifts, h]

theorem demand_le (table : ParseTable) (q : StateId) : demand table q ≤ productLevel := by
  unfold demand
  split
  · decide
  · split <;> decide

theorem demand_of_sum {kind : String} (hkind : kind = "+" ∨ kind = "-")
    (h : table.action? q (.kind kind) = some (.shift target)) : demand table q = 0 := by
  have hshifts := shifts_of_action h
  rcases hkind with rfl | rfl <;> simp [demand, hshifts]

/-- Where products go on, there is no demand beyond that of being no sum. -/
theorem demand_of_product (h : table.action? q (.kind "*") = some (.shift target)) :
    demand table q ≤ sumLevel := by
  unfold demand
  split
  · decide
  · rw [shifts_of_action h]
    decide

variable (hkeeps : KeepsLevels table) {t : Terminal} {id : RuleId} {level : Nat}
  (haction : table.action? q t = some (.reduce id))
  (hlevel : (table.grammar.rule id).precedence = some level)
  (hlast : (table.grammar.rule id).rhs.getLast? = some (var "expr"))
include hkeeps haction hlevel hlast

/-- Behind a complete operator no operator is shifted that binds as tightly or more loosely. -/
theorem shifts_eq_false (op : String) {here : Nat} (hop : (op, here) ∈ operators) (hle : here ≤ level) :
    shifts table q op = false := by
  unfold shifts
  split
  · rename_i hshift
    exact absurd (hkeeps.shift haction hlevel hlast hop hshift) (Nat.not_lt.mpr hle)
  · rfl

theorem sumLevel_le_demand (hle : sumLevel ≤ level) : sumLevel ≤ demand table q := by
  rw [demand, shifts_eq_false hkeeps haction hlevel hlast "+" (by decide) hle,
    shifts_eq_false hkeeps haction hlevel hlast "-" (by decide) hle]
  simp only [Bool.or_self, Bool.false_eq_true, if_false]
  split <;> decide

/-- Behind a complete product no operator may stand. -/
theorem demand_eq_productLevel (hle : productLevel ≤ level) : demand table q = productLevel := by
  have hsum : sumLevel ≤ level := Nat.le_trans (by decide) hle
  rw [demand, shifts_eq_false hkeeps haction hlevel hlast "+" (by decide) hsum,
    shifts_eq_false hkeeps haction hlevel hlast "-" (by decide) hsum,
    shifts_eq_false hkeeps haction hlevel hlast "*" (by decide) hle]
  rfl

end Demand

/-! ## 2. The stack -/

/-- What is no operator. -/
def simpleTags : List Tag := headTags ++ [.number, .paren, .string]

/-- A piece is a node with one of the tags. -/
def Piece.Tagged (tags : List Tag) (v : Piece) : Prop := ∃ n, v = .node n ∧ n.tag ∈ tags

/-- The nonterminals of names, members and calls. -/
def headNames : List String := ["postfix", "call"]

/-- The nonterminals of other expressions without operators. -/
def simpleNames : List String := ["address", "string_lit"]

/-- What is known about a token or a value on the stack. -/
def Settled : Grown Piece → Prop
  | .token t => ∀ entry ∈ operators, t.kind = .kind entry.1 → t.text = entry.1
  | .value name v => v.Fine ∧ (name ∈ headNames → v.Tagged headTags) ∧
      (name ∈ simpleNames → v.Tagged simpleTags)

/-- Tokens were shifted as the tables say, no product begins with a sum, and every operand exceeds what
its state demands. -/
inductive Arranged (table : ParseTable) : List (Parser.Frame Piece) → List (Grown Piece) → Prop
  | nil : Arranged table [] []
  | token {frame : Parser.Frame Piece} {stack : List (Parser.Frame Piece)} {t : Token}
      {row : List (Grown Piece)} :
      table.action? (Parser.topState stack) t.kind = some (.shift frame.state) →
      (∀ n below, row = .value "expr" (.node n) :: below → t.kind = .kind "*" → sumLevel < rank n) →
      Arranged table stack row → Arranged table (frame :: stack) (.token t :: row)
  | value {frame : Parser.Frame Piece} {stack : List (Parser.Frame Piece)} {name : String} {v : Piece}
      {row : List (Grown Piece)} :
      (∀ n, name = "expr" → v = .node n → demand table frame.state < rank n) →
      Arranged table stack row → Arranged table (frame :: stack) (.value name v :: row)

/-- What is below on the stack is arranged too. -/
theorem Arranged.drop {table : ParseTable} {stack : List (Parser.Frame Piece)} {row : List (Grown Piece)}
    (h : Arranged table stack row) : ∀ k, Arranged table (stack.drop k) (row.drop k) := by
  induction h with
  | nil => intro k; simpa using Arranged.nil
  | token haction hleft hrest ih =>
    intro k
    cases k with
    | zero => exact .token haction hleft hrest
    | succ k => exact ih k
  | value hvalue hrest ih =>
    intro k
    cases k with
    | zero => exact .value hvalue hrest
    | succ k => exact ih k

/-! ## 3. What stands at the slots -/

/-- Parts that fit the slots of a rule. -/
def Fits (slots : List Slot) (parts : List (Grown Piece)) : Prop :=
  List.Forall₂ (fun slot X => X ∈ slot.symbols) slots (parts.map Grown.symbol)

namespace Fits

variable {slots : List Slot} {parts : List (Grown Piece)}

theorem eq_nil (h : Fits [] parts) : parts = [] :=
  List.map_eq_nil_iff.mp (List.forall₂_nil_left_iff.mp h)

/-- At a slot for a nonterminal there is a value of that name. -/
theorem var {name : String} (h : Fits (var name :: slots) parts) :
    ∃ v rest, parts = .value name v :: rest ∧ Fits slots rest := by
  cases parts with
  | nil => cases h
  | cons c rest =>
    obtain ⟨hc, hrest⟩ := List.forall₂_cons.mp h
    have hc : c.symbol = .nonterminal name := List.mem_singleton.mp hc
    cases c with
    | token t => cases hc
    | value name' v =>
      obtain rfl := Symbol.nonterminal.inj hc
      exact ⟨v, rest, rfl, hrest⟩

/-- At a slot for kinds of tokens there is a token of one of them. -/
theorem tokens {slot : Slot} {kinds : List String} (h : Fits (slot :: slots) parts)
    (hslot : ∀ X ∈ slot.symbols, X ∈ kinds.map Symbol.token) :
    ∃ t rest, parts = .token t :: rest ∧ (∃ kind ∈ kinds, t.kind = .kind kind) ∧ Fits slots rest := by
  cases parts with
  | nil => cases h
  | cons c rest =>
    obtain ⟨hc, hrest⟩ := List.forall₂_cons.mp h
    obtain ⟨kind, hkind, hsymbol⟩ := List.mem_map.mp (hslot _ hc)
    cases c with
    | token t => exact ⟨t, rest, rfl, ⟨kind, hkind, (Symbol.terminal.inj hsymbol).symm⟩, hrest⟩
    | value name v => cases hsymbol

theorem token {kind : String} (h : Fits (tok kind :: slots) parts) :
    ∃ t rest, parts = .token t :: rest ∧ Fits slots rest := by
  have hslot : ∀ X ∈ (tok kind).symbols, X ∈ [kind].map Symbol.token := fun _ hX => hX
  obtain ⟨t, rest, hparts, -, hrest⟩ := h.tokens hslot
  exact ⟨t, rest, hparts, hrest⟩

end Fits

/-! ## 4. Rules without operators -/

/-- What a label builds, among the parts of expressions without operators. -/
def tagOf : String → Option Tag
  | "ident" => some .ident
  | "number" => some .number
  | "paren" => some .paren
  | "string" => some .string
  | _ => none

/-- What labels of no operator build, by their tags. -/
theorem tagged_buildLabelled {label : String} {tag : Tag} {span : Span} {c : Slots} {v : Piece}
    (htag : tagOf label = some tag) (h : buildLabelled label span c = .ok v) :
    ∃ n, v = .node n ∧ n.tag = tag := by
  unfold tagOf at htag
  split at htag
  · obtain ⟨name, -, h⟩ := bind_eq_ok.mp h
    exact ⟨_, (Except.ok.inj h).symm, Option.some.inj htag⟩
  · obtain ⟨t, -, h⟩ := bind_eq_ok.mp h
    obtain ⟨value, -, h⟩ := bind_eq_ok.mp h
    exact ⟨_, (Except.ok.inj h).symm, Option.some.inj htag⟩
  · obtain ⟨inner, -, h⟩ := bind_eq_ok.mp h
    exact ⟨_, (Except.ok.inj h).symm, Option.some.inj htag⟩
  · obtain ⟨text, -, h⟩ := bind_eq_ok.mp h
    exact ⟨_, (Except.ok.inj h).symm, Option.some.inj htag⟩
  · cases htag

/-- Whether a rule hands on a part, or builds what is no operator. -/
def isPlain (rule : Rule) : Bool :=
  match rule.label, rule.rhs with
  | some label, _ => label ∉ operatorLabels ∧
      (rule.lhs ∈ headNames → (tagOf label).any (· ∈ headTags)) ∧
      (rule.lhs ∈ "expr" :: simpleNames → (tagOf label).any (· ∈ simpleTags))
  | none, [slot] => slot.symbols.all fun X => X.nonterminal?.any fun name =>
      (rule.lhs ∈ headNames → name ∈ headNames) ∧
      (rule.lhs ∈ "expr" :: simpleNames → name ∈ headNames ++ simpleNames)
  | none, _ => false

section Plain

variable {g : Grammar} {r : Reduction Piece} {parts : List (Grown Piece)} (hred : Reduces g r parts)
  (hparts : ∀ c ∈ parts, Settled c) {v : Piece} (hbuild : build r = .ok v)
include hred hparts hbuild

/-- A rule without a label hands on what is settled. -/
theorem settled_pass (hlabel : (g.rule r.rule).label = none) (hplain : isPlain (g.rule r.rule) = true) :
    v.Fine ∧ (r.lhs ∈ headNames → v.Tagged headTags) ∧
      (r.lhs ∈ "expr" :: simpleNames → v.Tagged simpleTags) := by
  have hslots := hred.slots
  unfold isPlain at hplain
  split at hplain
  · rename_i heq
    rw [hlabel] at heq
    cases heq
  · rename_i slot _ hrhs
    rw [Rule.Expands, hrhs] at hslots
    obtain ⟨c, rfl⟩ : ∃ c, parts = [c] := by
      have hlength := hslots.length_eq
      rw [List.length_map] at hlength
      exact List.length_eq_one_iff.mp hlength.symm
    obtain ⟨hc, -⟩ := List.forall₂_cons.mp hslots
    have hname := List.all_eq_true.mp hplain _ hc
    cases c with
    | token t => cases hname
    | value name w =>
      obtain ⟨hheads, hsimple⟩ := of_decide_eq_true hname
      rw [build, hred.label.trans hlabel, hred.children] at hbuild
      obtain rfl := Except.ok.inj hbuild
      obtain ⟨hfine, hhead, hatom⟩ := hparts _ List.mem_cons_self
      rw [hred.lhs]
      refine ⟨hfine, fun h => hhead (hheads h), fun h => ?_⟩
      rcases List.mem_append.mp (hsimple h) with hname | hname
      · obtain ⟨n, hn, htag⟩ := hhead hname
        exact ⟨n, hn, List.mem_append_left _ htag⟩
      · exact hatom hname
  · cases hplain

/-- A rule without operators. -/
theorem settled_plain (hplain : isPlain (g.rule r.rule) = true) :
    v.Fine ∧ (r.lhs ∈ headNames → v.Tagged headTags) ∧
      (r.lhs ∈ "expr" :: simpleNames → v.Tagged simpleTags) := by
  cases hlabel : (g.rule r.rule).label with
  | none => exact settled_pass hred hparts hbuild hlabel hplain
  | some label =>
    rw [isPlain, hlabel] at hplain
    obtain ⟨hoperator, hheads, hsimple⟩ := of_decide_eq_true hplain
    have hbuild : buildLabelled label r.span r.children = .ok v := by
      rwa [build, hred.label.trans hlabel] at hbuild
    have hc : ∀ w, Child.value w ∈ r.children → w.Fine := by
      intro w hw
      rw [hred.children] at hw
      obtain ⟨c, hc, heq⟩ := List.mem_map.mp hw
      cases c with
      | token t => cases heq
      | value name w' =>
        obtain rfl := Child.value.inj heq
        exact (hparts _ hc).1
    have htagged : ∀ {tags : List Tag}, (tagOf label).any (· ∈ tags) = true → v.Tagged tags := by
      intro tags htags
      obtain ⟨tag, htag, hmem⟩ := (Option.any_eq_true _ _).mp htags
      obtain ⟨n, hn, rfl⟩ := tagged_buildLabelled htag hbuild
      exact ⟨n, hn, of_decide_eq_true hmem⟩
    rw [hred.lhs]
    exact ⟨fine_buildLabelled hc hoperator hbuild, fun h => htagged (hheads h), fun h => htagged (hsimple h)⟩

end Plain

/-! ## 5. Rules with operators -/

/-- The rules of operators, members and calls. -/
def operatorRules : List Rule :=
  [ranked "expr" [var "expr", tokens "+" ["-"], var "expr"] "binop" sumLevel,
    ranked "expr" [var "expr", tok "*", var "expr"] "binop" productLevel,
    ranked "expr" [tok "-", var "expr"] "neg" unaryLevel,
    ranked "expr" [tok "@", var "expr"] "deref" unaryLevel,
    rule "lvalue" [tok "@", var "address"] "deref",
    ranked "postfix" [var "postfix", tok ".", tok "IDENT"] "member" postfixLevel,
    ranked "call" [var "postfix", tok "(", var "arg_list", tok ")"] "call" postfixLevel]

theorem unitRules_cases : ∀ rule ∈ unitRules, isPlain rule = true ∨ rule ∈ operatorRules := by
  decide

/-- What a reduction may leave on the stack, in a state and before a terminal. -/
structure Placed (table : ParseTable) (target : StateId) (t : Terminal) (name : String) (v : Piece) :
    Prop where
  settled : Settled (.value name v)
  exceeds : ∀ n, name = "expr" → v = .node n → demand table target < rank n
  before : ∀ n, name = "expr" → v = .node n → t = .kind "*" → sumLevel < rank n

/-- What is no operator may stand everywhere. -/
theorem Placed.of_simple {table : ParseTable} {target : StateId} {t : Terminal} {name : String} {v : Piece}
    (hsettled : Settled (.value name v))
    (hsimple : name = "expr" → ∀ n, v = .node n → n.tag ≠ .binop) : Placed table target t name v where
  settled := hsettled
  exceeds n hname hv :=
    Nat.lt_of_le_of_lt (demand_le table target) (productLevel_lt_rank.mpr (hsimple hname n hv))
  before n hname hv _ :=
    Nat.lt_trans (by decide) (productLevel_lt_rank.mpr (hsimple hname n hv))

section Operators

variable {table : ParseTable} {a : Automaton} {stack : List (Parser.Frame Piece)}
  {row parts below : List (Grown Piece)} (hlinked : Parser.Linked a stack row)
  (harranged : Arranged table stack row) (hrow : row = parts.reverse ++ below)
  {r : Reduction Piece} (hred : Reduces table.grammar r parts) (hparts : ∀ c ∈ parts, Settled c)
  {v : Piece} (hbuild : build r = .ok v) {t : Terminal}
  (haction : table.action? (Parser.topState stack) t = some (.reduce r.rule))
  {target : StateId} (hgoto : a.goto? (Parser.topState (stack.drop parts.length)) (.nonterminal r.lhs) =
    some target)

include hlinked harranged hrow hred hparts hbuild hgoto in
/-- The operands of a sum or a product, and where it is put. -/
theorem binop_cases {slot : Slot} {level : Nat} (kinds : List String)
    (hrule : table.grammar.rule r.rule = ranked "expr" [var "expr", slot, var "expr"] "binop" level)
    (hslot : ∀ X ∈ slot.symbols, X ∈ kinds.map Symbol.token)
    (hkinds : ∀ kind ∈ kinds, kind ∈ operators.map Prod.fst) :
    ∃ kind ∈ kinds, ∃ lhs rhs after,
      v = .node (.build .binop r.span [("op", .str kind), ("lhs", .node lhs), ("rhs", .node rhs)]) ∧
      lhs.Everywhere Ordered ∧ rhs.Everywhere Ordered ∧ (kind = "*" → sumLevel < rank lhs) ∧
      demand table (Parser.topState stack) < rank rhs ∧
      table.action? target (.kind kind) = some (.shift after) := by
  have hfits : Fits _ parts := hred.slots
  rw [hrule] at hfits
  obtain ⟨left, _, rfl, h1⟩ := hfits.var
  obtain ⟨op, _, rfl, ⟨kind, hkind, hop⟩, h2⟩ := h1.tokens hslot
  obtain ⟨right, _, rfl, h3⟩ := h2.var
  obtain rfl := h3.eq_nil
  simp only [List.forall_mem_cons] at hparts
  obtain ⟨⟨hleft, -⟩, htext, ⟨hright, -⟩, -⟩ := hparts
  obtain ⟨entry, hentry, rfl⟩ := List.mem_map.mp (hkinds kind hkind)
  have htext : op.text = entry.1 := htext _ hentry hop
  rw [build, hred.label, hrule, hred.children] at hbuild
  obtain ⟨lhs, rhs, rfl, rfl, rfl⟩ := build_binop hbuild
  rw [hred.lhs, hrule] at hgoto
  subst hrow
  -- the frames of the three parts, the last one on top
  cases harranged with
  | @value f3 _ _ _ _ hrhs harranged =>
    cases harranged with
    | @token f2 _ _ _ hshift hbefore harranged =>
      cases harranged with
      | @value f1 _ _ _ _ _ _ =>
        obtain _ | ⟨_, _, hlinked⟩ := hlinked
        obtain _ | ⟨_, _, hlinked⟩ := hlinked
        obtain _ | ⟨hstate, _, _⟩ := hlinked
        have htarget : f1.state = target := Option.some.inj (hstate.symm.trans hgoto)
        refine ⟨entry.1, hkind, lhs, rhs, f2.state, by rw [htext], hleft, hright, ?_, hrhs rhs rfl rfl, ?_⟩
        · intro hentry
          exact hbefore lhs _ rfl (by rw [hop, hentry])
        · rw [← htarget, ← hop]
          exact hshift

include hlinked harranged hrow hred hparts hbuild haction hgoto in
/-- **Sums and differences.** -/
theorem placed_sum (hkeeps : KeepsLevels table) (hrule : table.grammar.rule r.rule =
      ranked "expr" [var "expr", tokens "+" ["-"], var "expr"] "binop" sumLevel) :
    Placed table target t r.lhs v := by
  obtain ⟨kind, hkind, lhs, rhs, after, rfl, hleft, hright, -, hrhs, hshift⟩ :=
    binop_cases hlinked harranged hrow hred hparts hbuild hgoto ["+", "-"] hrule
      (by decide) (by decide)
  have hkind : kind = "+" ∨ kind = "-" := by simpa using hkind
  have hdemand := sumLevel_le_demand hkeeps haction (by rw [hrule]; rfl) (by rw [hrule]; rfl) (Nat.le_refl _)
  have hlhs : r.lhs = "expr" := by rw [hred.lhs, hrule]; rfl
  have hordered : (Node.build .binop r.span
      [("op", .str kind), ("lhs", .node lhs), ("rhs", .node rhs)]).Everywhere Ordered := by
    refine .build (ordered_binop.mpr ⟨fun _ => sumLevel_lt_rank.mp (Nat.lt_of_le_of_lt hdemand hrhs), ?_⟩) ?_
    · rintro rfl
      simp at hkind
    · simpa using ⟨hleft, hright⟩
  refine ⟨⟨hordered, by simp [hlhs, headNames], by simp [hlhs, simpleNames]⟩, ?_, ?_⟩
  · rintro n - ⟨⟩
    rw [demand_of_sum hkind hshift, rank]
    split
    · split <;> decide
    · decide
  · rintro n - - rfl
    have hle : productLevel ≤ sumLevel := hkeeps.reduce haction (by rw [hrule]; rfl) (by decide)
    exact absurd hle (by decide)

include hlinked harranged hrow hred hparts hbuild haction hgoto in
/-- **Products.** -/
theorem placed_product (hkeeps : KeepsLevels table) (hrule : table.grammar.rule r.rule =
      ranked "expr" [var "expr", tok "*", var "expr"] "binop" productLevel) :
    Placed table target t r.lhs v := by
  obtain ⟨kind, hkind, lhs, rhs, after, rfl, hleft, hright, hlhs, hrhs, hshift⟩ :=
    binop_cases hlinked harranged hrow hred hparts hbuild hgoto ["*"] hrule
      (by decide) (by decide)
  obtain rfl := List.mem_singleton.mp hkind
  have hdemand :=
    demand_eq_productLevel hkeeps haction (by rw [hrule]; rfl) (by rw [hrule]; rfl) (Nat.le_refl _)
  have hname : r.lhs = "expr" := by rw [hred.lhs, hrule]; rfl
  have hrank : rank (Node.build .binop r.span
      [("op", .str "*"), ("lhs", .node lhs), ("rhs", .node rhs)]) = productLevel := rfl
  have hordered : (Node.build .binop r.span
      [("op", .str "*"), ("lhs", .node lhs), ("rhs", .node rhs)]).Everywhere Ordered := by
    refine .build (ordered_binop.mpr ⟨by simp, fun _ => ⟨sumLevel_lt_rank.mp (hlhs rfl), ?_⟩⟩) ?_
    · exact productLevel_lt_rank.mp (hdemand ▸ hrhs)
    · simpa using ⟨hleft, hright⟩
  refine ⟨⟨hordered, by simp [hname, headNames], by simp [hname, simpleNames]⟩, ?_, ?_⟩
  · rintro n - ⟨⟩
    rw [hrank]
    exact Nat.lt_of_le_of_lt (demand_of_product hshift) (by decide)
  · rintro n - ⟨⟩ -
    rw [hrank]
    decide

include harranged hrow hred hparts haction in
/-- The operand of a negation or a dereference. -/
theorem unary_cases (hkeeps : KeepsLevels table) {kind label : String} (hrule : table.grammar.rule r.rule =
      ranked "expr" [tok kind, var "expr"] label unaryLevel) :
    ∃ op operand, r.children = [.token op, .value operand] ∧ operand.Fine ∧
      ∀ n, operand = .node n → n.tag ≠ .binop := by
  have hfits : Fits _ parts := hred.slots
  rw [hrule] at hfits
  obtain ⟨op, _, rfl, h1⟩ := hfits.token
  obtain ⟨operand, _, rfl, h2⟩ := h1.var
  obtain rfl := h2.eq_nil
  have hdemand :=
    demand_eq_productLevel hkeeps haction (by rw [hrule]; rfl) (by rw [hrule]; rfl) (by decide)
  refine ⟨op, operand, hred.children, (hparts (.value "expr" operand) (by simp)).1, ?_⟩
  rintro n rfl
  subst hrow
  cases harranged with
  | value hoperand _ => exact productLevel_lt_rank.mp (hdemand ▸ hoperand n rfl rfl)

include harranged hrow hred hparts hbuild haction in
/-- **Negations.** -/
theorem placed_neg (hkeeps : KeepsLevels table) (hrule : table.grammar.rule r.rule =
      ranked "expr" [tok "-", var "expr"] "neg" unaryLevel) : Placed table target t r.lhs v := by
  obtain ⟨op, operand, hchildren, hfine, htag⟩ := unary_cases harranged hrow hred hparts haction hkeeps hrule
  rw [build, hred.label, hrule, hchildren] at hbuild
  obtain ⟨n, rfl, rfl⟩ := build_neg hbuild
  have hordered : (Node.build .neg r.span [("operand", .node n)]).Everywhere Ordered :=
    .build (ordered_neg.mpr (htag n rfl)) (by simpa [Piece.Fine] using hfine)
  have hname : r.lhs = "expr" := by rw [hred.lhs, hrule]; rfl
  refine .of_simple ⟨hordered, by simp [hname, headNames], by simp [hname, simpleNames]⟩ ?_
  rintro - m ⟨⟩
  exact (by decide : Tag.neg ≠ .binop)

include harranged hrow hred hparts hbuild haction in
/-- **Dereferences.** -/
theorem placed_deref (hkeeps : KeepsLevels table) (hrule : table.grammar.rule r.rule =
      ranked "expr" [tok "@", var "expr"] "deref" unaryLevel) : Placed table target t r.lhs v := by
  obtain ⟨op, operand, hchildren, hfine, htag⟩ := unary_cases harranged hrow hred hparts haction hkeeps hrule
  rw [build, hred.label, hrule, hchildren] at hbuild
  obtain ⟨n, rfl, rfl⟩ := build_deref hbuild
  have hordered : (Node.build .deref r.span [("target", .node n)]).Everywhere Ordered :=
    .build (ordered_deref.mpr (htag n rfl)) (by simpa [Piece.Fine] using hfine)
  have hname : r.lhs = "expr" := by rw [hred.lhs, hrule]; rfl
  refine .of_simple ⟨hordered, by simp [hname, headNames], by simp [hname, simpleNames]⟩ ?_
  rintro - m ⟨⟩
  exact (by decide : Tag.deref ≠ .binop)

include hred hparts hbuild in
/-- A dereference that is assigned to. -/
theorem placed_lvalue (hrule : table.grammar.rule r.rule = rule "lvalue" [tok "@", var "address"] "deref") :
    Placed table target t r.lhs v := by
  have hfits : Fits _ parts := hred.slots
  rw [hrule] at hfits
  obtain ⟨op, _, rfl, h1⟩ := hfits.token
  obtain ⟨address, _, rfl, h2⟩ := h1.var
  obtain rfl := h2.eq_nil
  obtain ⟨hfine, -, hsimple⟩ := hparts (.value "address" address) (by simp)
  rw [build, hred.label, hrule, hred.children] at hbuild
  obtain ⟨n, rfl, rfl⟩ := build_deref hbuild
  obtain ⟨m, hm, htag⟩ := hsimple (by decide)
  obtain rfl := Piece.node.inj hm
  have hordered : (Node.build .deref r.span [("target", .node n)]).Everywhere Ordered := by
    refine .build (ordered_deref.mpr ?_) (by simpa [Piece.Fine] using hfine)
    rintro hbinop
    rw [hbinop] at htag
    exact absurd htag (by decide)
  have hname : r.lhs = "lvalue" := by rw [hred.lhs, hrule]; rfl
  exact .of_simple ⟨hordered, by simp [hname, headNames], by simp [hname, simpleNames]⟩ (by simp [hname])

include hred hparts hbuild in
/-- **Members.** -/
theorem placed_member (hrule : table.grammar.rule r.rule =
      ranked "postfix" [var "postfix", tok ".", tok "IDENT"] "member" postfixLevel) :
    Placed table target t r.lhs v := by
  have hfits : Fits _ parts := hred.slots
  rw [hrule] at hfits
  obtain ⟨object, _, rfl, h1⟩ := hfits.var
  obtain ⟨dot, _, rfl, h2⟩ := h1.token
  obtain ⟨name, _, rfl, h3⟩ := h2.token
  obtain rfl := h3.eq_nil
  obtain ⟨hfine, hhead, -⟩ := hparts (.value "postfix" object) (by simp)
  rw [build, hred.label, hrule, hred.children] at hbuild
  obtain ⟨n, rfl, rfl⟩ := build_member hbuild
  obtain ⟨m, hm, htag⟩ := hhead (by decide)
  obtain rfl := Piece.node.inj hm
  have hordered : (Node.build .member r.span [("target", .node n), ("name", .str name.text)]).Everywhere
      Ordered := .build (ordered_member.mpr htag) (by simpa [Piece.Fine] using hfine)
  have hname : r.lhs = "postfix" := by rw [hred.lhs, hrule]; rfl
  exact .of_simple ⟨hordered, fun _ => ⟨_, rfl, (by decide : Tag.member ∈ headTags)⟩,
    by simp [hname, simpleNames]⟩ (by simp [hname])

include hred hparts hbuild in
/-- **Calls.** -/
theorem placed_call (hrule : table.grammar.rule r.rule =
      ranked "call" [var "postfix", tok "(", var "arg_list", tok ")"] "call" postfixLevel) :
    Placed table target t r.lhs v := by
  have hfits : Fits _ parts := hred.slots
  rw [hrule] at hfits
  obtain ⟨callee, _, rfl, h1⟩ := hfits.var
  obtain ⟨opening, _, rfl, h2⟩ := h1.token
  obtain ⟨args, _, rfl, h3⟩ := h2.var
  obtain ⟨closing, _, rfl, h4⟩ := h3.token
  obtain rfl := h4.eq_nil
  obtain ⟨hfine, hhead, -⟩ := hparts (.value "postfix" callee) (by simp)
  obtain ⟨hargs, -, -⟩ := hparts (.value "arg_list" args) (by simp)
  rw [build, hred.label, hrule, hred.children] at hbuild
  obtain ⟨n, ns, rfl, rfl, rfl⟩ := build_call hbuild
  obtain ⟨m, hm, htag⟩ := hhead (by decide)
  obtain rfl := Piece.node.inj hm
  have hbare : (Node.build .call r.span [("target", .node n)]).Everywhere Ordered :=
    .build (@ordered_call _ _ none |>.mpr htag) (by simpa [Piece.Fine] using hfine)
  have hordered := hbare.set? (ordered_call.mpr htag)
    fun m hm => fineValue_sequence (by decide : Tag.args ∉ _) hargs _ hm m rfl
  have hname : r.lhs = "call" := by rw [hred.lhs, hrule]; rfl
  refine .of_simple ⟨hordered, fun _ => ⟨_, rfl, ?_⟩, by simp [hname, simpleNames]⟩ (by simp [hname])
  rw [Node.tag_set?]
  exact (by decide : Tag.call ∈ headTags)

include hlinked harranged hrow hred hparts hbuild haction hgoto in
/-- **Reductions keep the precedences.** -/
theorem placed_reduce (hkeeps : KeepsLevels table) (hrules : table.grammar.rules = unitRules) :
    Placed table target t r.lhs v := by
  have hmem : table.grammar.rule r.rule ∈ unitRules := hrules ▸ Grammar.rule_mem hred.rule_lt
  rcases unitRules_cases _ hmem with hplain | hoperator
  · obtain ⟨hfine, hheads, hsimple⟩ := settled_plain hred hparts hbuild hplain
    refine .of_simple ⟨hfine, hheads, fun h => hsimple (List.mem_cons_of_mem _ h)⟩ ?_
    rintro hname n rfl hbinop
    obtain ⟨m, hm, htag⟩ := hsimple (by rw [hname]; exact List.mem_cons_self)
    rw [← Piece.node.inj hm, hbinop] at htag
    exact absurd htag (by decide)
  · simp only [operatorRules, List.mem_cons, List.not_mem_nil, or_false] at hoperator
    rcases hoperator with h | h | h | h | h | h | h
    · exact placed_sum hlinked harranged hrow hred hparts hbuild haction hgoto hkeeps h
    · exact placed_product hlinked harranged hrow hred hparts hbuild haction hgoto hkeeps h
    · exact placed_neg harranged hrow hred hparts hbuild haction hkeeps h
    · exact placed_deref harranged hrow hred hparts hbuild haction hkeeps h
    · exact placed_lvalue hred hparts hbuild h
    · exact placed_member hred hparts hbuild h
    · exact placed_call hred hparts hbuild h

end Operators

/-! ## 6. Tokens -/

/-- A token of a fixed text has that text. -/
theorem text_of_literal {rule : LexRule} {word : String} (hword : word.toList ≠ [])
    (hregex : rule.regex = .literal word) {s s' : Stream} {kind : Terminal} {channel : Channel}
    {length : Nat} {token : Token} (hlength : rule.length? s = some length)
    (hproduce : s.produce? kind length channel = some (token, s')) : token.text = word := by
  obtain ⟨hmatch, -⟩ := Option.filter_eq_some_iff.mp hlength
  obtain ⟨line, hline, hmatch⟩ := Option.bind_eq_some_iff.mp hmatch
  obtain ⟨lines, hunread⟩ := List.head?_eq_some_iff.mp hline
  rw [hregex] at hmatch
  by_cases hfront : word.toList <+: line
  · obtain ⟨rest, rfl⟩ := hfront
    rw [Regex.matchLength?_literal hword] at hmatch
    obtain rfl := Option.some.inj hmatch
    simp only [Stream.produce?, hunread, splitBytes_byteLength, Option.map_some, Option.some.injEq,
      Prod.mk.injEq] at hproduce
    rw [← hproduce.1, String.ofList_toList]
  · rw [Regex.matchLength?_literal_none hword hfront] at hmatch
    cases hmatch

theorem literal_of_operator : ∀ entry ∈ lexer.modes, ∀ rule ∈ entry.2, ∀ op ∈ operators,
    rule.kind = op.1 → rule.regex = .literal op.1 := by decide

/-- What the lexer hands out is settled. -/
theorem settled_next {mode : String} {s s' : Stream} {token : Token}
    (h : lexer.next mode s = .ok (token, s')) : Settled (.token token) := by
  intro op hop hkind
  obtain ⟨entry, hentry, rule, hrule, hname, length, hlength, hproduce⟩ := Lexer.next_kind h hkind
  have hword : ∀ op ∈ operators, op.1.toList ≠ [] := by decide
  exact text_of_literal (hword op hop) (literal_of_operator entry hentry rule hrule op hop hname) hlength
    hproduce

/-! ## 7. Runs -/

/-- The builder of the language. -/
def builder : Builder Piece Unit := fun r _ => (build r, ())

/-- What holds between steps. -/
structure Keeps (table : ParseTable) (a : Automaton) (run : Parser.Run Piece) (row : List (Grown Piece)) :
    Prop where
  stands : Parser.Stands a Settled run row
  arranged : Arranged table run.stack row
  pending : ∀ n below, row = .value "expr" (.node n) :: below →
    ∃ t, run.lookahead = some t ∧ (t.kind = .kind "*" → sumLevel < rank n)

section Runs

variable {g : Grammar} {a : Automaton} {p : Parser} {base : String} {delegate : Parser.Delegate}
  {paths : List PathRule} (m : ParseTable.Made g p.table a paths)
  (hname : g.start = "program") (hrules : g.rules = unitRules) (hkeeps : KeepsLevels p.table)
  (hstart : .nonterminal g.start ∉ Grammar.rhsSymbols g.rules)
  (hempty : .terminal .empty ∉ Grammar.rhsSymbols g.rules) (hends : g.ends = [.eof])
  {run run' : Parser.Run Piece} {row : List (Grown Piece)}

theorem settled_lookahead (h : Keeps p.table a run row) {token : Token} {stream : Stream}
    {new : List Token} (hsees : Parser.Sees lexer p base run (some token) stream new) :
    Settled (.token token) ∧ ∃ cursor, stream.last = some (token.span, cursor) := by
  cases hsees with
  | held hlook => exact h.stands.lookahead token hlook
  | read _ _ hnext _ => exact ⟨settled_next hnext, _, Lexer.last_next hnext⟩

include m hrules hkeeps hstart hempty hends in
/-- **Steps keep the precedences.** -/
theorem Keeps.step (h : Keeps p.table a run row)
    (hstep : Parser.step delegate lexer p base builder run () = .running run' ()) :
    ∃ row', Keeps p.table a run' row' := by
  have htable : ∀ s, p.table.action? s .empty = none := m.action?_empty hempty (by simp [hends])
  rcases Parser.step_running htable hstep with
    ⟨hlook, hstack, hlook', -⟩ | ⟨token, stream, new, action, hsees, haction, hperform⟩
  -- tokens were passed over, and nothing else changed
  · refine ⟨row, ⟨by rw [hstack]; exact h.stands.linked, h.stands.all_good, by simp [hlook']⟩,
      by rw [hstack]; exact h.arranged, fun n below hrow => ?_⟩
    obtain ⟨t, ht, -⟩ := h.pending n below hrow
    rw [hlook] at ht
    cases ht
  · have hjust := m.action?_justified hstart haction
    obtain ⟨hsettled, hlast⟩ := settled_lookahead h hsees
    cases action with
    | shift target =>
      obtain ⟨rfl, -⟩ := Parser.Progress.running.inj hperform
      refine ⟨.token token :: row, ⟨.cons hjust rfl h.stands.linked,
        List.forall_mem_cons.mpr ⟨hsettled, h.stands.all_good⟩, by simp⟩,
        .token haction ?_ h.arranged, by simp⟩
      intro n below hrow hkind
      obtain ⟨t, ht, hpending⟩ := h.pending n below hrow
      cases hsees with
      | held hlook =>
        obtain rfl := Option.some.inj (hlook.symm.trans ht)
        exact hpending hkind
      | read hlook _ _ _ =>
        rw [hlook] at ht
        cases ht
    | reduce id =>
      obtain ⟨r, parts, below, v, target, span, hrow, hred, rfl, hbuild, hgoto, rfl⟩ :=
        @Parser.reduce_running _ _ _ _ _ _ _ _ m ⟨run.stack, some token, run.previous, stream⟩ _ _ _ _
          h.stands.linked _ hjust.1 hjust.2 hperform
      have hparts : ∀ c ∈ parts, Settled c := fun c hc => h.stands.all_good c (by simp [hrow, hc])
      have hplaced : Placed p.table target token.kind r.lhs v :=
        placed_reduce h.stands.linked h.arranged hrow (by rw [m.grammar]; exact hred) hparts
          (Prod.mk.inj hbuild).1 haction hgoto hkeeps (by rw [m.grammar]; exact hrules)
      have hbelow : row.drop parts.length = below := by
        rw [hrow, ← List.length_reverse, List.drop_left]
      refine ⟨.value r.lhs v :: below, ⟨.cons hgoto rfl (hbelow ▸ h.stands.linked.drop _), ?_, ?_⟩,
        .value hplaced.exceeds (hbelow ▸ h.arranged.drop _), ?_⟩
      · refine List.forall_mem_cons.mpr ⟨hplaced.settled, fun c hc => h.stands.all_good c ?_⟩
        rw [hrow]
        exact List.mem_append_right _ hc
      · rintro t ⟨⟩
        exact ⟨hsettled, hlast⟩
      · rintro n rest heq
        obtain ⟨heq, -⟩ := List.cons.inj heq
        obtain ⟨hname, hv⟩ := Grown.value.inj heq
        exact ⟨token, rfl, hplaced.before n hname hv⟩
    | accept id => exact absurd hperform Parser.accept_ne_running

include m hname hrules hkeeps hstart hempty hends in
/-- Runs keep the precedences, and so does what is accepted. -/
theorem Keeps.drive : ∀ (fuel : Nat) {run : Parser.Run Piece} {row : List (Grown Piece)},
    Keeps p.table a run row → ∀ {v}, (Parser.drive lexer fuel p base builder run ()).1 = .ok v → v.Fine
  | 0, run, row, _, v, hdrive => by simp [Parser.drive] at hdrive
  | fuel + 1, run, row, h, v, hdrive => by
    have hout : Parser.Outcome g a lexer (Parser.delegateWith lexer fuel) p base builder Settled run ()
      row _ := Parser.step_outcome m hstart hempty h.stands ()
    rw [Parser.drive_succ] at hdrive
    cases hstep : Parser.step (Parser.delegateWith lexer fuel) lexer p base builder run () with
    | running run1 state1 =>
      rw [hstep] at hdrive
      obtain ⟨row1, h1⟩ := h.step m hrules hkeeps hstart hempty hends hstep
      exact Keeps.drive fuel h1 hdrive
    | stopped result stream1 state1 =>
      rw [hstep] at hout hdrive
      obtain rfl : result = .ok v := hdrive
      cases hout with
      | @accept look stream stream' new r parts _ _ hsees hrow hred _ hid hbuild hend =>
        have hplain : ∀ rule ∈ unitRules, rule.lhs = "program" → isPlain rule = true := by decide
        have hmem : g.rule r.rule ∈ unitRules := hrules ▸ Grammar.rule_mem hred.rule_lt
        have hlhs : (g.rule r.rule).lhs = "program" := by rw [hid, m.proper.lhs_startRule, hname]
        exact (settled_plain hred (fun c hc => h.stands.all_good c (by simp [hrow, hc]))
          (Prod.mk.inj hbuild).1 (hplain _ hmem hlhs)).1

end Runs

/-! ## 8. Whole texts -/

/-- What is known about the parser of the language. -/
structure Reads (p : Parser) : Prop where
  levels : KeepsLevels p.table
  strings : KeepsStrings p.table
  spots : FollowsSpots p.table
  made : ∃ a paths, ParseTable.Made p.table.grammar p.table a paths
  start : p.table.grammar.start = "program"
  rules : p.table.grammar.rules = unitRules
  ends : p.table.grammar.ends = [.eof]
  channel : p.channel = .default
  blanks : p.inner? blankChannel = none

theorem Reads.start_not_mem {p : Parser} (h : Reads p) :
    .nonterminal p.table.grammar.start ∉ Grammar.rhsSymbols p.table.grammar.rules := by
  rw [h.start, h.rules]
  decide

theorem Reads.empty_not_mem {p : Parser} (h : Reads p) :
    .terminal .empty ∉ Grammar.rhsSymbols p.table.grammar.rules := by
  rw [h.rules]
  decide

/-- The parser of the language, and the tables that it is made of. -/
theorem exists_parserOf : ∃ comments table, parser = .ok (parserOf comments table) ∧
    Reads (parserOf comments table) ∧ accepted comments table "demo" sampleText = true := by
  obtain ⟨comments, table, hcomments, htable, ⟨hlevels, hstrings, hspots⟩, haccepted⟩ := exists_tables
  obtain ⟨g, hg, hmade⟩ := bind_eq_ok.mp (show unitGrammar >>= ParseTable.ofGrammar = .ok table from htable)
  obtain ⟨hname, hrules, hends, -⟩ := Grammar.ofRules_eq hg
  obtain ⟨a, paths, m⟩ := ParseTable.made_ofGrammar (Grammar.proper_ofRules hg) hmade
  have hgrammar := m.grammar
  subst hgrammar
  refine ⟨comments, table, ?_,
    ⟨hlevels, hstrings, hspots, ⟨a, paths, m⟩, hname, hrules, hends, rfl, rfl⟩, haccepted⟩
  rw [parser, hcomments, htable]
  rfl

theorem exists_reads : ∃ p, parser = .ok p ∧ Reads p := by
  obtain ⟨comments, table, hp, hreads, -⟩ := exists_parserOf
  exact ⟨parserOf comments table, hp, hreads⟩

/-- What is read is what the parser gives. -/
theorem read_eq_ok_iff {p : Parser} (hp : parser = .ok p) {text : String} {n : Node} :
    read text = .ok n ↔
      (p.parse lexer (stepBudget text) defaultMode builder (.ofText text) ()).1 = .ok (.node n) := by
  have hbuilder : p.parse lexer (stepBudget text) defaultMode (fun r _ => (build r, ())) (.ofText text) () =
      p.parse lexer (stepBudget text) defaultMode builder (.ofText text) () := rfl
  rw [read, hp, ok_bind, hbuilder]
  generalize p.parse lexer (stepBudget text) defaultMode builder (.ofText text) () = parsed
  obtain ⟨result, stream, state⟩ := parsed
  cases result with
  | error e => simp [error_bind]
  | ok piece => cases piece <;> simp [ok_bind, pure, Except.pure, throw, throwThe, MonadExceptOf.throw]

/-- The sample has a raw tree, and this goes through all passes. -/
theorem read_sampleText : ∃ raw, read sampleText = .ok raw ∧
    Schedule.accepts "demo" sampleText raw = true := by
  obtain ⟨comments, table, hp, -, haccepted⟩ := exists_parserOf
  obtain ⟨piece, hpiece, haccepts⟩ := exists_of_toOption_any haccepted
  cases piece with
  | node raw => exact ⟨raw, (read_eq_ok_iff hp).mpr hpiece, haccepts⟩
  | _ => cases haccepts

/-- **Operators bind by their precedence**: in the tree of a text every operator has operands that bind
as tightly as it wants. -/
theorem everywhere_read {text : String} {n : Node} (h : read text = .ok n) : n.Everywhere Ordered := by
  obtain ⟨p, hp, hreads⟩ := exists_reads
  obtain ⟨a, paths, m⟩ := hreads.made
  have hkeeps : Keeps p.table a (Parser.start (Stream.ofText text)) [] :=
    ⟨Parser.stands_start _, .nil, by simp⟩
  exact hkeeps.drive m hreads.start hreads.rules hreads.levels hreads.start_not_mem hreads.empty_not_mem
    hreads.ends _ ((read_eq_ok_iff hp).mp h)

end Language

end Lode
