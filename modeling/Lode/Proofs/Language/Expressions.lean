/-
# Expressions are read as they are spelled

An expression whose operators are in order is read back from its words, up to places.  The parser is at a
spot where an operand is waited for, and goes on to the spot after it (`Parses`); what members can be taken
of is first read as such (`ParsesHead`).  There is one lemma for each form of expressions, and an induction
over expressions and their arguments (`parses`).

A form of expressions is read in three steps: its first words lead to a spot where a part is waited for, the
part is read by the induction, and a rule is reduced behind it.  What stands behind an expression decides
whether it is reduced there, so `Parses` is about an expression and whatever may follow it: a word that
closes it, or an operator that does not bind tighter.  That an operand binds more tightly than what it
stands in is the hypothesis which the induction carries down, and it is there because the operators are in
order.

The number of steps is bounded by eight for each character.  The parser has a budget that grows with the
text, and this is why the budget is enough.

String literals are read in a mode of their own, where no blank is passed over.  Their parts are read one by
one (`reaches_literal`), for every way of writing them.
-/
import Lode.Proofs.Language.Tracks

namespace Lode.Language

open Program
open Node (Everywhere Ordered)

/-! ## 1. What rules build, up to places -/

/-- Children that stand for marks. -/
abbrev Marked : List Mark → List (Child Piece) → Prop := List.Forall₂ Mark.Matches

namespace Marked

variable {marks : List Mark} {children : List (Child Piece)}

theorem word {kind w : String} (h : Marked (.word kind w :: marks) children) :
    ∃ t rest, children = .token t :: rest ∧ t.kind = .kind kind ∧ t.text = w ∧ Marked marks rest := by
  obtain ⟨c, rest, hc, hrest, rfl⟩ := List.forall₂_cons_left_iff.mp h
  cases c with
  | token t => exact ⟨t, rest, rfl, hc.1, hc.2, hrest⟩
  | value v => cases v <;> cases hc

theorem tree {n : Node} (h : Marked (.tree n :: marks) children) :
    ∃ m rest, children = .value (.node m) :: rest ∧ m.unplaced = n.unplaced ∧ Marked marks rest := by
  obtain ⟨c, rest, hc, hrest, rfl⟩ := List.forall₂_cons_left_iff.mp h
  cases c with
  | token t => cases hc
  | value v => cases v <;> first | exact ⟨_, rest, rfl, hc, hrest⟩ | cases hc

/-- Where trees were read there are nodes that are the same up to places. -/
theorem trees {ns : List Node} (h : Marked (.trees ns :: marks) children) :
    ∃ ms rest, children = .value (.list ms) :: rest ∧
      ms.map Node.unplaced = ns.map Node.unplaced ∧ Marked marks rest := by
  obtain ⟨c, rest, hc, hrest, rfl⟩ := List.forall₂_cons_left_iff.mp h
  cases c with
  | token t => cases hc
  | value v => cases v <;> first | exact ⟨_, rest, rfl, hc, hrest⟩ | cases hc

/-- Where a text was read there is this text. -/
theorem text {s : String} (h : Marked (.text s :: marks) children) :
    ∃ rest, children = .value (.text s) :: rest ∧ Marked marks rest := by
  obtain ⟨c, rest, hc, hrest, rfl⟩ := List.forall₂_cons_left_iff.mp h
  cases c with
  | token t => cases hc
  | value v =>
    cases v with
    | text s' =>
      obtain rfl : s' = s := hc
      exact ⟨rest, rfl, hrest⟩
    | _ => cases hc

theorem eq_nil (h : Marked [] children) : children = [] := List.forall₂_nil_left_iff.mp h

end Marked

/-- What a labelled rule builds from its children. -/
theorem builds_of_label {label : String} {marks : List Mark} {mark : Mark}
    (h : ∀ (span : Span) (children : List (Child Piece)), Marked marks children →
      ∃ v, buildLabelled label span children = .ok v ∧ mark.Matches (.value v)) :
    Builds (some label) marks mark := by
  intro r hlabel hchildren
  obtain ⟨v, hv, hmatches⟩ := h r.span r.children hchildren
  exact ⟨v, by rw [build, hlabel]; exact hv, hmatches⟩

section Building

variable {e l r : Expr} {span : Span}

theorem builds_pass {n : Node} : Builds none [.tree n] (.tree n) := by
  intro red hlabel h
  obtain ⟨m, _, hchildren, hm, ⟨⟩⟩ := Marked.tree h
  exact ⟨.node m, by rw [build, hlabel, hchildren], hm⟩

theorem builds_passTrees {ns : List Node} : Builds none [.trees ns] (.trees ns) := by
  intro red hlabel h
  obtain ⟨ms, _, hchildren, hms, ⟨⟩⟩ := Marked.trees h
  exact ⟨.list ms, by rw [build, hlabel, hchildren], hms⟩

/-- A number is built of its word. -/
theorem builds_number {n : Nat} (hn : n < 0x8000000000000000) : Builds (some "number")
    [.word "NUMBER" (toString (n : Int))] (.tree (Expr.number n none span).node) :=
  builds_of_label fun place children h => by
    obtain ⟨t, _, rfl, -, htext, ⟨⟩⟩ := h.word
    have hvalue : numberOf t = .ok (n : Int) := by
      have hread := readLiteral?_decimal hn
      rw [← toList_natCast, String.ofList_toList, ← htext] at hread
      rw [numberOf, hread]
    have hbuild : buildLabelled "number" place [.token t] =
        (numberOf t).bind fun value => .ok (.node (.build .number place [("value", .int value)])) := rfl
    exact ⟨.node (.build .number place [("value", .int n)]), by rw [hbuild, hvalue]; rfl, rfl⟩

theorem builds_ident {name : String} :
    Builds (some "ident") [.word "IDENT" name] (.tree (Expr.ident name none none span).node) :=
  builds_of_label fun place children h => by
    obtain ⟨t, _, rfl, -, rfl, ⟨⟩⟩ := h.word
    exact ⟨.node (.build .ident place [("name", .str t.text)]), rfl, rfl⟩

theorem builds_member {name : String} : Builds (some "member")
    [.tree e.node, .word "." ".", .word "IDENT" name] (.tree (Expr.member e name span).node) :=
  builds_of_label fun place children h => by
    obtain ⟨m, _, rfl, hm, h1⟩ := h.tree
    obtain ⟨_, _, rfl, -, -, h2⟩ := h1.word
    obtain ⟨t, _, rfl, -, rfl, ⟨⟩⟩ := h2.word
    refine ⟨.node (.build .member place [("target", .node m), ("name", .str t.text)]), rfl, ?_⟩
    change Node.mk .member (.cons "name" _ (.cons "target" (.node m.unplaced) .nil)) _ = _
    rw [hm]
    rfl

/-- An operator is built of its operands and its word. -/
theorem builds_binop {op kind : String} : Builds (some "binop")
    [.tree l.node, .word kind op, .tree r.node] (.tree (Expr.binop op l r none span).node) :=
  builds_of_label fun place children h => by
    obtain ⟨m, _, rfl, hm, h1⟩ := h.tree
    obtain ⟨t, _, rfl, -, rfl, h2⟩ := h1.word
    obtain ⟨m', _, rfl, hm', ⟨⟩⟩ := h2.tree
    refine ⟨.node (.build .binop place [("op", .str t.text), ("lhs", .node m), ("rhs", .node m')]), rfl, ?_⟩
    change Node.mk .binop (.cons "lhs" (.node m.unplaced) (.cons "op" _
      (.cons "rhs" (.node m'.unplaced) .nil))) _ = _
    rw [hm, hm']
    rfl

theorem builds_neg : Builds (some "neg") [.word "-" "-", .tree e.node] (.tree (Expr.neg e none span).node) :=
  builds_of_label fun place children h => by
    obtain ⟨_, _, rfl, -, -, h1⟩ := h.word
    obtain ⟨m, _, rfl, hm, ⟨⟩⟩ := h1.tree
    refine ⟨.node (.build .neg place [("operand", .node m)]), rfl, ?_⟩
    change Node.mk .neg (.cons "operand" (.node m.unplaced) .nil) _ = _
    rw [hm]
    rfl

theorem builds_deref :
    Builds (some "deref") [.word "@" "@", .tree e.node] (.tree (Expr.deref e none span).node) :=
  builds_of_label fun place children h => by
    obtain ⟨_, _, rfl, -, -, h1⟩ := h.word
    obtain ⟨m, _, rfl, hm, ⟨⟩⟩ := h1.tree
    refine ⟨.node (.build .deref place [("target", .node m)]), rfl, ?_⟩
    change Node.mk .deref (.cons "target" (.node m.unplaced) .nil) _ = _
    rw [hm]
    rfl

theorem builds_paren : Builds (some "paren") [.word "(" "(", .tree e.node, .word ")" ")"]
    (.tree (Expr.paren e span).node) :=
  builds_of_label fun place children h => by
    obtain ⟨_, _, rfl, -, -, h1⟩ := h.word
    obtain ⟨m, _, rfl, hm, h2⟩ := h1.tree
    obtain ⟨_, _, rfl, -, -, ⟨⟩⟩ := h2.word
    refine ⟨.node (.build .paren place [("expr", .node m)]), rfl, ?_⟩
    change Node.mk .paren (.cons "expr" (.node m.unplaced) .nil) _ = _
    rw [hm]
    rfl

theorem builds_emptyList : Builds (some "empty_list") [] (.trees []) :=
  builds_of_label fun place children h => by
    obtain rfl := h.eq_nil
    exact ⟨.list [], rfl, rfl⟩

theorem builds_singleton {n : Node} : Builds (some "singleton") [.tree n] (.trees [n]) :=
  builds_of_label fun place children h => by
    obtain ⟨m, _, rfl, hm, ⟨⟩⟩ := h.tree
    exact ⟨.list [m], rfl, congrArg (fun n => [n]) hm⟩

/-- Trees with one more at their end are the same up to places if the parts are. -/
theorem matches_trees_append {ms ns : List Node} {m n : Node}
    (hms : ms.map Node.unplaced = ns.map Node.unplaced) (hm : m.unplaced = n.unplaced) :
    (Mark.trees (ns ++ [n])).Matches (.value (.list (ms ++ [m]))) := by
  change (ms ++ [m]).map Node.unplaced = (ns ++ [n]).map Node.unplaced
  rw [List.map_append, List.map_append, hms, List.map_singleton, List.map_singleton, hm]

theorem builds_append {ns : List Node} {n : Node} :
    Builds (some "append") [.trees ns, .tree n] (.trees (ns ++ [n])) :=
  builds_of_label fun place children h => by
    obtain ⟨ms, _, rfl, hms, h1⟩ := h.trees
    obtain ⟨m, _, rfl, hm, ⟨⟩⟩ := h1.tree
    exact ⟨.list (ms ++ [m]), rfl, matches_trees_append hms hm⟩

theorem builds_appendSep {ns : List Node} {n : Node} :
    Builds (some "append_sep") [.trees ns, .word "," ",", .tree n] (.trees (ns ++ [n])) :=
  builds_of_label fun place children h => by
    obtain ⟨ms, _, rfl, hms, h1⟩ := h.trees
    obtain ⟨_, _, rfl, -, -, h2⟩ := h1.word
    obtain ⟨m, _, rfl, hm, ⟨⟩⟩ := h2.tree
    exact ⟨.list (ms ++ [m]), rfl, matches_trees_append hms hm⟩

/-- The chain of arguments, up to places. -/
theorem unplaced_sequence : ∀ {args : Args} {ms : List Node},
    ms.map Node.unplaced = (args.toList.map Expr.node).map Node.unplaced →
    (Node.sequence .args ms none).map Node.unplaced = args.node?.map Node.unplaced
  | .nil, ms, h => by
    obtain rfl := List.map_eq_nil_iff.mp h
    rfl
  | .cons arg rest _, [], h => by cases h
  | .cons arg rest _, m :: ms, h => by
    obtain ⟨hm, hms⟩ := List.cons.inj h
    have ih := unplaced_sequence hms
    rw [Args.node?, Option.map_some]
    change some (Node.cell .args "arg" m (Node.sequence .args ms none)).unplaced = _
    cases hrest : rest.node? with
    | none =>
      rw [hrest, Option.map_none, Option.map_eq_none_iff] at ih
      rw [ih]
      change some (Node.mk .args (.cons "arg" (.node m.unplaced) .nil) _) = _
      rw [hm]
      rfl
    | some n =>
      rw [hrest, Option.map_some] at ih
      obtain ⟨n', hn', hunplaced⟩ := Option.map_eq_some_iff.mp ih
      rw [hn']
      change some (Node.mk .args (.cons "arg" (.node m.unplaced) (.cons "next" (.node n'.unplaced) .nil)) _) = _
      rw [hm, hunplaced]
      rfl

/-- A call is built of what is called and the list of its arguments. -/
theorem builds_call {args : Args} : Builds (some "call")
    [.tree e.node, .word "(" "(", .trees (args.toList.map Expr.node), .word ")" ")"]
    (.tree (Expr.call e args none none span).node) :=
  builds_of_label fun place children h => by
    obtain ⟨m, _, rfl, hm, h1⟩ := h.tree
    obtain ⟨_, _, rfl, -, -, h2⟩ := h1.word
    obtain ⟨ms, _, rfl, hms, h3⟩ := h2.trees
    obtain ⟨_, _, rfl, -, -, ⟨⟩⟩ := h3.word
    refine ⟨.node ((Node.build .call place [("target", .node m)]).set? "args"
      ((Node.sequence .args ms none).map .node)), rfl, ?_⟩
    have hargs := unplaced_sequence hms
    change Node.unplaced _ = (Expr.call e args none none span).node.unplaced
    rw [Expr.node]
    cases hnode : args.node? with
    | none =>
      rw [hnode, Option.map_none, Option.map_eq_none_iff] at hargs
      rw [hargs]
      change Node.mk .call (.cons "target" (.node m.unplaced) .nil) _ = _
      rw [hm]
      rfl
    | some n =>
      rw [hnode, Option.map_some] at hargs
      obtain ⟨n', hn', hunplaced⟩ := Option.map_eq_some_iff.mp hargs
      rw [hn']
      change Node.mk .call (.cons "args" (.node n'.unplaced) (.cons "target" (.node m.unplaced) .nil)) _ = _
      rw [hm, hunplaced]
      rfl

end Building

/-! ## 2. Operands -/

/-- An operand is read where one is waited for, if it binds tightly enough there and before what follows. -/
def Parses (p : Parser) (e : Expr) : Prop :=
  ∀ {o : Operand} {track : Track} {rest : List String}, track.top = .operand o → o.level < rank e.node →
    (peek rest).1 ∈ Spot.closers → ((peek rest).1 = .kind "*" → sumLevel < rank e.node) →
    Reaches p (8 * (spaced e.words).length + 1) (.unread track (e.words ++ rest))
      (.held ((.after o, .tree e.node) :: track) rest)

/-- What members can be taken of is read where an operand is waited for. -/
def ParsesHead (p : Parser) (e : Expr) : Prop :=
  ∀ {o : Operand} {track : Track} {rest : List String}, track.top = .operand o →
    (peek rest).1 ∈ Spot.closers ++ Spot.openers →
    Reaches p (8 * (spaced e.words).length) (.unread track (e.words ++ rest))
      (.held ((.target, .tree e.node) :: track) rest)

/-- Where an operand is waited for, ordinary text is read. -/
theorem mode_of_top {track : Track} {o : Operand} (h : track.top = .operand o) :
    track.mode = defaultMode := by
  cases track with
  | nil => cases h
  | cons entry track =>
    have h : entry.1 = .operand o := h
    rw [Track.mode, h]
    rfl

/-- What follows an operand is a symbol. -/
theorem symbols_of_peek {rest : List String} (h : (peek rest).1 ∈ Spot.closers ++ Spot.openers) :
    ∀ w ∈ rest.head?, w ∈ symbols := by
  cases rest with
  | nil => simp
  | cons v rest =>
    rintro _ ⟨⟩
    have hmem : v ∈ ["+", "-", "*", ")", ",", ".", "("] := by
      simpa [peek, Spot.closers, Spot.openers] using h
    have hall : ∀ w ∈ ["+", "-", "*", ")", ",", ".", "("], w ∈ symbols := by decide
    exact hall v hmem

theorem rank_pos (n : Node) : 0 < rank n := by
  unfold rank
  split
  · split <;> decide
  · decide

section Forms

variable {p : Parser} (hreads : Reads p) {e l r : Expr} {span : Span}
include hreads

/-- A number is read where an operand is waited for. -/
theorem parses_number {n : Nat} (hn : n < 0x8000000000000000) : Parses p (.number n none span) := by
  intro o track rest htop _ hpeek _
  have hmode := mode_of_top htop
  have hrest := symbols_of_peek (List.mem_append_left _ hpeek)
  refine .mono (.trans (shift_unread hreads (word_number n) hmode (by rw [htop]; rfl) (by decide))
    (reduce_unread hreads [(.number, .word "NUMBER" (toString (n : Int)))] track rfl hpeek
      (by rw [htop]; rfl) (by decide) (builds_number hn) hmode hrest)) ?_
  simp [Expr.words]
  omega

/-- An operator between operands. -/
theorem reaches_infix {op : String} (hop : op ∈ ["+", "-", "*"]) (hl : Parses p l) (hr : Parses p r)
    {o q : Operand} {track : Track} {rest : List String} (htop : track.top = .operand o)
    (hshift : (Spot.after o).shift op = some (.operand q))
    (hcompleted : (Spot.after q).completed = some ⟨"expr", 3, some "binop"⟩)
    (hlevel : o.level < rank l.node) (hstar : op = "*" → sumLevel < rank l.node)
    (hlevel' : q.level < rank r.node) (hstar' : (peek rest).1 = .kind "*" → sumLevel < rank r.node)
    (hpeek : (peek rest).1 ∈ Spot.closers) (hpeek' : (peek rest).1 ∈ (Spot.after q).lookaheads) :
    Reaches p (8 * (spaced (l.words ++ op :: r.words)).length + 1)
      (.unread track (l.words ++ op :: r.words ++ rest))
      (.held ((.after o, .tree (Expr.binop op l r none span).node) :: track) rest) := by
  have hkind : ∀ op ∈ ["+", "-", "*"], op ∈ Spot.kinds ∧ .kind op ∈ Spot.closers := by decide
  rw [List.append_assoc, List.cons_append]
  refine .mono (.trans (.trans (.trans
    (hl htop hlevel (hkind op hop).2 fun heq => hstar (Terminal.kind.inj heq))
    (shift_held hreads hshift (hkind op hop).1))
    (hr (o := q) rfl hlevel' hpeek hstar'))
    (reduce_held hreads [(.after q, .tree r.node), (.operand q, .word op op), (.after o, .tree l.node)] track
      hcompleted hpeek' (by rw [htop]; rfl) (by decide) builds_binop)) ?_
  simp only [spaced_append, spaced_cons, List.length_append, List.length_cons]
  omega

/-- **Sums and differences** go on from the left. -/
theorem parses_sum {op : String} (hop : op = "+" ∨ op = "-") (hl : Parses p l) (hr : Parses p r)
    (hordered : (Expr.binop op l r none span).node.Ordered) : Parses p (.binop op l r none span) := by
  intro o track rest htop hlevel hpeek hstar
  have hsum : (op == "+" || op == "-") = true := by simpa using hop
  have hrank : rank (Expr.binop op l r none span).node = sumLevel := by
    have htag : (Expr.binop op l r none span).node.tag = .binop := rfl
    have hnode : (Expr.binop op l r none span).node.isSum = true := hsum
    rw [rank, if_pos htag, if_pos hnode]
  rw [hrank] at hlevel hstar
  have hright := sumLevel_lt_rank.mpr ((ordered_binop.mp hordered).1 hsum)
  have hshift : (Spot.after o).shift op = some (.operand .sum) := by
    rcases hop with rfl | rfl <;> cases o <;> first | rfl | exact absurd hlevel (by decide)
  have hlowest : ∀ o : Operand, o.level < sumLevel → o.level = 0 := by
    intro o
    cases o <;> decide
  refine reaches_infix hreads (by rcases hop with rfl | rfl <;> decide) hl hr htop hshift rfl ?_ ?_ hright
    (fun _ => hright) hpeek ?_
  · rw [hlowest o hlevel]
    exact rank_pos _
  · rintro rfl
    cases hsum
  · refine List.mem_filter.mpr ⟨hpeek, ?_⟩
    simpa using fun heq => Nat.lt_irrefl _ (hstar heq)

/-- **Products** go on from the left, and before sums. -/
theorem parses_product (hl : Parses p l) (hr : Parses p r)
    (hordered : (Expr.binop "*" l r none span).node.Ordered) : Parses p (.binop "*" l r none span) := by
  intro o track rest htop hlevel hpeek _
  have hlevel : o.level < productLevel := hlevel
  obtain ⟨hleft, hright⟩ := (ordered_binop.mp hordered).2 rfl
  have hleft := sumLevel_lt_rank.mpr hleft
  have hright := productLevel_lt_rank.mpr hright
  have hshift : (Spot.after o).shift "*" = some (.operand .product) := by
    cases o <;> first | rfl | exact absurd hlevel (by decide)
  have hlower : ∀ o : Operand, o.level < productLevel → o.level ≤ sumLevel := by
    intro o
    cases o <;> decide
  exact reaches_infix hreads (by decide) hl hr htop hshift rfl (Nat.lt_of_le_of_lt (hlower o hlevel) hleft)
    (fun _ => hleft) hright (fun _ => Nat.lt_trans (by decide) hright) hpeek hpeek

/-- **Negations**, if the operand is no operator. -/
theorem parses_neg (he : Parses p e) (hordered : (Expr.neg e none span).node.Ordered) :
    Parses p (.neg e none span) := by
  intro o track rest htop _ hpeek _
  have hmode := mode_of_top htop
  have htag := ordered_neg.mp hordered
  have hrank := productLevel_lt_rank.mpr htag
  refine .mono (.trans (.trans
    (shift_unread hreads (word_symbol (by decide)) hmode (by rw [htop]; rfl) (by decide))
    (he (o := .neg) rfl hrank hpeek fun _ => Nat.lt_trans (by decide) hrank))
    (reduce_held hreads [(.after .neg, .tree e.node), (.operand .neg, .word "-" "-")] track rfl hpeek
      (by rw [htop]; rfl) (by decide) builds_neg)) ?_
  simp [Expr.words]
  omega

/-- **Dereferences**, if the operand is no operator. -/
theorem parses_deref (he : Parses p e) (hordered : (Expr.deref e none span).node.Ordered) :
    Parses p (.deref e none span) := by
  intro o track rest htop _ hpeek _
  have hmode := mode_of_top htop
  have htag := ordered_deref.mp hordered
  have hrank := productLevel_lt_rank.mpr htag
  refine .mono (.trans (.trans
    (shift_unread hreads (word_symbol (by decide)) hmode (by rw [htop]; rfl) (by decide))
    (he (o := .deref) rfl hrank hpeek fun _ => Nat.lt_trans (by decide) hrank))
    (reduce_held hreads [(.after .deref, .tree e.node), (.operand .deref, .word "@" "@")] track rfl hpeek
      (by rw [htop]; rfl) (by decide) builds_deref)) ?_
  simp [Expr.words]
  omega

/-- **Brackets**, whatever stands in them. -/
theorem parses_paren (he : Parses p e) : Parses p (.paren e span) := by
  intro o track rest htop _ hpeek _
  have hmode := mode_of_top htop
  have hrest := symbols_of_peek (List.mem_append_left _ hpeek)
  have hwords : (Expr.paren e span).words ++ rest = "(" :: (e.words ++ ")" :: rest) := by simp [Expr.words]
  rw [hwords]
  refine .mono (.trans (.trans (.trans
    (shift_unread hreads (word_symbol (by decide)) hmode (by rw [htop]; rfl) (by decide))
    (he (o := .paren) rfl (rank_pos _) (by decide : .kind ")" ∈ Spot.closers)
      fun heq => absurd (Terminal.kind.inj heq) (by decide)))
    (shift_held hreads rfl (by decide)))
    (reduce_unread hreads [(.closed, .word ")" ")"), (.after .paren, .tree e.node),
      (.operand .paren, .word "(" "(")] track rfl hpeek (by rw [htop]; rfl) (by decide) builds_paren rfl
      hrest)) ?_
  simp [Expr.words]
  omega

/-! ## 3. Members and calls -/

theorem parses_of_head (he : ParsesHead p e) : Parses p e := by
  intro o track rest htop _ hpeek _
  exact .trans (he htop (List.mem_append_left _ hpeek))
    (reduce_held hreads [(.target, .tree e.node)] track rfl hpeek (by rw [htop]; rfl) (by decide) builds_pass)

/-- **Names.** -/
theorem parsesHead_ident {name : String} (hname : isName name = true) :
    ParsesHead p (.ident name none none span) := by
  intro o track rest htop hpeek
  have hmode := mode_of_top htop
  refine .mono (.trans (shift_unread hreads (word_name hname) hmode (by rw [htop]; rfl) (by decide))
    (reduce_unread hreads [(.name, .word "IDENT" name)] track rfl hpeek (by rw [htop]; rfl) (by decide)
      builds_ident hmode (symbols_of_peek hpeek))) ?_
  simp [Expr.words]
  omega

/-- **Members** go on behind what they are taken of. -/
theorem parsesHead_member {name : String} (he : ParsesHead p e) (hname : isName name = true) :
    ParsesHead p (.member e name span) := by
  intro o track rest htop hpeek
  have hmode := mode_of_top htop
  have hwords : (Expr.member e name span).words ++ rest = e.words ++ "." :: name :: rest := by
    simp [Expr.words]
  rw [hwords]
  refine .mono (.trans (.trans (.trans
    (he htop (by decide : .kind "." ∈ Spot.closers ++ Spot.openers))
    (shift_held hreads rfl (by decide)))
    (shift_unread hreads (word_name hname) hmode rfl (by decide)))
    (reduce_unread hreads [(.member, .word "IDENT" name), (.dot, .word "." "."), (.target, .tree e.node)] track
      rfl hpeek (by rw [htop]; rfl) (by decide) builds_member hmode (symbols_of_peek hpeek))) ?_
  simp [Expr.words]
  omega

/-- Further arguments are read after the first one. -/
def ParsesFurther (p : Parser) (args : Args) : Prop :=
  ∀ {track : Track} {ns : List Node} {rest : List String}, track.top = .operand .argument →
    Reaches p (8 * (spaced args.further).length) (.held ((.args, .trees ns) :: track)
        (args.further ++ ")" :: rest))
      (.held ((.args, .trees (ns ++ args.toList.map Expr.node)) :: track) (")" :: rest))

/-- Arguments are read between the brackets of a call. -/
def ParsesArgs (p : Parser) (args : Args) : Prop :=
  ∀ {track : Track} {rest : List String}, track.top = .operand .argument →
    Reaches p (8 * (spaced args.words).length + 3) (.unread track (args.words ++ ")" :: rest))
      (.held ((.argList, .trees (args.toList.map Expr.node)) :: track) (")" :: rest))

omit hreads in
/-- After an argument there is a comma or the bracket. -/
theorem peek_further (args : Args) (rest : List String) :
    (peek (args.further ++ ")" :: rest)).1 ∈ ([.kind ",", .kind ")"] : List Terminal) := by
  cases args with
  | nil => exact List.mem_cons_of_mem _ List.mem_cons_self
  | cons arg args span => exact List.mem_cons_self

omit hreads in
theorem parses_argument (he : Parses p e) {o : Operand} (ho : o.level = 0) {track : Track} (args : Args)
    {rest : List String} (htop : track.top = .operand o) :
    Reaches p (8 * (spaced e.words).length + 1) (.unread track (e.words ++ (args.further ++ ")" :: rest)))
      (.held ((.after o, .tree e.node) :: track) (args.further ++ ")" :: rest)) := by
  have hall : ∀ t ∈ ([.kind ",", .kind ")"] : List Terminal), t ∈ Spot.closers ∧ t ≠ .kind "*" := by decide
  obtain ⟨hclosers, hstar⟩ := hall _ (peek_further args rest)
  exact he htop (by rw [ho]; exact rank_pos _) hclosers fun heq => absurd heq hstar

omit hreads in
theorem parsesFurther_nil : ParsesFurther p .nil := by
  intro track ns rest _
  have htrees : ns ++ (Args.nil.toList).map Expr.node = ns := List.append_nil ns
  rw [htrees]
  exact (Reaches.refl p _).mono (Nat.zero_le _)

/-- A further argument stands behind a comma. -/
theorem parsesFurther_cons {args : Args} (he : Parses p e) (hargs : ParsesFurther p args) :
    ParsesFurther p (.cons e args span) := by
  intro track ns rest htop
  have hwords : (Args.cons e args span).further ++ ")" :: rest =
      "," :: (e.words ++ (args.further ++ ")" :: rest)) := by simp [Args.further]
  have htrees : ns ++ ((Args.cons e args span).toList).map Expr.node =
      ns ++ [e.node] ++ args.toList.map Expr.node := by simp [Args.toList]
  rw [hwords, htrees]
  refine .mono (.trans (.trans (.trans
    (shift_held hreads rfl (by decide))
    (parses_argument he (o := .further) rfl args rfl))
    (reduce_held hreads [(.after .further, .tree e.node), (.operand .further, .word "," ","),
      (.args, .trees ns)] track rfl (peek_further args rest) (by rw [htop]; rfl) (by decide) builds_appendSep))
    (hargs htop)) ?_
  simp [Args.further]
  omega

/-- A call without arguments. -/
theorem parsesArgs_nil : ParsesArgs p .nil := by
  intro track rest htop
  have hmode := mode_of_top htop
  have hcompleted : track.top.completed = some ⟨"arg_list", 0, some "empty_list"⟩ := by
    rw [htop]
    rfl
  have hpeek : (peek (")" :: rest)).1 ∈ track.top.lookaheads := by
    rw [htop]
    exact List.mem_cons_self
  exact (reduce_unread hreads [] track hcompleted hpeek (by rw [htop]; rfl) (by decide) builds_emptyList hmode
    (by simp [symbols])).mono (by omega)

/-- A call with arguments. -/
theorem parsesArgs_cons {args : Args} (he : Parses p e) (hargs : ParsesFurther p args) :
    ParsesArgs p (.cons e args span) := by
  intro track rest htop
  have hwords : (Args.cons e args span).words ++ ")" :: rest =
      e.words ++ (args.further ++ ")" :: rest) := by simp [Args.words]
  rw [hwords]
  refine .mono (.trans (.trans (.trans
    (parses_argument he rfl args htop)
    (reduce_held hreads [(.after .argument, .tree e.node)] track rfl (peek_further args rest)
      (by rw [htop]; rfl) (by decide) builds_singleton))
    (hargs htop))
    (reduce_held hreads [(.args, .trees ([e.node] ++ args.toList.map Expr.node))] track rfl
      List.mem_cons_self (by rw [htop]; rfl) (by decide) builds_passTrees)) ?_
  simp [Args.words]
  omega

/-- **Calls** go on behind what is called. -/
theorem parsesHead_call {args : Args} (he : ParsesHead p e) (hargs : ParsesArgs p args) :
    ParsesHead p (.call e args none none span) := by
  intro o track rest htop hpeek
  have hmode := mode_of_top htop
  have hwords : (Expr.call e args none none span).words ++ rest =
      e.words ++ "(" :: (args.words ++ ")" :: rest) := by simp [Expr.words]
  rw [hwords]
  refine .mono (.trans (.trans (.trans (.trans (.trans
    (he htop (by decide : .kind "(" ∈ Spot.closers ++ Spot.openers))
    (shift_held hreads rfl (by decide)))
    (hargs rfl))
    (shift_held hreads rfl (by decide)))
    (reduce_unread hreads [(.called, .word ")" ")"), (.argList, .trees (args.toList.map Expr.node)),
      (.operand .argument, .word "(" "("), (.target, .tree e.node)] track rfl hpeek (by rw [htop]; rfl)
      (by decide) builds_call rfl (symbols_of_peek hpeek)))
    (reduce_held hreads [(.call, .tree (Expr.call e args none none span).node)] track rfl hpeek
      (by rw [htop]; rfl) (by decide) builds_pass)) ?_
  simp [Expr.words]
  omega

/-! ## 4. String literals -/

omit hreads in
theorem builds_string {s : String} : Builds (some "string")
    [.word "\"" "\"", .text s, .word "\"" "\""] (.tree (Expr.string s none span).node) :=
  builds_of_label fun place children h => by
    obtain ⟨_, _, rfl, -, -, h1⟩ := h.word
    obtain ⟨_, rfl, h2⟩ := h1.text
    obtain ⟨_, _, rfl, -, -, ⟨⟩⟩ := h2.word
    exact ⟨.node (.build .string place [("value", .str s)]), rfl, rfl⟩

omit hreads in
theorem builds_stringEmpty : Builds (some "string_empty") [] (.text "") :=
  builds_of_label fun place children h => by
    obtain rfl := h.eq_nil
    exact ⟨.text "", rfl, rfl⟩

omit hreads in
/-- A part of a literal is added to the text before it. -/
theorem builds_stringPiece {front piece s : String} {kind : String}
    (happend : ∀ t : Token, t.kind = .kind kind → t.text = piece → appendPiece front t = .ok s) :
    Builds (some "string_piece") [.text front, .word kind piece] (.text s) :=
  builds_of_label fun place children h => by
    obtain ⟨_, rfl, h1⟩ := h.text
    obtain ⟨t, _, rfl, hkind, htext, ⟨⟩⟩ := h1.word
    have hbuild : buildLabelled "string_piece" place [.value (.text front), .token t] =
        (appendPiece front t).bind fun s => .ok (.text s) := rfl
    exact ⟨.text s, by rw [hbuild, happend t hkind htext]; rfl, rfl⟩

/-- What is read of a literal before its end, the quote below. -/
abbrev inLiteral (track : Track) : Track := (.quote, .word "\"" "\"") :: track

/-- The text read so far is due to be reduced, before the next part of the literal. -/
def Due (p : Parser) (track above : Track) (front : String) : Prop :=
  ∀ {input rest : List Char} {kind : Terminal} {text : String}, kind ∈ Spot.pieces →
    Shows stringMode none input kind text rest →
    Reaches p 1 ⟨above, none, input⟩ ⟨(.body, .text front) :: inLiteral track, some (kind, text), rest⟩

theorem due_quote (track : Track) : Due p track (inLiteral track) "" := fun hkind hshows =>
  reaches_reduce hreads [] (inLiteral track) rfl hkind rfl (by decide) builds_stringEmpty hshows

theorem due_piece (track : Track) {front piece s kind : String}
    (happend : ∀ t : Token, t.kind = .kind kind → t.text = piece → appendPiece front t = .ok s) :
    Due p track ((.piece, .word kind piece) :: (.body, .text front) :: inLiteral track) s :=
  fun hkind hshows => reaches_reduce hreads [(.piece, .word kind piece), (.body, .text front)]
    (inLiteral track) rfl hkind rfl (by decide) (builds_stringPiece happend) hshows

/-- A part of a literal is read. -/
theorem Due.piece {track above : Track} {front : String} (h : Due p track above front) {kind : String}
    (hkind : kind = "STRING_TEXT" ∨ kind = "ESCAPE") {part rest : List Char}
    (hlexes : Lexes lexer stringMode part rest (.kind kind) .default) :
    Reaches p 2 ⟨above, none, part ++ rest⟩
      ⟨(.piece, .word kind (String.ofList part)) :: (.body, .text front) :: inLiteral track, none, rest⟩ := by
  have hpieces : .kind kind ∈ Spot.pieces ∧ kind ∈ Spot.kinds ∧ Spot.body.shift kind = some .piece := by
    rcases hkind with rfl | rfl <;> decide
  exact (h hpieces.1 (.read hlexes (.inr rfl))).trans
    (reaches_shift hreads hpieces.2.2 hpieces.2.1 (.held _ _ _))

/-- **The inside of a literal.**  Each part takes two steps: the text before it is reduced, and the part
is shifted.  The parts are escapes, and what stands for itself between them. -/
theorem reaches_literal (track : Track) (tail : List Char) : ∀ {s body : List Char} {front : String}
    {above : Track}, Literal s body → Due p track above front →
    Reaches p (2 * body.length + 2) ⟨above, none, body ++ '"' :: tail⟩
      ⟨(.unquoted, .word "\"" "\"") :: (.body, .text (front ++ String.ofList s)) :: inLiteral track, none,
        tail⟩
  | _, _, front, above, .nil, hdue => by
    have hshows := Shows.read (lexes_closing tail) (.inr rfl)
    rw [String.ofList_nil, String.append_empty]
    exact .mono (.trans (hdue (by decide) hshows) (reaches_shift hreads rfl (by decide) (.held _ _ _)))
      (by decide)
  | _, _, front, above, @Literal.escaped c s part body hpart h, hdue => by
    have happend : ∀ t : Token, t.kind = .kind "ESCAPE" → t.text = String.ofList part →
        appendPiece front t = .ok (front.push c) := by
      intro t hkind htext
      rw [appendPiece, hkind, if_pos (by decide), escapeOf_escaped hpart htext]
      rfl
    have hpiece := hdue.piece hreads (.inr rfl) (lexes_escaped hpart (body ++ '"' :: tail))
    have hrest := reaches_literal track tail h (due_piece hreads track happend)
    have hfront : front.push c ++ String.ofList s = front ++ String.ofList (c :: s) :=
      String.toList_inj.mp (by simp)
    have hpos := hpart.length_pos
    rw [List.append_assoc, ← hfront]
    refine (hpiece.trans hrest).mono ?_
    rw [List.length_append]
    omega
  | _, _, front, above, @Literal.plain c s body hc h, hdue => by
    -- the part goes as far as characters stand for themselves
    obtain ⟨run, s', body', hs, hbody, hrun, hhead, h⟩ := h.span
    have happend : ∀ t : Token, t.kind = .kind "STRING_TEXT" → t.text = String.ofList (c :: run) →
        appendPiece front t = .ok (front ++ String.ofList (c :: run)) := by
      intro t hkind htext
      rw [appendPiece, hkind, if_neg (by decide), htext]
    have hstop : ∀ d ∈ (body' ++ '"' :: tail).head?, plainChars.contains d = false := by
      cases body' with
      | nil =>
        rintro d ⟨⟩
        decide
      | cons d body' => exact hhead
    have hpiece := hdue.piece hreads (.inl rfl) (lexes_stringText hc hrun hstop)
    have hrest := reaches_literal track tail h (due_piece hreads track happend)
    have hfront : front ++ String.ofList (c :: run) ++ String.ofList s' =
        front ++ String.ofList (c :: s) := String.toList_inj.mp (by simp [hs])
    rw [hbody, ← List.cons_append, List.append_assoc, ← hfront]
    refine (hpiece.trans hrest).mono ?_
    rw [List.length_append, List.length_cons]
    omega
termination_by s => s.length
decreasing_by
  · simp
  · rw [hs, List.length_cons, List.length_append]
    omega

/-- The parser behind the closing quote of a literal. -/
abbrev closedLiteral (s : String) (track : Track) : Track :=
  (.unquoted, .word "\"" "\"") :: (.body, .text s) :: inLiteral track

/-- A literal is read up to its closing quote, whatever follows. -/
theorem reaches_closed {s : String} {body : List Char} (h : Literal s.toList body) {o : Operand} {track : Track}
    (htop : track.top = .operand o) (tail : List Char) :
    Reaches p (2 * body.length + 4) ⟨track, none, ' ' :: '"' :: (body ++ '"' :: tail)⟩
      ⟨closedLiteral s track, none, tail⟩ := by
  have hmode := mode_of_top htop
  have hshows : Shows track.mode none ('"' :: (body ++ '"' :: tail)) (.kind "\"") "\"" (body ++ '"' :: tail) := by
    rw [hmode]
    exact .read (lexes_symbol List.mem_cons_self fun h => absurd h (by decide)) (.inr rfl)
  have hinside := reaches_literal hreads track tail h (due_quote hreads track)
  rw [String.ofList_toList, String.empty_append] at hinside
  refine .mono (.trans (.trans (reaches_skip hreads hmode ((isSpace_eq _).trans rfl))
    (reaches_shift hreads (by rw [htop]; rfl) (by decide) hshows)) hinside) ?_
  omega

/-- A literal is an operand. -/
theorem reaches_string {s : String} {body : List Char} (h : Literal s.toList body) {o : Operand} {track : Track}
    {rest : List String} (htop : track.top = .operand o) (hpeek : (peek rest).1 ∈ Spot.closers) :
    Reaches p (2 * body.length + 7) ⟨track, none, ' ' :: '"' :: (body ++ '"' :: spaced rest)⟩
      (.held ((.after o, .tree (Expr.string s none span).node) :: track) rest) := by
  refine .mono (.trans (.trans (reaches_closed hreads h htop (spaced rest))
    (reduce_unread hreads [(.unquoted, .word "\"" "\""), (.body, .text s), (.quote, .word "\"" "\"")] track
      rfl hpeek (by rw [htop]; rfl) (by decide) builds_string rfl
      (symbols_of_peek (List.mem_append_left _ hpeek))))
    (reduce_held hreads [(.string, .tree (Expr.string s none span).node)] track rfl hpeek (by rw [htop]; rfl)
      (by decide) builds_pass)) ?_
  omega

/-- **String literals**, with the shortest escapes. -/
theorem parses_string {s : String} : Parses p (.string s none span) := by
  intro o track rest htop _ hpeek _
  have hword : (literalWord s).toList = '"' :: (s.toList.flatMap escape ++ ['"']) := by simp [literalWord]
  have hwords : Config.unread track ((Expr.string s none span).words ++ rest) =
      ⟨track, none, ' ' :: '"' :: (s.toList.flatMap escape ++ '"' :: spaced rest)⟩ := by
    simp [Config.unread, Expr.words, hword]
  rw [hwords]
  refine (reaches_string hreads (literal_escape s.toList) htop hpeek).mono ?_
  simp only [Expr.words, spaced_cons, spaced_nil, hword, List.append_nil, List.length_cons,
    List.length_append]
  omega

end Forms

/-! ## 5. All expressions -/

/-- An expression of which members can be taken is a name, a member or a call. -/
theorem isPostfix_of_tag {e : Expr} (h : e.node.tag ∈ headTags) : e.isPostfix = true := by
  cases e with
  | ident | member | call => rfl
  | cell place _ _ _ => cases place <;> simp [Expr.node, Node.tag, headTags] at h
  | _ => simp [Expr.node, Node.tag, headTags] at h

section Induction

variable {p : Parser} (hreads : Reads p)
include hreads

mutual

/-- **Expressions are read as they are spelled.** -/
theorem parses : ∀ {e : Expr}, e.Spellable → e.node.Everywhere Ordered →
    Parses p e ∧ (e.isPostfix = true → ParsesHead p e)
  | .number value type span, ⟨⟨hpos, hlt⟩, htype⟩, _ => by
    obtain rfl := htype
    obtain ⟨n, rfl⟩ := Int.eq_ofNat_of_zero_le hpos
    exact ⟨parses_number hreads (by omega), nofun⟩
  | .string s type span, htype, _ => by
    obtain rfl : type = none := htype
    exact ⟨parses_string hreads, nofun⟩
  | .ident name binding type span, ⟨hname, hbinding, htype⟩, _ => by
    obtain rfl := hbinding
    obtain rfl := htype
    have hhead : ParsesHead p (.ident name none none span) := parsesHead_ident hreads hname
    exact ⟨parses_of_head hreads hhead, fun _ => hhead⟩
  | .member target name span, ⟨htarget, hname⟩, ⟨hordered, hparts⟩ => by
    have hinner := parses htarget (hparts ("target", target.node)
      (by simp [Expr.node, Node.fields, Fields.nodes]))
    have hhead : ParsesHead p (.member target name span) :=
      parsesHead_member hreads (hinner.2 (isPostfix_of_tag (ordered_member.mp hordered))) hname
    exact ⟨parses_of_head hreads hhead, fun _ => hhead⟩
  | .call target args callee type span, ⟨htarget, hargs, hcallee, htype⟩, ⟨hordered, hparts⟩ => by
    obtain rfl := hcallee
    obtain rfl := htype
    have hinner := parses htarget (hparts ("target", target.node) (by
      cases hnode : args.node? <;>
        simp [Expr.node, Node.fields, Fields.nodes, Fields.optional, hnode]))
    have hall := parses_args hargs (fun n hn => hparts ("args", n) (by
      rw [Option.mem_def] at hn
      simp [Expr.node, Node.fields, Fields.nodes, Fields.optional, hn]))
    have hnode : (Expr.call target args none none span).node =
        (Node.build .call span [("target", .node target.node)]).set? "args" (args.node?.map .node) := by
      rw [Expr.node]
      cases args.node? <;> rfl
    have htag : target.node.tag ∈ headTags := ordered_call.mp (hnode ▸ hordered)
    have hhead : ParsesHead p (.call target args none none span) :=
      parsesHead_call hreads (hinner.2 (isPostfix_of_tag htag)) hall.1
    exact ⟨parses_of_head hreads hhead, fun _ => hhead⟩
  | .binop op lhs rhs type span, ⟨hop, hlhs, hrhs, htype⟩, ⟨hordered, hparts⟩ => by
    obtain rfl := htype
    have hleft := parses hlhs (hparts ("lhs", lhs.node) (by simp [Expr.node, Node.fields, Fields.nodes]))
    have hright := parses hrhs (hparts ("rhs", rhs.node) (by simp [Expr.node, Node.fields, Fields.nodes]))
    have hop : op = "+" ∨ op = "-" ∨ op = "*" := by simpa using hop
    rcases hop with hop | hop | rfl
    · exact ⟨parses_sum hreads (.inl hop) hleft.1 hright.1 hordered, nofun⟩
    · exact ⟨parses_sum hreads (.inr hop) hleft.1 hright.1 hordered, nofun⟩
    · exact ⟨parses_product hreads hleft.1 hright.1 hordered, nofun⟩
  | .neg operand type span, ⟨hoperand, htype⟩, ⟨hordered, hparts⟩ => by
    obtain rfl := htype
    have hinner := parses hoperand (hparts ("operand", operand.node)
      (by simp [Expr.node, Node.fields, Fields.nodes]))
    exact ⟨parses_neg hreads hinner.1 hordered, nofun⟩
  | .deref target type span, ⟨htarget, htype⟩, ⟨hordered, hparts⟩ => by
    obtain rfl := htype
    have hinner := parses htarget (hparts ("target", target.node)
      (by simp [Expr.node, Node.fields, Fields.nodes]))
    exact ⟨parses_deref hreads hinner.1 hordered, nofun⟩
  | .paren inner span, hinner, ⟨_, hparts⟩ => by
    have hinside := parses (e := inner) hinner (hparts ("expr", inner.node)
      (by simp [Expr.node, Node.fields, Fields.nodes]))
    exact ⟨parses_paren hreads hinside.1, nofun⟩

/-- Arguments are read as they are spelled. -/
theorem parses_args : ∀ {args : Args}, args.Spellable → (∀ n ∈ args.node?, n.Everywhere Ordered) →
    ParsesArgs p args ∧ ParsesFurther p args
  | .nil, _, _ => ⟨parsesArgs_nil hreads, parsesFurther_nil⟩
  | .cons arg rest span, ⟨harg, hrest⟩, h => by
    obtain ⟨_, hparts⟩ := h _ rfl
    have hfirst := parses harg (hparts ("arg", arg.node) (by simp [Node.fields, Fields.nodes]))
    have hfurther := parses_args hrest fun n hn => hparts ("next", n) (by
      rw [Option.mem_def] at hn
      simp [Node.fields, Fields.nodes, Fields.optional, hn])
    exact ⟨parsesArgs_cons hreads hfirst.1 hfurther.2, parsesFurther_cons hreads hfirst.1 hfurther.2⟩

end

end Induction

end Lode.Language
