/-
# Expressions and their precedences

Reading and spelling agree on expressions (`read_expressions`).  In every tree that is read, operators have
operands that bind as tightly as they want; and every such expression is read back from its words, as the
value of a constant. So the trees that texts have are just those in which the operators bind by their
precedences, and brackets are needed just where they do not.

A parser reads units and not expressions, so an expression is put into the declaration of a constant, whose
words are known.  The parser is taken through them spot by spot up to the value (`reaches_front`), over the
value, whatever it is, and to the end of the unit (`reaches_declaration`).  The declaration is read whenever
the parser gets over its value in as many steps as the characters are worth (`exists_read_of_reaches`); the
budget of the program is larger.

The same frame serves for a string literal, which is read from every way in which it can be written
(`exists_read_literal`), and for what stands behind its closing quote (`exists_closed`).
-/
import Lode.Proofs.Language.Expressions
import Lode.Proofs.Text.Utf8

namespace Lode.Language

open Program
open Node (Everywhere Ordered)

/-! ## 1. What words are made of -/

theorem words_ne_nil : ∀ {e : Expr}, e.Spellable → e.words ≠ []
  | .number _ _ _, _ | .string _ _ _, _ | .ident _ _ _ _, _ | .member _ _ _, _ | .call _ _ _ _ _, _
  | .binop _ _ _ _ _, _ | .neg _ _ _, _ | .deref _ _ _, _ | .paren _ _, _ => by simp [Expr.words]

/-! ## 2. The declaration around an expression -/

/-- The type of the constant. -/
theorem builds_typeName {span : Span} :
    Builds (some "type_name") [.word "u8" "u8"] (.tree (TypeExpr.name "u8" span).node) :=
  builds_of_label fun place children h => by
    obtain ⟨t, _, rfl, -, htext, ⟨⟩⟩ := h.word
    refine ⟨.node (.build .typeName place [("name", .str t.text)]), rfl, ?_⟩
    rw [htext]
    rfl

/-- The declaration of the constant. -/
theorem builds_constant {name : String} {ty : TypeExpr} {e : Expr} {span : Span} : Builds (some "constant")
    [.word "constant" "constant", .word "IDENT" name, .word ":" ":", .tree ty.node, .word "=" "=",
      .tree e.node] (.tree (Item.constant name ty e none span).node) :=
  builds_of_label fun place children h => by
    obtain ⟨_, _, rfl, -, -, h1⟩ := h.word
    obtain ⟨t, _, rfl, -, rfl, h2⟩ := h1.word
    obtain ⟨_, _, rfl, -, -, h3⟩ := h2.word
    obtain ⟨m, _, rfl, hm, h4⟩ := h3.tree
    obtain ⟨_, _, rfl, -, -, h5⟩ := h4.word
    obtain ⟨m', _, rfl, hm', ⟨⟩⟩ := h5.tree
    refine ⟨.node (.build .constant place [("name", .str t.text), ("ty", .node m), ("value", .node m')]), rfl,
      ?_⟩
    change Node.mk .constant (.cons "name" _ (.cons "ty" (.node m.unplaced)
      (.cons "value" (.node m'.unplaced) .nil))) _ = _
    rw [hm, hm']
    rfl

/-- The unit with one constant. -/
def constantUnit (name : String) (ty : TypeExpr) (e : Expr) : Program :=
  ⟨[(.constant name ty e none .nowhere, .nowhere)], {}, .nowhere⟩

/-- The unit that consists of the constant. -/
theorem builds_unit {name : String} {ty : TypeExpr} {e : Expr} {span : Span} : Builds (some "unit")
    [.trees [(Item.constant name ty e none span).node]] (.tree (constantUnit name ty e).node) :=
  builds_of_label fun place children h => by
    obtain ⟨ms, _, rfl, hms, ⟨⟩⟩ := h.trees
    obtain ⟨m, rfl⟩ : ∃ m, ms = [m] := by
      have hlength := congrArg List.length hms
      rw [List.length_map, List.length_map] at hlength
      exact List.length_eq_one_iff.mp hlength
    have hm : m.unplaced = (Item.constant name ty e none span).node.unplaced := (List.cons.inj hms).1
    refine ⟨.node ((Node.build .unit place []).set? "body" ((Node.sequence .items [m] none).map .node)), rfl, ?_⟩
    change Node.mk .unit (.cons "body" (.node (.mk .items (.cons "item" (.node m.unplaced) .nil) _)) .nil) _ = _
    rw [hm]
    rfl

/-! ## 3. The run over the declaration -/

/-- The type of the constant. -/
abbrev byteType : TypeExpr := .name "u8" .nowhere

/-- The characters of a declaration, those of its value being given. -/
abbrev declaration (value : List Char) : List Char :=
  "constant".toList ++ ' ' :: ("c".toList ++ (":".toList ++ ' ' :: ("u8".toList ++ ' ' :: ("=".toList ++ value))))

/-- What is read before the value of the constant. -/
def beforeValue : Track :=
  [(.operand .value, .word "=" "="), (.type, .tree byteType.node), (.colon, .word ":" ":"),
    (.declared, .word "IDENT" "c"), (.keyword, .word "constant" "constant")]

section Runs

variable {p : Parser} (hreads : Reads p)
include hreads

/-- The beginning of the declaration. -/
theorem reaches_front {value : List Char} (hvalue : Ends value) :
    Reaches p 10 ⟨[], none, declaration value⟩ ⟨beforeValue ++ [(Spot.items, Mark.trees [])], none, value⟩ := by
  have hkeyword : Word "constant" "constant" := word_reserved (by decide)
  have hname : Word "c" "IDENT" := word_name (by decide)
  have hcolon : Word ":" ":" := word_symbol (by decide)
  have htype : Word "u8" "u8" := word_reserved (by decide)
  have hequals : Word "=" "=" := word_symbol (by decide)
  exact .trans (.trans (.trans (.trans (.trans (.trans (.trans (.trans (.trans
    (reaches_reduce hreads [] [] rfl List.mem_cons_self rfl (by decide) builds_emptyList
      (hkeyword.shows (by simp [Ends]) rfl))
    (reaches_shift hreads rfl (by decide) (.held _ _ _)))
    (reaches_skip hreads rfl ((isSpace_eq _).trans rfl)))
    (reaches_shift hreads rfl (by decide) (hname.shows (by simp [Ends]) rfl)))
    (reaches_shift hreads rfl (by decide) (hcolon.shows (by simp [Ends]) rfl)))
    (reaches_skip hreads rfl ((isSpace_eq _).trans rfl)))
    (reaches_shift hreads rfl (by decide) (htype.shows (by simp [Ends]) rfl)))
    (reaches_skip hreads rfl ((isSpace_eq _).trans rfl)))
    (reaches_reduce hreads [(.primitive, .word "u8" "u8")] _ rfl List.mem_cons_self rfl (by decide)
      builds_typeName (hequals.shows hvalue rfl)))
    (reaches_shift hreads rfl (by decide) (.held _ _ _))

/-- The whole declaration, whose value is an expression. -/
theorem reaches_declaration {value : List Char} (hends : Ends value) {e : Expr} {count : Nat}
    (hvalue : Reaches p count ⟨beforeValue ++ [(Spot.items, Mark.trees [])], none, value⟩
      (.held ((.after .value, .tree e.node) :: (beforeValue ++ [(Spot.items, Mark.trees [])])) [])) :
    Reaches p (count + 12) ⟨[], none, declaration value⟩
      (.held [(.items, .trees [(Item.constant "c" byteType e none .nowhere).node])] []) := by
  refine .mono (.trans (.trans (.trans (reaches_front hreads hends) hvalue)
    (reduce_held hreads ((.after .value, .tree e.node) :: beforeValue) [(.items, .trees [])] rfl
      List.mem_cons_self rfl (by decide) builds_constant))
    (reduce_held hreads [(.item, .tree (Item.constant "c" byteType e none .nowhere).node),
      (.items, .trees [])] [] rfl List.mem_cons_self rfl (by decide) builds_append)) ?_
  omega

/-- At the end of the text the unit is accepted. -/
theorem drive_accepts {items : List Node} {n : Node} (hbuilds : Builds (some "unit") [.trees items] (.tree n))
    {run : Parser.Run Piece} (hrun : (Config.held [(.items, .trees items)] []).Holds p run) (fuel : Nat) :
    ∃ m, (Parser.drive lexer (fuel + 1) p defaultMode builder run ()).1 = .ok (.node m) ∧
      m.unplaced = n.unplaced := by
  obtain ⟨token, cursor, hlook, hkind, -, hlast⟩ := hrun.some _ _ rfl
  obtain ⟨-, haction, hshape⟩ := hreads.spots
  obtain ⟨hlength, hlabel⟩ : (p.table.grammar.rule p.table.grammar.startRule).rhs.length = 1 ∧
      (p.table.grammar.rule p.table.grammar.startRule).label = some "unit" := by
    simp only [Spot.shapeOf, Spot.Shape.mk.injEq] at hshape
    exact hshape.2
  obtain ⟨frame, hstack, hframe⟩ : ∃ frame, run.stack = [frame] ∧ (Mark.trees items).Matches frame.child := by
    obtain ⟨frame, _, hframe, ⟨⟩, hstack⟩ := List.forall₂_cons_right_iff.mp hrun.stacked
    exact ⟨frame, hstack, hframe.2⟩
  obtain ⟨v, hv, hmatches⟩ := hbuilds
    (p.reduction p.table.grammar.startRule (Parser.spanOf [frame] run.previous (some token)) [frame]
      (p.modeOver defaultMode ([] : List (Parser.Frame Piece)))) hlabel (.cons hframe .nil)
  obtain ⟨m, rfl, hm⟩ : ∃ m, v = .node m ∧ m.unplaced = n.unplaced := by
    cases v with
    | node m => exact ⟨m, rfl, hmatches⟩
    | _ => cases hmatches
  refine ⟨m, ?_, hm⟩
  have haction : p.table.action? (Parser.topState run.stack) token.kind =
      some (.accept p.table.grammar.startRule) := by
    rw [hrun.stacked.topState, hkind]
    exact haction
  rw [Parser.drive_eq_resume, Parser.step_perform (.held hlook) haction]
  simp [Parser.perform, Parser.accept, hlength, hstack, Parser.popFrames, builder, hv,
    Stream.rewind?_eq hlast, Parser.resume]

end Runs

theorem length_le_utf8ByteSize (text : String) : text.toList.length ≤ text.utf8ByteSize := by
  have hsum := List.length_le_sum_of_one_le (text.toList.map fun c => (String.utf8EncodeChar c).length)
    (List.forall_mem_map.mpr fun c _ => length_utf8EncodeChar_pos c)
  rwa [List.length_map, ← List.length_flatMap, ← encodeUtf8, length_encodeUtf8] at hsum

/-! ## 4. Reading -/

/-- A parser starts with nothing on its stack and the whole text before it. -/
theorem holds_start {p : Parser} (text : String) :
    Config.Holds ⟨[], none, text.toList⟩ p (Parser.start (Stream.ofText text)) :=
  ⟨.nil, fun _ => rfl, by simp, Stream.at_ofText text⟩

/-- A declaration is read, if the parser gets over its value. -/
theorem exists_read_of_reaches {text : String} {value : List Char} (htext : text.toList = declaration value)
    (hends : Ends value) {e : Expr} {count : Nat} (hcount : count ≤ 8 * value.length + 8)
    (hvalue : ∀ {p : Parser}, Reads p →
      Reaches p count ⟨beforeValue ++ [(Spot.items, Mark.trees [])], none, value⟩
        (.held ((.after .value, .tree e.node) :: (beforeValue ++ [(Spot.items, Mark.trees [])])) [])) :
    ∃ n, read text = .ok n ∧ n.unplaced = (constantUnit "c" byteType e).node.unplaced := by
  obtain ⟨p, hp, hreads⟩ := exists_reads
  have hholds := @holds_start p text
  rw [htext] at hholds
  obtain ⟨steps, hsteps, run, hrun, hdrive⟩ := reaches_declaration hreads hends (hvalue hreads) _ hholds
  have hbudget : steps < stepBudget text := by
    have hlength : text.toList.length = value.length + 16 := by
      rw [htext]
      simp [declaration]
    have hbytes := length_le_utf8ByteSize text
    rw [stepBudget]
    omega
  obtain ⟨fuel, hfuel⟩ := Nat.exists_eq_add_of_lt hbudget
  obtain ⟨n, hn, hunplaced⟩ := drive_accepts hreads builds_unit hrun fuel
  refine ⟨n, (read_eq_ok_iff hp).mpr ?_, hunplaced⟩
  rw [Parser.parse, hfuel, Nat.add_assoc, hdrive, hn]

theorem toList_declaration {words : List String} (hwords : words ≠ []) :
    ("constant c: u8 = " ++ " ".intercalate words).toList = declaration (spaced words) := by
  rw [String.toList_append, declaration, ← toList_intercalate_spaced hwords]
  rfl

/-- An expression whose operators are in order is read back from its words. -/
theorem exists_read {e : Expr} (hspell : e.Spellable) (hordered : e.node.Everywhere Ordered) :
    ∃ n, read ("constant c: u8 = " ++ " ".intercalate e.words) = .ok n ∧
      n.unplaced = (constantUnit "c" byteType e).node.unplaced := by
  refine exists_read_of_reaches (toList_declaration (words_ne_nil hspell)) (ends_spaced e.words)
    (Nat.add_le_add_left (by decide : 1 ≤ 8) _) fun {p} hreads => ?_
  have hvalue : Reaches p _ (.unread (beforeValue ++ [(Spot.items, Mark.trees [])]) (e.words ++ []))
      (.held ((.after .value, .tree e.node) :: (beforeValue ++ [(Spot.items, Mark.trees [])])) []) :=
    (parses hreads hspell hordered).1 rfl (rank_pos _) (by decide) nofun
  rwa [List.append_nil] at hvalue

/-- **Expressions and their precedences.**  In the tree of a text every operator has operands that bind as
tightly as it wants; and every expression of which this holds is read back from its words, with blanks
between them, as the value of a constant. -/
theorem read_expressions :
    (∀ (text : String) (n : Node), read text = .ok n → n.Everywhere Ordered) ∧
    ∀ e : Expr, e.Spellable → e.node.Everywhere Ordered →
      ∃ n, read ("constant c: u8 = " ++ " ".intercalate e.words) = .ok n ∧
        n.unplaced = (constantUnit "c" byteType e).node.unplaced :=
  ⟨fun _ _ => everywhere_read, fun _ => exists_read⟩

/-- The difference of a number and of a product, whose factors are an opposite and a sum in brackets. -/
def difference : Expr :=
  .binop "-" (.number 7 none .nowhere)
    (.binop "*" (.neg (.ident "x" none none .nowhere) none .nowhere)
      (.paren (.binop "+" (.number 1 none .nowhere) (.string "two" none .nowhere) none .nowhere) .nowhere) none
      .nowhere) none .nowhere

theorem read_difference : ∃ n, read "constant c: u8 = 7 - - x * ( 1 + \"two\" )" = .ok n ∧
    n.unplaced = (constantUnit "c" byteType difference).node.unplaced := by
  have hname : isName "x" = true := by decide
  have hspell : difference.Spellable := by simp [difference, Expr.Spellable, hname]
  have hleaf : ∀ {n : Node}, n.tag ∉ [.binop, .neg, .deref, .call, .member] → n.fields.nodes = [] →
      n.Everywhere Ordered := fun htag hnodes => .intro (Node.ordered_of_tag htag) (by simp [hnodes])
  have hbinop : ∀ {op : String} {l r : Expr},
      ((op == "+" || op == "-") = true → r.node.isSum = false) ∧
        (op = "*" → l.node.isSum = false ∧ r.node.tag ≠ .binop) →
      l.node.Everywhere Ordered → r.node.Everywhere Ordered →
      (Expr.binop op l r none .nowhere).node.Everywhere Ordered := fun h hl hr =>
    .intro (ordered_binop.mpr h) (List.forall_mem_cons.mpr ⟨hl, List.forall_mem_cons.mpr ⟨hr, nofun⟩⟩)
  have hordered : difference.node.Everywhere Ordered :=
    hbinop (by decide) (hleaf (by decide) rfl) (hbinop (by decide)
      (.intro (ordered_neg.mpr (by decide)) (List.forall_mem_cons.mpr ⟨hleaf (by decide) rfl, nofun⟩))
      (.intro (Node.ordered_of_tag (by decide)) (List.forall_mem_cons.mpr
        ⟨hbinop (by decide) (hleaf (by decide) rfl) (hleaf (by decide) rfl), nofun⟩)))
  exact read_expressions.2 difference hspell hordered

/-! ## 5. String literals -/

theorem toList_literal (body rest : String) :
    ("constant c: u8 = \"" ++ body ++ "\"" ++ rest).toList =
      declaration (' ' :: '"' :: (body.toList ++ '"' :: rest.toList)) := by
  simp only [String.toList_append, List.append_assoc]
  rfl

/-- A literal is read as the text that was written. -/
theorem exists_read_literal {s body : String} (h : Literal s.toList body.toList) :
    ∃ n, read ("constant c: u8 = \"" ++ body ++ "\"") = .ok n ∧
      n.unplaced = (constantUnit "c" byteType (.string s none .nowhere)).node.unplaced := by
  have htext := toList_literal body ""
  rw [String.append_empty] at htext
  refine exists_read_of_reaches htext (by simp [Ends]) ?_ fun {p} hreads =>
    @reaches_string p hreads .nowhere s body.toList h .value (beforeValue ++ [(Spot.items, Mark.trees [])]) [] rfl
      (by decide)
  simp only [List.length_cons, List.length_append]
  omega

/-- Whatever follows a literal, the parser gets behind its closing quote, and reads on in the mode of ordinary
text. -/
theorem exists_closed {p : Parser} (hreads : Reads p) {s body : String} (h : Literal s.toList body.toList)
    (rest : String) : ∃ (count : Nat) (run : Parser.Run Piece),
      (∀ fuel, Parser.drive lexer (count + fuel) p defaultMode builder
          (Parser.start (.ofText ("constant c: u8 = \"" ++ body ++ "\"" ++ rest))) () =
        Parser.drive lexer fuel p defaultMode builder run ()) ∧
      run.lookahead = none ∧ run.stream.At rest.toList ∧
      p.modeOver defaultMode run.stack = defaultMode := by
  have hholds := @holds_start p ("constant c: u8 = \"" ++ body ++ "\"" ++ rest)
  rw [toList_literal] at hholds
  obtain ⟨count, -, run, hrun, hdrive⟩ := ((reaches_front hreads (by simp [Ends])).trans
    (reaches_closed hreads h rfl rest.toList)) _ hholds
  refine ⟨count, run, hdrive, hrun.none rfl, hrun.stream, ?_⟩
  rw [hrun.stacked.modeOver hreads]
  rfl

end Lode.Language
