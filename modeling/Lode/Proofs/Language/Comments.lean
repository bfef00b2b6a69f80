/-
# Block comments

Block comments may be nested, so a comment ends where everything that was opened in it is closed again
(`closing`).  The lexer takes the text of a comment in pieces that never hold the beginning or the end of a
comment (`marks_next`), and the tables of comments have six states, which `Stage` names.  So the depth of a
comment is the height of the stack, and the parser of comments leaves what stands behind the comment, or
fails if the comment is never closed (`settled_comments`).

What the tables do in each state and before each kind of token is evaluated once (`commentTable_facts`) and
listed (`Stage.action`).  Then one step is taken for each kind of action (section 4), and a run is followed
by induction on the text that is left (`leaves_nested`): a mark that opens a comment puts two frames on the
stack, one that closes it takes them away again, and what is read between them grows the inside of the
innermost comment.

The parser looks at one more token behind the comment and gives it back.  In the mode of comments every text
has such a token, so it does not matter what it is.
-/
import Lode.Proofs.Language.Totality
import Lode.Proofs.Parser.Actions

namespace Lode

namespace Language

/-! ## 1. Where a comment ends -/

/-- What is left of a text behind the end of the outermost of so many open comments. -/
def closing : Nat → List Char → Option (List Char)
  | 0, rest => some rest
  | _ + 1, [] => none
  | depth + 1, '/' :: '*' :: rest => closing (depth + 2) rest
  | depth + 1, '*' :: '/' :: rest => closing depth rest
  | depth + 1, _ :: rest => closing (depth + 1) rest

/-- A block comment: what it opens is closed at its end, and not before. -/
def IsComment (cs : List Char) : Prop := ∃ inside, cs = '/' :: '*' :: inside ∧ closing 1 inside = some []

example : IsComment "/* a /* b */ / * c */".toList := ⟨" a /* b */ / * c */".toList, rfl, rfl⟩

/-- A character with which no mark begins is skipped. -/
theorem closing_skip {depth : Nat} {c : Char} {rest : List Char} (hopen : ¬ ['/', '*'] <+: c :: rest)
    (hclose : ¬ ['*', '/'] <+: c :: rest) : closing (depth + 1) (c :: rest) = closing (depth + 1) rest := by
  rw [closing]
  · rintro more rfl rfl
    exact hopen ⟨more, rfl⟩
  · rintro more rfl rfl
    exact hclose ⟨more, rfl⟩

/-- Characters of no mark are skipped. -/
theorem closing_skip_all {depth : Nat} {rest : List Char} : ∀ {front : List Char},
    (∀ c ∈ front, c ≠ '/' ∧ c ≠ '*') → closing (depth + 1) (front ++ rest) = closing (depth + 1) rest
  | [], _ => rfl
  | c :: front, h => by
    obtain ⟨⟨hslash, hstar⟩, hfront⟩ := List.forall_mem_cons.mp h
    rw [List.cons_append, closing_skip, closing_skip_all hfront]
    · exact fun hbegins => hslash (List.cons_prefix_cons.mp hbegins).1.symm
    · exact fun hbegins => hstar (List.cons_prefix_cons.mp hbegins).1.symm

/-- Where the comments end does not depend on what follows. -/
theorem closing_append {depth : Nat} {cs rest : List Char} (h : closing depth cs = some rest) :
    ∃ front, cs = front ++ rest ∧ ∀ other, closing depth (front ++ other) = some other := by
  fun_induction closing depth cs with
  | case1 cs =>
    obtain rfl := Option.some.inj h
    exact ⟨[], rfl, fun other => by rw [List.nil_append, closing]⟩
  | case2 => cases h
  | case3 depth cs ih =>
    obtain ⟨front, rfl, hfront⟩ := ih h
    exact ⟨'/' :: '*' :: front, rfl, fun other => by simpa only [List.cons_append, closing] using hfront other⟩
  | case4 depth cs ih =>
    obtain ⟨front, rfl, hfront⟩ := ih h
    exact ⟨'*' :: '/' :: front, rfl, fun other => by simpa only [List.cons_append, closing] using hfront other⟩
  | case5 depth c cs hopen hclose ih =>
    obtain ⟨front, rfl, hfront⟩ := ih h
    refine ⟨c :: front, rfl, fun other => ?_⟩
    -- the character begins no mark with what follows it inside the comment, and something does follow it
    have hne : front ≠ [] := by
      rintro rfl
      have hnone := hfront []
      rw [List.nil_append, closing] at hnone
      cases hnone
    obtain ⟨d, front, rfl⟩ := List.exists_cons_of_ne_nil hne
    rw [← hfront other, List.cons_append, closing_skip]
    · rintro ⟨more, hmore⟩
      obtain ⟨rfl, rfl, -⟩ : '/' = c ∧ '*' = d ∧ more = front ++ other := by simpa using hmore
      exact hopen (front ++ rest) rfl rfl
    · rintro ⟨more, hmore⟩
      obtain ⟨rfl, rfl, -⟩ : '*' = c ∧ '/' = d ∧ more = front ++ other := by simpa using hmore
      exact hclose (front ++ rest) rfl rfl

/-! ## 2. The lexer inside a comment -/

theorem find?_commentMode : Sorted.find? commentMode lexer.modes = some commentRules := rfl

/-- The first token of a text inside a comment: the beginning of a comment, the end of one, or something in
which comments neither begin nor end. -/
inductive Marks : List Char → Terminal → List Char → Prop
  | eof : Marks [] .eof []
  | opens (rest : List Char) : Marks ('/' :: '*' :: rest) (.kind "/*") rest
  | closes (rest : List Char) : Marks ('*' :: '/' :: rest) (.kind "*/") rest
  | passes {front rest : List Char} : front ≠ [] → ¬ ['/', '*'] <+: front ++ rest →
      (∀ depth, closing (depth + 1) (front ++ rest) = closing (depth + 1) rest) →
      Marks (front ++ rest) (.kind "COMMENT_TEXT") rest

section Choices

variable {line front back : List Char} {rule : LexRule}

theorem choose?_opens (rest : List Char) : Lexer.choose? ('/' :: '*' :: rest) commentRules =
    some (⟨.literal "/*", "/*", .hidden commentChannel⟩, byteLength ['/', '*']) :=
  Lexer.choose?_here (@Regex.matchLength?_literal "/*" (by decide) rest) (by decide) _

theorem choose?_closes (rest : List Char) : Lexer.choose? ('*' :: '/' :: rest) commentRules =
    some (⟨.literal "*/", "*/", .hidden commentChannel⟩, byteLength ['*', '/']) := by
  have hopens : (Regex.literal "/*").matchLength? ('*' :: '/' :: rest) = none :=
    Regex.matchLength?_literal_none (by decide) (by simp)
  rw [commentRules, Lexer.choose?_further hopens]
  exact Lexer.choose?_here (@Regex.matchLength?_literal "*/" (by decide) rest) (by decide) _

/-- What neither begins nor ends a comment is a run of other characters, or a single one. -/
theorem choose?_passes (hopen : ¬ ['/', '*'] <+: line) (hclose : ¬ ['*', '/'] <+: line)
    (hline : line = front ++ back) (hchooses : Lexer.Chooses commentRules front back rule) :
    rule.kind = "COMMENT_TEXT" ∧ ((∀ c ∈ front, c ≠ '/' ∧ c ≠ '*') ∨ ∃ c, front = [c]) := by
  obtain ⟨hne, hchoose⟩ := hchooses
  have hopens : (Regex.literal "/*").matchLength? line = none := Regex.matchLength?_literal_none (by decide) hopen
  have hcloses : (Regex.literal "*/").matchLength? line = none :=
    Regex.matchLength?_literal_none (by decide) hclose
  rw [← hline, commentRules, Lexer.choose?_further hopens, Lexer.choose?_further hcloses] at hchoose
  obtain ⟨c, front, rfl⟩ := List.exists_cons_of_ne_nil hne
  subst hline
  set cls := CharClass.noneOf ['*', '/'] with hcls
  -- a character of no mark begins a run, and half a mark is taken by itself
  cases hc : cls.contains c with
  | true =>
    rw [List.cons_append, Lexer.choose?_here (Regex.matchLength?_run_all hc _)
      (byteLength_pos (List.cons_ne_nil _ _))] at hchoose
    obtain ⟨rfl, hlength⟩ := Prod.mk.inj (Option.some.inj hchoose)
    have hsplit : c :: front ++ back =
        c :: (front ++ back).takeWhile cls.contains ++ (front ++ back).dropWhile cls.contains := by
      rw [List.cons_append, List.cons_append, List.takeWhile_append_dropWhile]
    refine ⟨rfl, .inl ?_⟩
    rw [(append_inj_byteLength hsplit hlength.symm).1]
    intro d hd
    have hd : cls.contains d = true := by
      rcases List.mem_cons.mp hd with rfl | hd
      · exact hc
      · exact Regex.forall_takeWhile cls _ d hd
    rw [hcls, CharClass.contains_noneOf] at hd
    simpa [and_comm] using hd
  | false =>
    have hone : (CharClass.oneOf ['*', '/']).contains c = true := by
      rw [hcls, CharClass.contains_noneOf, Bool.not_eq_false'] at hc
      rw [CharClass.contains_oneOf, hc]
    rw [List.cons_append, Lexer.choose?_further (Regex.matchLength?_run_none hc _),
      Lexer.choose?_here (Regex.matchLength?_one hone _) (Char.utf8Size_pos c)] at hchoose
    obtain ⟨rfl, hlength⟩ := Prod.mk.inj (Option.some.inj hchoose)
    refine ⟨rfl, .inr ⟨c, ?_⟩⟩
    have hsingle : byteLength (c :: front) = byteLength [c] := by
      rw [← hlength, byteLength_cons, byteLength_nil, Nat.add_zero]
    have hsame : c :: front ++ back = [c] ++ (front ++ back) := rfl
    exact (append_inj_byteLength hsame hsingle).1

end Choices

/-- **The next token inside a comment.** -/
theorem marks_next {s s' : Stream} {token : Token} (hlined : s.cursor.Lined)
    (h : lexer.next commentMode s = .ok (token, s')) : Marks s.cursor.text token.kind s'.cursor.text ∧
      (token.channel == .all || token.channel == .hidden commentChannel) = true := by
  rcases Lexer.next_cases h with ⟨hend, rfl, rfl⟩ | ⟨rules, rule, front, back, lines, hrules, hmem, hchooses, htook⟩
  · have hnil : s.cursor.text = [] := by rw [Cursor.text, hend, List.flatten_nil]
    refine ⟨?_, rfl⟩
    change Marks s.cursor.text .eof s.cursor.text
    rw [hnil]
    exact .eof
  · obtain rfl : rules = commentRules := (Option.some.inj (find?_commentMode.symm.trans hrules)).symm
    have hlines : splitLines s.cursor.text = (front ++ back) :: lines := by rw [hlined, htook.unread]
    have htext := htook.text_eq
    refine ⟨?_, ?_⟩
    · rw [htook.kind]
      by_cases hopen : ['/', '*'] <+: s.cursor.text
      · obtain ⟨rest, hrest⟩ := hopen
        rw [← hrest] at hlines
        obtain ⟨more, hline, -⟩ := splitLines_prefix (by decide) (by decide) hlines
        have hchoose := hchooses.choose
        rw [hline] at hchoose
        obtain ⟨rfl, hlength⟩ := Prod.mk.inj (Option.some.inj ((choose?_opens more).symm.trans hchoose))
        obtain ⟨rfl, -⟩ := append_inj_byteLength hline hlength.symm
        rw [htext]
        exact .opens _
      · by_cases hclose : ['*', '/'] <+: s.cursor.text
        · obtain ⟨rest, hrest⟩ := hclose
          rw [← hrest] at hlines
          obtain ⟨more, hline, -⟩ := splitLines_prefix (by decide) (by decide) hlines
          have hchoose := hchooses.choose
          rw [hline] at hchoose
          obtain ⟨rfl, hlength⟩ := Prod.mk.inj (Option.some.inj ((choose?_closes more).symm.trans hchoose))
          obtain ⟨rfl, -⟩ := append_inj_byteLength hline hlength.symm
          rw [htext]
          exact .closes _
        -- what is taken begins the text, so no mark begins it either
        · have hbegins : front ++ back <+: s.cursor.text :=
            ⟨lines.flatten, by rw [Cursor.text, htook.unread, List.flatten_cons]⟩
          obtain ⟨hkind, hfront⟩ := choose?_passes (fun h => hopen (h.trans hbegins))
            (fun h => hclose (h.trans hbegins)) rfl hchooses
          rw [htext] at hopen hclose
          rw [hkind, htext]
          refine .passes hchooses.ne_nil hopen fun depth => ?_
          rcases hfront with hfront | ⟨c, rfl⟩
          · exact closing_skip_all hfront
          · exact closing_skip hopen hclose
    · rw [htook.channel]
      simp only [commentRules, List.mem_cons, List.not_mem_nil, or_false] at hmem
      rcases hmem with rfl | rfl | rfl | rfl <;> rfl

/-! ## 3. The tables of comments -/

/-- A state of the tables of comments. -/
inductive Stage where
  /-- Before a comment, behind its beginning, and behind the whole comment. -/
  | start | opened | whole
  /-- Behind what was read of the inside, behind the end, and behind one more piece of the inside. -/
  | body | closed | piece
deriving DecidableEq

namespace Stage

/-- All stages. -/
def all : List Stage := [start, opened, whole, body, closed, piece]

theorem mem_all (stage : Stage) : stage ∈ all := by cases stage <;> decide

/-- The number of the state. -/
def id : Stage → StateId
  | start => 0
  | opened => 1
  | whole => 2
  | body => 3
  | closed => 4
  | piece => 5

/-- The kinds of tokens inside a comment. -/
def kinds : List Terminal := [.eof, .kind "/*", .kind "*/", .kind "COMMENT_TEXT"]

/-- What the tables do before a token. -/
def action : Stage → Terminal → Option Action
  | start, .kind "/*" => some (.shift opened.id)
  | body, .kind "/*" => some (.shift opened.id)
  | body, .kind "*/" => some (.shift closed.id)
  | body, .kind "COMMENT_TEXT" => some (.shift piece.id)
  | opened, .kind _ => some (.reduce 2)
  | piece, .kind _ => some (.reduce 3)
  | closed, _ => some (.reduce 1)
  | whole, _ => some (.accept 0)
  | _, _ => none

end Stage

/-- The tables do in every state what is listed for it.  All states but the last read in the mode of
comments. -/
def FollowsStages (table : ParseTable) : Prop :=
  (∀ stage ∈ Stage.all, ∀ t ∈ Stage.kinds,
    (table.action? stage.id t).or (table.action? stage.id .empty) = stage.action t) ∧
  (∀ stage ∈ Stage.all, stage ≠ .whole →
    table.lookaheadFree? stage.id = none ∧ table.mode? stage.id = some commentMode) ∧
  (table.goto? Stage.start.id "block" = some Stage.whole.id ∧
    table.goto? Stage.body.id "block" = some Stage.piece.id ∧
    table.goto? Stage.opened.id "comment_body" = some Stage.body.id) ∧
  (List.range 4).map (fun id => ((table.grammar.rule id).lhs, (table.grammar.rule id).rhs.length)) =
    [("comment", 1), ("block", 3), ("comment_body", 0), ("comment_body", 2)]

instance (table : ParseTable) : Decidable (FollowsStages table) :=
  inferInstanceAs (Decidable (_ ∧ _ ∧ (_ ∧ _ ∧ _) ∧ _))

theorem commentTable_facts : (commentTable.toOption.any fun table => FollowsStages table) = true := by
  decide +kernel

theorem followsStages {table : ParseTable} (h : commentTable = .ok table) : FollowsStages table := by
  have hfacts := commentTable_facts
  rw [h] at hfacts
  exact of_decide_eq_true hfacts

/-- The parser of block comments. -/
def commentParser (table : ParseTable) : Parser := .ofTable table (.hidden commentChannel) commentDelimiters

/-! ## 4. One step -/

section Steps

variable {table : ParseTable} (hstages : FollowsStages table) {base : String} {delegate : Parser.Delegate}
  {run : Parser.Run Unit} {text : List Char} {token : Token}

/-- The run has the first token of a text in hand. -/
structure Looks (run : Parser.Run Unit) (text : List Char) (token : Token) : Prop where
  lookahead : run.lookahead = some token
  marks : Marks text token.kind run.stream.cursor.text
  lined : run.stream.cursor.Lined
  last : ∃ cursor, run.stream.last = some (token.span, cursor) ∧ cursor.Lined ∧ cursor.text = text

theorem Looks.mem_kinds (h : Looks run text token) : token.kind ∈ Stage.kinds := by
  have hmarks := h.marks
  generalize token.kind = t, run.stream.cursor.text = rest at hmarks
  cases hmarks <;> decide

/-- The token in hand stays while rules are reduced. -/
theorem Looks.stack (h : Looks run text token) (stack : List (Parser.Frame Unit)) :
    Looks { run with stack := stack } text token := ⟨h.lookahead, h.marks, h.lined, h.last⟩

/-- What a run comes to: it leaves what is behind the comment, or fails if the comment is never closed. -/
def Leaves (delegate : Parser.Delegate) (p : Parser) (base : String) (run : Parser.Run Unit)
    (left : Option (List Char)) : Prop :=
  ∃ result after, Parser.Ends delegate lexer p base Parser.forget run () (result, after, ()) ∧
    match left with
    | some rest => result = .ok () ∧ after.cursor.Lined ∧ after.cursor.text = rest
    | none => ∃ e, result = .error e

include hstages

/-- The left-hand sides and lengths of the four rules. -/
theorem rule_length (id : Nat) {count : Nat} {lhs : String}
    (h : [("comment", 1), ("block", 3), ("comment_body", 0), ("comment_body", 2)][id]? = some (lhs, count)) :
    (table.grammar.rule id).lhs = lhs ∧ (table.grammar.rule id).rhs.length = count := by
  rw [← hstages.2.2.2, List.getElem?_map, Option.map_eq_some_iff] at h
  obtain ⟨id', hid, heq⟩ := h
  obtain ⟨hlt, hid⟩ := List.getElem?_eq_some_iff.mp hid
  rw [List.getElem_range] at hid
  subst hid
  exact Prod.mk.inj heq

/-- Before the token in hand a run does what is listed. -/
theorem step_looks (base : String) (delegate : Parser.Delegate) (stage : Stage) (h : Looks run text token) (htop : Parser.topState run.stack = stage.id) :
    Parser.step delegate lexer (commentParser table) base Parser.forget run () =
      match stage.action token.kind with
      | some action => Parser.perform (commentParser table) base Parser.forget run () action
      | none => .stopped (.error ((commentParser table).unexpected run.stack token)) run.stream () := by
  have haction := hstages.1 stage stage.mem_all _ h.mem_kinds
  rw [Parser.step_sees (.held h.lookahead)]
  change (match ((table.action? (Parser.topState run.stack) token.kind).or
    (table.action? (Parser.topState run.stack) .empty)) with
    | some action => Parser.perform (commentParser table) base Parser.forget
        { run with lookahead := some token } () action
    | none => _) = _
  rw [htop, haction, ← h.lookahead]

/-- A run that has no token in hand reads one, and does what it would do with it. -/
theorem step_reads (stage : Stage) {stack : List (Parser.Frame Unit)} {previous : Span} {stream : Stream}
    (hlined : stream.cursor.Lined) (htop : Parser.topState stack = stage.id) (hstage : stage ≠ .whole) :
    ∃ token after, Looks ⟨stack, some token, previous, after⟩ stream.cursor.text token ∧
      Parser.step delegate lexer (commentParser table) base Parser.forget ⟨stack, none, previous, stream⟩ () =
        Parser.step delegate lexer (commentParser table) base Parser.forget
          ⟨stack, some token, previous, after⟩ () := by
  obtain ⟨hfree, hmode⟩ := hstages.2.1 stage stage.mem_all hstage
  have hmode : (commentParser table).table.mode? stage.id = some commentMode := hmode
  have hover : (commentParser table).modeOver base stack = commentMode := by
    cases stack with
    | nil =>
      rw [show stage.id = 0 from htop.symm] at hmode
      simp only [Parser.modeOver, List.map_nil, List.nil_append, List.findSome?_cons, hmode, Option.getD_some]
    | cons frame stack =>
      rw [Parser.modeOver_cons, show frame.state = stage.id from htop, hmode, Option.getD_some]
  obtain ⟨token, after, hnext⟩ := exists_next (show commentMode ∈ modes by decide) hlined
  obtain ⟨hmarks, hchannel⟩ := marks_next hlined hnext
  refine ⟨token, after, ⟨rfl, hmarks, Lexer.lined_next hnext hlined, _, Lexer.last_next hnext, hlined, rfl⟩, ?_⟩
  have hsees : Parser.Sees lexer (commentParser table) base ⟨stack, none, previous, stream⟩ (some token) after
      [token] := .read rfl (htop ▸ hfree) (hover ▸ hnext) hchannel
  rw [Parser.step_sees hsees, Parser.step_sees (.held rfl)]
  rfl

omit hstages in
/-- A token is shifted. -/
theorem step_shift (h : Looks run text token) {target : StateId} :
    Parser.perform (commentParser table) base Parser.forget run () (.shift target) =
      .running ⟨⟨target, .token token, token.span⟩ :: run.stack, none, token.span, run.stream⟩ () := by
  simp only [Parser.perform, h.lookahead]

/-- A rule is reduced. -/
theorem step_reduce {id : Nat} {lhs : String} {target : StateId} {frames below : List (Parser.Frame Unit)}
    (hrule : [("comment", 1), ("block", 3), ("comment_body", 0), ("comment_body", 2)][id]? =
      some (lhs, frames.length)) (hstack : run.stack = frames ++ below)
    (hgoto : table.goto? (Parser.topState below) lhs = some target) :
    ∃ span, Parser.perform (commentParser table) base Parser.forget run () (.reduce id) =
      .running { run with stack := ⟨target, .value (), span⟩ :: below } () := by
  obtain ⟨hlhs, hlength⟩ := rule_length hstages _ hrule
  have hpop : Parser.popFrames ((commentParser table).table.grammar.rule id).rhs.length run.stack =
      .ok (frames.reverse, below) := by
    rw [show ((commentParser table).table.grammar.rule id).rhs.length = frames.length from hlength,
      Parser.popFrames_eq (by rw [hstack, List.length_append]; exact Nat.le_add_right _ _), hstack,
      List.take_left, List.drop_left]
  have htarget : (commentParser table).table.goto? (Parser.topState below)
      ((commentParser table).table.grammar.rule id).lhs = some target := by
    rw [← hgoto, ← hlhs]
    rfl
  refine ⟨Parser.spanOf frames.reverse run.previous run.lookahead, ?_⟩
  simp only [Parser.perform, Parser.reduce, hpop, htarget, Parser.forget]

/-- The whole comment is accepted, and the token behind it given back. -/
theorem step_accept (base : String) (h : Looks run text token) {frame : Parser.Frame Unit} (hstack : run.stack = [frame]) :
    ∃ after, Parser.perform (commentParser table) base Parser.forget run () (.accept 0) = .stopped (.ok ()) after () ∧
      after.cursor.Lined ∧ after.cursor.text = text := by
  obtain ⟨-, hlength⟩ := rule_length hstages 0 rfl
  obtain ⟨cursor, hcursor, hlined, htext⟩ := h.last
  have hpop : Parser.popFrames ((commentParser table).table.grammar.rule 0).rhs.length run.stack =
      .ok ([frame], []) := by
    rw [show ((commentParser table).table.grammar.rule 0).rhs.length = 1 from hlength, hstack]
    rfl
  refine ⟨{ run.stream with cursor := cursor, last := none }, ?_, hlined, htext⟩
  simp only [Parser.perform, Parser.accept, hpop, List.isEmpty_nil, Bool.not_true, Bool.false_eq_true, if_false,
    Parser.forget, h.lookahead, Stream.rewind?_eq hcursor]

end Steps

/-! ## 5. Whole comments -/

/-- The stack inside so many open comments: for each of them its beginning, and what was read of its inside. -/
inductive Nested : Nat → List (Parser.Frame Unit) → Prop
  | nil : Nested 0 []
  | cons {depth : Nat} {body opened : Parser.Frame Unit} {below : List (Parser.Frame Unit)} :
      body.state = Stage.body.id → opened.state = Stage.opened.id → Nested depth below →
      Nested (depth + 1) (body :: opened :: below)

theorem Nested.top {depth : Nat} {stack : List (Parser.Frame Unit)} (h : Nested (depth + 1) stack) :
    Parser.topState stack = Stage.body.id := by
  cases h with
  | cons hbody _ _ => exact hbody

section Runs

variable {table : ParseTable} (hstages : FollowsStages table) {base : String} {delegate : Parser.Delegate}
  {run : Parser.Run Unit} {text : List Char} {token : Token} {left : Option (List Char)}
include hstages

/-- A token is read, whatever it is. -/
theorem leaves_reads (stage : Stage) {stack : List (Parser.Frame Unit)} {previous : Span} {stream : Stream}
    (hlined : stream.cursor.Lined) (htop : Parser.topState stack = stage.id) (hstage : stage ≠ .whole)
    (h : ∀ token after, Looks ⟨stack, some token, previous, after⟩ stream.cursor.text token →
      Leaves delegate (commentParser table) base ⟨stack, some token, previous, after⟩ left) :
    Leaves delegate (commentParser table) base ⟨stack, none, previous, stream⟩ left := by
  obtain ⟨token, after, hlooks, hstep⟩ := step_reads hstages stage hlined htop hstage
  obtain ⟨result, last, hends, hleft⟩ := h token after hlooks
  refine ⟨result, last, ?_, hleft⟩
  cases hends with
  | stop hstop => exact .stop (hstep.trans hstop)
  | go hgo hends => exact .go (hstep.trans hgo) hends

/-- The action for the token in hand is performed. -/
theorem leaves_perform (stage : Stage) (h : Looks run text token) (htop : Parser.topState run.stack = stage.id)
    {action : Action} (haction : stage.action token.kind = some action) {run' : Parser.Run Unit}
    (hperform : Parser.perform (commentParser table) base Parser.forget run () action = .running run' ())
    (hleaves : Leaves delegate (commentParser table) base run' left) :
    Leaves delegate (commentParser table) base run left := by
  have hstep := step_looks hstages base delegate stage h htop
  rw [haction] at hstep
  obtain ⟨result, after, hends, hleft⟩ := hleaves
  exact ⟨result, after, .go (hstep.trans hperform) hends, hleft⟩

/-- A mark is shifted, and the token behind it read. -/
theorem leaves_shift (stage next : Stage) (h : Looks run text token)
    (htop : Parser.topState run.stack = stage.id) (haction : stage.action token.kind = some (.shift next.id))
    (hnext : next ≠ .whole)
    (hleaves : ∀ frame token' after, frame.state = next.id →
      Looks ⟨frame :: run.stack, some token', token.span, after⟩ run.stream.cursor.text token' →
      Leaves delegate (commentParser table) base ⟨frame :: run.stack, some token', token.span, after⟩ left) :
    Leaves delegate (commentParser table) base run left :=
  leaves_perform hstages stage h htop haction (step_shift h)
    (leaves_reads hstages next h.lined rfl hnext fun token' after => hleaves _ token' after rfl)

/-- A rule is reduced. -/
theorem leaves_reduce (stage : Stage) {id : Nat} {lhs : String} {target : StateId}
    (frames below : List (Parser.Frame Unit)) (h : Looks run text token) (hstack : run.stack = frames ++ below)
    (htop : Parser.topState run.stack = stage.id) (haction : stage.action token.kind = some (.reduce id))
    (hrule : [("comment", 1), ("block", 3), ("comment_body", 0), ("comment_body", 2)][id]? =
      some (lhs, frames.length))
    (hgoto : table.goto? (Parser.topState below) lhs = some target)
    (hleaves : ∀ frame, frame.state = target →
      Leaves delegate (commentParser table) base { run with stack := frame :: below } left) :
    Leaves delegate (commentParser table) base run left := by
  obtain ⟨span, hperform⟩ := step_reduce hstages hrule hstack hgoto
  exact leaves_perform hstages stage h htop haction hperform (hleaves _ rfl)

/-- Before the end of the text an open comment is refused. -/
theorem leaves_stuck (stage : Stage) (h : Looks run text token) (htop : Parser.topState run.stack = stage.id)
    (haction : stage.action token.kind = none) : Leaves delegate (commentParser table) base run none := by
  have hstep := step_looks hstages base delegate stage h htop
  rw [haction] at hstep
  exact ⟨_, _, .stop hstep, _, rfl⟩

/-- The inside of a comment grows by what was read, if the text goes on. -/
theorem leaves_fill (stage : Stage) {id depth : Nat} (frames below : List (Parser.Frame Unit))
    (h : Looks run text token) (hstack : run.stack = frames ++ below)
    (htop : Parser.topState run.stack = stage.id)
    (hreduce : ∀ kind, stage.action (.kind kind) = some (.reduce id)) (heof : stage.action .eof = none)
    (hrule : [("comment", 1), ("block", 3), ("comment_body", 0), ("comment_body", 2)][id]? =
      some ("comment_body", frames.length))
    (hbelow : Parser.topState below = Stage.opened.id)
    (hbody : ∀ frame, frame.state = Stage.body.id →
      Leaves delegate (commentParser table) base { run with stack := frame :: below } (closing (depth + 1) text)) :
    Leaves delegate (commentParser table) base run (closing (depth + 1) text) := by
  have hcases : (token.kind = .eof ∧ text = []) ∨ ∃ kind, token.kind = .kind kind := by
    have hmarks := h.marks
    generalize token.kind = t, run.stream.cursor.text = rest at hmarks
    cases hmarks with
    | eof => exact .inl ⟨rfl, rfl⟩
    | opens => exact .inr ⟨_, rfl⟩
    | closes => exact .inr ⟨_, rfl⟩
    | passes => exact .inr ⟨_, rfl⟩
  rcases hcases with ⟨hkind, rfl⟩ | ⟨kind, hkind⟩
  · rw [closing]
    exact leaves_stuck hstages stage h htop (by rw [hkind, heof])
  · have hgoto : table.goto? (Parser.topState below) "comment_body" = some Stage.body.id := by
      rw [hbelow]
      exact hstages.2.2.1.2.2
    exact leaves_reduce hstages stage frames below h hstack htop (by rw [hkind, hreduce]) hrule hgoto hbody

/-- **Inside open comments** the parser reads up to where they are all closed. -/
theorem leaves_nested {text : List Char} {depth : Nat} {run : Parser.Run Unit} {token : Token}
    (h : Looks run text token) (hnested : Nested (depth + 1) run.stack) :
    Leaves delegate (commentParser table) base run (closing (depth + 1) text) := by
  induction hlength : text.length using Nat.strong_induction_on generalizing text depth run token with
  | _ length ih =>
  have hmarks := h.marks
  generalize hkind : token.kind = t, hrest : run.stream.cursor.text = rest at hmarks
  cases hmarks with
  | eof =>
    rw [closing]
    exact leaves_stuck hstages .body h hnested.top (by rw [hkind]; rfl)
  | opens =>
    -- one more comment is open, and nothing was read of its inside
    rw [closing]
    refine leaves_shift hstages .body .opened h hnested.top (by rw [hkind]; rfl) (by decide)
      fun opened next after hopened hnext => ?_
    rw [hrest] at hnext
    refine leaves_fill hstages .opened [] (opened :: run.stack) hnext rfl hopened (fun _ => rfl) rfl rfl
      hopened fun body hbody => ?_
    exact ih _ (hlength ▸ Nat.lt_succ_of_lt (Nat.lt_succ_self _)) (hnext.stack _) (.cons hbody hopened hnested) rfl
  | closes =>
    refine leaves_shift hstages .body .closed h hnested.top (by rw [hkind]; rfl) (by decide)
      fun closed next after hclosed hnext => ?_
    rw [hrest] at hnext
    generalize run.stack = stack at hnested hnext
    cases hnested with
    | @cons _ body opened below hbody hopened hbelow =>
      cases hbelow with
      | nil =>
        -- the outermost comment is closed
        rw [closing, closing]
        refine leaves_reduce hstages .closed [closed, body, opened] [] hnext rfl hclosed rfl rfl
          hstages.2.2.1.1 fun whole hwhole => ?_
        have hlooks := hnext.stack [whole]
        have hstep := step_looks hstages base delegate .whole hlooks hwhole
        obtain ⟨last, haccept, hlined, htext⟩ := step_accept hstages base hlooks rfl
        exact ⟨_, _, .stop (hstep.trans haccept), rfl, hlined, htext⟩
      | @cons depth outer beginning below houter hbeginning hbelow =>
        -- an inner comment is a piece of the inside of the one around it
        rw [closing]
        refine leaves_reduce hstages .closed [closed, body, opened] (outer :: beginning :: below) hnext rfl hclosed
          rfl rfl (houter ▸ hstages.2.2.1.2.1) fun piece hpiece => ?_
        refine leaves_fill hstages .piece [piece, outer] (beginning :: below) (hnext.stack _) rfl hpiece
          (fun _ => rfl) rfl rfl hbeginning fun body' hbody' => ?_
        exact ih _ (hlength ▸ Nat.lt_succ_of_lt (Nat.lt_succ_self _)) (hnext.stack _) (.cons hbody' hbeginning hbelow) rfl
  | @passes front _ hne _ hpasses =>
    rw [hpasses]
    refine leaves_shift hstages .body .piece h hnested.top (by rw [hkind]; rfl) (by decide)
      fun piece next after hpiece hnext => ?_
    rw [hrest] at hnext
    generalize run.stack = stack at hnested hnext
    cases hnested with
    | @cons _ body opened below hbody hopened hbelow =>
      refine leaves_fill hstages .piece [piece, body] (opened :: below) hnext rfl hpiece (fun _ => rfl) rfl
        rfl hopened fun body' hbody' => ?_
      have hpos := List.length_pos_iff.mpr hne
      exact ih _ (by simpa [← hlength] using hpos) (hnext.stack _) (.cons hbody' hopened hbelow) rfl

end Runs

/-- **The parser of block comments** leaves what stands behind the comment, or fails if the comment is never
closed. -/
theorem settled_comments {table : ParseTable} (h : commentTable = .ok table) {mode : String} {stream : Stream}
    (hlined : stream.cursor.Lined) {inside : List Char} (htext : stream.cursor.text = '/' :: '*' :: inside) :
    match closing 1 inside with
    | some rest => ∃ after, Parser.settled lexer byteWeight 1 (commentParser table) mode stream = (.ok (), after) ∧
        after.cursor.Lined ∧ after.cursor.text = rest
    | none => ∃ e after, Parser.settled lexer byteWeight 1 (commentParser table) mode stream = (.error e, after) := by
  have hstages := followsStages h
  have hleaves : Leaves (Parser.settled lexer byteWeight 1) (commentParser table) mode (Parser.start stream)
      (closing 1 inside) := by
    -- the mark that opens the comment is shifted, and its empty inside reduced
    refine leaves_reads hstages .start hlined rfl (by decide) fun token after hlooks => ?_
    rw [htext] at hlooks
    obtain ⟨hkind, hrest⟩ : token.kind = .kind "/*" ∧ after.cursor.text = inside := by
      have hmarks := hlooks.marks
      generalize hbegin : '/' :: '*' :: inside = begin, token.kind = t, (_ : Stream).cursor.text = rest at hmarks
      cases hmarks with
      | eof => cases hbegin
      | opens => exact ⟨rfl, (List.cons.inj (List.cons.inj hbegin).2).2.symm⟩
      | closes => cases hbegin
      | passes _ hopen _ => exact absurd ⟨inside, hbegin⟩ hopen
    refine leaves_shift hstages .start .opened hlooks rfl (by rw [hkind]; rfl) (by decide)
      fun opened next last hopened hnext => ?_
    rw [show (⟨[], some token, _, after⟩ : Parser.Run Unit).stream.cursor.text = inside from hrest] at hnext
    refine leaves_fill hstages .opened [] [opened] hnext rfl hopened (fun _ => rfl) rfl rfl hopened
      fun body hbody => ?_
    exact leaves_nested hstages (hnext.stack _) (.cons hbody hopened .nil)
  obtain ⟨result, after, hends, hleft⟩ := hleaves
  obtain ⟨halone, -⟩ := comments_alone h
  -- the parser is alone, so what it comes to does not depend on the others
  have hunique := (halone.ends lexer mode (Parser.settled lexer byteWeight 1) hlined (Nat.le_refl _)).unique hends
  have hsettled : Parser.settled lexer byteWeight 1 (commentParser table) mode stream = (result, after) := by
    rw [Parser.settled, Parser.delegateWith]
    exact congrArg (fun out => (out.1, out.2.1)) hunique
  cases hclosing : closing 1 inside with
  | none =>
    rw [hclosing] at hleft
    obtain ⟨e, rfl⟩ := hleft
    exact ⟨e, after, hsettled⟩
  | some rest =>
    rw [hclosing] at hleft
    obtain ⟨rfl, hlined, hrest⟩ := hleft
    exact ⟨after, hsettled, hlined, hrest⟩

end Language

end Lode
