/-
# Comments in front of tokens

A block comment in front of a token changes nothing but places (`comment_invisible`).  Up to the gap the
parser reads the same tokens with the comment as without it, since none of them takes the slash with which
the comment begins.  At the gap it passes over the comment, and behind the comment the rest of the text is
the same.

The two runs are compared in three parts.  In front of the gap every token of the one is a token of the
other (`Gap.next`), so a run is followed up to the gap (`follows_gap`).  At the gap the run over the longer
text takes one step more, in which the parser of comments reads the whole comment (`skips_comment`).  Behind
it both have the same characters before them, at different places, and the parser does the same over them
(`follows_same`).

The one token that would go on into a comment is the text of a string literal.  So a comment may stand in
front of a token that is read in the mode of ordinary text, and then the token before it is not such a text:
a quote leads into a literal or out of it, and the mode of strings is that of the inside of literals
(`modeOver_eq`).  With the literals of declarations this says how string literals are read (`read_literal`).
-/
import Lode.Proofs.Language.Places
import Lode.Proofs.Language.Seams
import Lode.Proofs.Language.Reading
import Lode.Proofs.Parser.Rejection

namespace Lode

/-! ## 1. The same text -/

/-- The same token is taken from the same text, wherever it stands. -/
theorem Lexer.next_same {lexer : Lexer} {mode : String} {s s' left : Stream} {token : Token}
    (hunread : s.cursor.unread = s'.cursor.unread) (h : lexer.next mode s = .ok (token, left)) :
    ∃ token' left', lexer.next mode s' = .ok (token', left') ∧ token.Alike token' ∧
      left.cursor.unread = left'.cursor.unread := by
  rcases next_cases h with ⟨hend, rfl, rfl⟩ | ⟨rules, rule, front, back, lines, hrules, hmem, hchooses, htook⟩
  · refine ⟨s'.produceEof.1, s'.produceEof.2, ?_, ⟨rfl, rfl, rfl⟩, hunread⟩
    rw [next, Stream.atEnd, ← hunread, hend, List.isEmpty_nil, if_pos rfl]
  · obtain ⟨token', left', hnext, htook'⟩ := exists_next (hunread ▸ htook.unread) hrules hchooses
    exact ⟨token', left', hnext, ⟨htook.kind.trans htook'.kind.symm, htook.text.trans htook'.text.symm,
      htook.channel.trans htook'.channel.symm⟩, htook.left.trans htook'.left.symm⟩

namespace Language

/-- The same text is left in both streams. -/
structure SameRest (s s' : Stream) : Prop where
  lined : s.cursor.Lined
  lined' : s'.cursor.Lined
  text : s.cursor.text = s'.cursor.text

theorem SameRest.next {s s' left : Stream} {token : Token} {mode : String} (h : SameRest s s')
    (hnext : lexer.next mode s = .ok (token, left)) :
    ∃ token' left', lexer.next mode s' = .ok (token', left') ∧ token.Alike token' ∧ SameRest left left' := by
  have hunread : s.cursor.unread = s'.cursor.unread := by rw [← h.lined, ← h.lined', h.text]
  obtain ⟨token', left', hnext', halike, hleft⟩ := Lexer.next_same hunread hnext
  exact ⟨token', left', hnext', halike, Lexer.lined_next hnext h.lined, Lexer.lined_next hnext' h.lined',
    congrArg List.flatten hleft⟩

/-! ## 2. Passing over comments -/

/-- Tokens that are not for the tables stand in ordinary text. -/
theorem hidden_rules : (∀ rule ∈ stringRules, rule.channel = .default) ∧
    ∀ rule ∈ defaultRules, rule.channel ≠ .default → rule.kind ≠ "invalid" ∧ rule.kind ≠ "STRING_TEXT" ∧
      (rule.channel = .hidden commentChannel → rule.regex = .literal "/*") := by
  decide

/-- In ordinary text a block comment is recognised by its beginning. -/
theorem choose?_opening (rest : List Char) : Lexer.choose? ('/' :: '*' :: rest) defaultRules =
    some (⟨.literal "/*", "/*", .hidden commentChannel⟩, byteLength ['/', '*']) := by
  have hblank : (Regex.atLeastOne (.one ⟨false, [.space]⟩)).matchLength? ('/' :: '*' :: rest) = none :=
    Regex.matchLength?_run_none
      (by simp [CharClass.contains, ClassItem.contains, isSpace_eq, spaceRanges]) _
  have hline : lineComment.matchLength? ('/' :: '*' :: rest) = none :=
    matchLength?_lineComment_none (by simp)
  rw [defaultRules, List.append_assoc, List.append_assoc, List.append_assoc, List.cons_append,
    Lexer.choose?_further hblank, List.cons_append]
  refine (Lexer.choose?_further hline _).trans ?_
  exact Lexer.choose?_here (@Regex.matchLength?_literal "/*" (by decide) rest) (by decide) _

/-- In front of a comment a token for the parser of comments is handed out. -/
theorem next_opening {s : Stream} (hlined : s.cursor.Lined) {rest : List Char}
    (htext : s.cursor.text = '/' :: '*' :: rest) :
    ∃ token left, lexer.next defaultMode s = .ok (token, left) ∧ token.channel = .hidden commentChannel := by
  cases hunread : s.cursor.unread with
  | nil => simp [Cursor.text, hunread] at htext
  | cons line lines =>
    have hlines : splitLines (['/', '*'] ++ rest) = line :: lines := by rw [← hunread, ← hlined, htext]; rfl
    obtain ⟨back, rfl, -⟩ := splitLines_prefix (by decide) (by decide) hlines
    obtain ⟨token, left, hnext, htook⟩ := Lexer.exists_next hunread find?_defaultMode
      ⟨by decide, choose?_opening back⟩
    exact ⟨token, left, hnext, htook.channel⟩

section Parser

variable {p : Parser} (hp : parser = .ok p) (hreads : Reads p) {run : Parser.Run Piece} {stream : Stream}

/-- The way in which the parser of the language lets the parser of comments read. -/
abbrev comments : Parser.Delegate := Parser.settled lexer byteWeight 1

include hreads in
/-- The parser of the language reads in the modes of ordinary text and of strings. -/
theorem mode_cases (stack : List (Parser.Frame Piece)) :
    p.modeOver defaultMode stack = defaultMode ∨ p.modeOver defaultMode stack = stringMode := by
  rcases Parser.readsIn_modeOver p defaultMode stack with hbase | ⟨s, hs⟩
  · exact .inl hbase
  · obtain ⟨a, paths, m⟩ := hreads.made
    obtain ⟨rule, hmem, hrule⟩ := m.exists_mode hs
    have hmodes : ∀ rule ∈ unitRules, ∀ mode ∈ rule.mode, mode = defaultMode ∨ mode = stringMode := by
      decide
    exact hmodes rule (hreads.rules ▸ hmem) _ hrule

include hreads in
/-- What is known of a token that is not for the tables. -/
theorem hidden_next {token : Token} {left : Stream}
    (hnext : lexer.next (p.modeOver defaultMode run.stack) run.stream = .ok (token, left))
    (htakes : p.takes token = false) : token.kind ≠ .kind "invalid" ∧ token.kind ≠ .kind "STRING_TEXT" ∧
      (token.channel = .hidden commentChannel → p.modeOver defaultMode run.stack = defaultMode ∧
        ∃ inside, run.stream.cursor.text = '/' :: '*' :: inside) := by
  rcases Lexer.next_cases hnext with ⟨-, rfl, -⟩ | ⟨rules, rule, front, back, lines, hrules, hmem, hchooses, htook⟩
  · cases htakes
  · have hchannel : rule.channel ≠ .default := by
      intro h
      rw [Parser.takes, htook.channel, h, hreads.channel] at htakes
      cases htakes
    rcases mode_cases hreads run.stack with hmode | hmode <;> rw [hmode] at hrules
    · obtain rfl := Option.some.inj (hrules.symm.trans find?_defaultMode)
      obtain ⟨hvalid, htext, hopening⟩ := hidden_rules.2 rule hmem hchannel
      refine ⟨by simpa [htook.kind] using hvalid, by simpa [htook.kind] using htext, fun hcomment => ⟨hmode, ?_⟩⟩
      obtain ⟨-, hmatch, -⟩ := Lexer.choose?_eq_some hchooses.choose
      rw [hopening (htook.channel ▸ hcomment)] at hmatch
      by_cases hbegins : ['/', '*'] <+: front ++ back
      · have hline : front ++ back <+: run.stream.cursor.text :=
          ⟨lines.flatten, by rw [Cursor.text, htook.unread, List.flatten_cons]⟩
        obtain ⟨inside, hinside⟩ := hbegins.trans hline
        exact ⟨inside, hinside.symm⟩
      · rw [matchLength?_opening_none hbegins] at hmatch
        cases hmatch
    · obtain rfl := Option.some.inj (hrules.symm.trans find?_stringMode)
      exact absurd (hidden_rules.1 rule hmem) hchannel

include hp hreads

/-- **Passing over a comment**: in ordinary text a block comment is passed over as a whole. -/
theorem skips_comment (hmode : p.modeOver defaultMode run.stack = defaultMode)
    (hlined : run.stream.cursor.Lined) {inside rest : List Char}
    (htext : run.stream.cursor.text = '/' :: '*' :: inside) (hclosing : closing 1 inside = some rest) :
    ∃ stream, Parser.Skips lexer comments p defaultMode run stream ∧ stream.cursor.Lined ∧
      stream.cursor.text = rest := by
  obtain ⟨token, left, hnext, hchannel⟩ := next_opening hlined htext
  obtain ⟨table, _, htable, -, hp⟩ := parser_eq hp
  have hother : p.inner? commentChannel =
      some (Parser.ofTable table (.hidden commentChannel) commentDelimiters) := by rw [hp]; rfl
  have hsettled := @settled_comments table htable (p.modeOver defaultMode run.stack)
    { left with cursor := run.stream.cursor, last := none } hlined inside htext
  rw [hclosing] at hsettled
  obtain ⟨stream, hsettled, hlined', hrest⟩ := hsettled
  rw [← hmode] at hnext
  refine ⟨stream, .inner hnext ?_ hchannel hother (Stream.rewind?_eq (Lexer.last_next hnext)) hsettled,
    hlined', hrest⟩
  rw [hchannel, hreads.channel]
  rfl

/-- What is passed over is a token that nobody reads, or a block comment. -/
theorem skips_cases (hlined : run.stream.cursor.Lined) (h : Parser.Skips lexer comments p defaultMode run stream) :
    (∃ token, lexer.next (p.modeOver defaultMode run.stack) run.stream = .ok (token, stream) ∧
      p.takes token = false ∧ ∀ name, token.channel = .hidden name → p.inner? name = none) ∨
    p.modeOver defaultMode run.stack = defaultMode ∧ ∃ inside, run.stream.cursor.text = '/' :: '*' :: inside ∧
      closing 1 inside = some stream.cursor.text ∧ stream.cursor.Lined := by
  cases h with
  | @drop token _ hnext hchannel hinner => exact .inl ⟨token, hnext, hchannel, hinner⟩
  | @inner token left before _ name other hnext hchannel hname hother hrewind hrun =>
    obtain ⟨rfl, table, htable, rfl⟩ := inner?_language hp hother
    obtain ⟨hmode, inside, htext⟩ := (hidden_next hreads hnext hchannel).2.2 hname
    rw [Stream.rewind?_eq (Lexer.last_next hnext)] at hrewind
    obtain rfl := Option.some.inj hrewind
    have hsettled := @settled_comments table htable (p.modeOver defaultMode run.stack)
      { left with cursor := run.stream.cursor, last := none } hlined inside htext
    refine .inr ⟨hmode, inside, htext, ?_⟩
    cases hclosing : closing 1 inside with
    | none =>
      rw [hclosing] at hsettled
      obtain ⟨e, after, hfails⟩ := hsettled
      cases (Prod.mk.inj (hrun.symm.trans hfails)).1
    | some rest =>
      rw [hclosing] at hsettled
      obtain ⟨after, hsettled, hlined', rfl⟩ := hsettled
      obtain rfl := (Prod.mk.inj (hrun.symm.trans hsettled)).2
      exact ⟨rfl, hlined'⟩

/-! ## 3. Behind the gap -/

/-- Over the same text the parser reads the same. -/
theorem follows_same {run' : Parser.Run Piece} (h : run.Alike SamePiece SameRest run') :
    Parser.Follows lexer comments p defaultMode SameRest run run' where
  reads hnext _ := by
    rw [← Parser.modeOver_alike h.stack]
    exact h.stream.next hnext
  skips hskips := by
    have hmode : p.modeOver defaultMode run.stack = p.modeOver defaultMode run'.stack :=
      Parser.modeOver_alike h.stack
    rcases skips_cases hp hreads h.stream.lined hskips with ⟨token, hnext, htakes, hinner⟩ |
      ⟨hdefault, inside, htext, hclosing, hlined⟩
    · obtain ⟨token', left', hnext', halike, hleft⟩ := h.stream.next hnext
      refine ⟨left', .drop (hmode ▸ hnext') ?_ fun name hname => hinner name (halike.channel.trans hname), hleft⟩
      rw [← halike.channel]
      exact htakes
    · obtain ⟨stream', hskips', hlined', htext'⟩ := skips_comment hp hreads (hmode ▸ hdefault) h.stream.lined'
        (h.stream.text ▸ htext) hclosing
      exact ⟨stream', hskips', hlined, hlined', htext'.symm⟩

end Parser

/-! ## 4. Inside of string literals -/

/-- Every state on a stack has a mode that agrees with whether it is inside of a literal. -/
def KeptModes (table : ParseTable) (states : List StateId) : Prop :=
  states.IsChain fun s below => keepsMode table (insideString table below) (insideString table s) s = true

theorem keptModes_cons {table : ParseTable} {s : StateId} {stack : List (Parser.Frame Piece)} :
    KeptModes table (s :: Parser.statesOf stack) ↔
      keepsMode table (insideString table (Parser.topState stack)) (insideString table s) s = true ∧
        KeptModes table (Parser.statesOf stack) := by
  obtain ⟨ss, hss⟩ := Parser.statesOf_eq_cons stack
  rw [hss]
  exact List.isChain_cons_cons

theorem keepsMode_self {table : ParseTable} {below inside : Bool} {s : StateId}
    (h : keepsMode table below inside s = true) :
    insideString table s = inside ∧ keepsMode table below (insideString table s) s = true := by
  have hinside : insideString table s = inside := eq_of_beq (Bool.and_eq_true_iff.mp h).1
  exact ⟨hinside, hinside.symm ▸ h⟩

section Strings

variable {p : Parser} (hreads : Reads p) {run next last : Parser.Run Piece} {delegate : Parser.Delegate}
include hreads

/-- A unit does not begin inside a literal. -/
theorem insideString_start : insideString p.table 0 = false := by
  have hcompleted : Spot.completed .start = some ⟨"item_list", 0, some "empty_list"⟩ := rfl
  obtain ⟨id, haction, hshape⟩ := hreads.spots.reduce hcompleted List.mem_cons_self
  have hinside := hreads.strings.reduce haction
  rw [show (p.table.grammar.rule id).lhs = "item_list" from congrArg Spot.Shape.lhs hshape] at hinside
  exact hinside

/-- **The mode of a stack** is that of strings inside of literals, and that of ordinary text outside. -/
theorem modeOver_eq {stack : List (Parser.Frame Piece)} (h : KeptModes p.table (Parser.statesOf stack)) :
    p.modeOver defaultMode stack = modeWithin (insideString p.table (Parser.topState stack)) := by
  induction stack with
  | nil =>
    have hmode : p.table.mode? 0 = none := hreads.spots.mode .start
    simp [Parser.modeOver, hmode, Parser.topState, insideString_start hreads, modeWithin]
  | cons frame stack ih =>
    obtain ⟨hkeeps, hbelow⟩ := keptModes_cons.mp h
    rw [Parser.modeOver_cons]
    simp only [keepsMode, beq_self_eq_true, Bool.true_and] at hkeeps
    cases hmode : p.table.mode? frame.state with
    | none =>
      rw [hmode] at hkeeps
      rw [Option.getD_none, ih hbelow, ← eq_of_beq hkeeps]
      rfl
    | some mode =>
      rw [hmode] at hkeeps
      exact eq_of_beq hkeeps

theorem action?_empty (s : StateId) : p.table.action? s .empty = none := by
  obtain ⟨a, paths, m⟩ := hreads.made
  exact m.action?_empty hreads.empty_not_mem (by simp [hreads.ends]) s

/-- Every step keeps the modes. -/
theorem kept_step (h : KeptModes p.table (Parser.statesOf run.stack))
    (hstep : Parser.step delegate lexer p defaultMode builder run () = .running next ()) :
    KeptModes p.table (Parser.statesOf next.stack) := by
  rcases Parser.step_running (action?_empty hreads) hstep with ⟨-, hstack, -⟩ |
    ⟨token, stream, new, action, -, haction, hperform⟩
  · rwa [hstack]
  · cases action with
    | accept id => exact absurd hperform Parser.accept_ne_running
    | shift target =>
      obtain ⟨rfl, -⟩ := Parser.Progress.running.inj hperform
      exact keptModes_cons.mpr ⟨(keepsMode_self (hreads.strings.shift haction)).2, h⟩
    | reduce id =>
      obtain ⟨below, ss, target, hdrop, hgoto, hstates, -⟩ := Parser.statesOf_reduce hperform
      rw [hstates]
      refine List.isChain_cons_cons.mpr ⟨(keepsMode_self (hreads.strings.goto hgoto)).2, ?_⟩
      rw [← hdrop]
      exact List.IsChain.drop h _

theorem leads_kept {state lastState : Unit} (h : KeptModes p.table (Parser.statesOf run.stack))
    (hleads : Parser.Leads delegate lexer p defaultMode builder run state last lastState) :
    KeptModes p.table (Parser.statesOf last.stack) := by
  induction hleads with
  | refl => exact h
  | go hstep _ ih => exact ih (kept_step hreads h hstep)

/-- Only a quote leads into a literal or out of it. -/
theorem mode_step (h : KeptModes p.table (Parser.statesOf run.stack))
    (hstep : Parser.step delegate lexer p defaultMode builder run () = .running next ()) :
    p.modeOver defaultMode next.stack = p.modeOver defaultMode run.stack ∨
      ∃ target token, next.stack = ⟨target, .token token, token.span⟩ :: run.stack ∧ token.kind = quote := by
  rw [modeOver_eq hreads h, modeOver_eq hreads (kept_step hreads h hstep)]
  rcases Parser.step_running (action?_empty hreads) hstep with ⟨-, hstack, -⟩ |
    ⟨token, stream, new, action, -, haction, hperform⟩
  · exact .inl (by rw [hstack])
  · cases action with
    | accept id => exact absurd hperform Parser.accept_ne_running
    | shift target =>
      obtain ⟨rfl, -⟩ := Parser.Progress.running.inj hperform
      by_cases hquote : token.kind = quote
      · exact .inr ⟨target, token, rfl, hquote⟩
      · have hinside := (keepsMode_self (hreads.strings.shift haction)).1
        rw [beq_eq_false_iff_ne.mpr hquote, Bool.bne_false] at hinside
        exact .inl (congrArg modeWithin hinside)
    | reduce id =>
      obtain ⟨below, ss, target, -, hgoto, hstates, -⟩ := Parser.statesOf_reduce hperform
      obtain ⟨ss', hss'⟩ := Parser.statesOf_eq_cons next.stack
      refine .inl (congrArg modeWithin ?_)
      rw [(List.cons.inj (hss'.symm.trans hstates)).1, (keepsMode_self (hreads.strings.goto hgoto)).1,
        ← hreads.strings.reduce haction]

/-- The parser is inside of a literal, and has no token in hand but text of the literal. -/
def Within (table : ParseTable) (run : Parser.Run Piece) : Prop :=
  insideString table (Parser.topState run.stack) = true ∧ ∀ token ∈ run.lookahead, token.kind = .kind "STRING_TEXT"

/-- With text of a literal in hand, the parser stays inside of the literal. -/
theorem within_perform {token : Token} {stream : Stream} {action : Action}
    (hkind : token.kind = .kind "STRING_TEXT")
    (haction : p.table.action? (Parser.topState run.stack) token.kind = some action)
    (hperform : Parser.perform p defaultMode builder ⟨run.stack, some token, run.previous, stream⟩ () action =
      .running next ()) :
    Within p.table next := by
  have hinside : insideString p.table (Parser.topState run.stack) = true := by
    rw [insideString, ← hkind, haction]
    rfl
  cases action with
  | accept id => exact absurd hperform Parser.accept_ne_running
  | shift target =>
    obtain ⟨rfl, -⟩ := Parser.Progress.running.inj hperform
    refine ⟨(keepsMode_self (hreads.strings.shift haction)).1.trans ?_, fun _ hnone => by cases hnone⟩
    rw [hinside, hkind]
    rfl
  | reduce id =>
    obtain ⟨below, ss, target, -, hgoto, hstates, hlook'⟩ := Parser.statesOf_reduce hperform
    obtain ⟨ss', hss'⟩ := Parser.statesOf_eq_cons next.stack
    refine ⟨?_, ?_⟩
    · rw [(List.cons.inj (hss'.symm.trans hstates)).1, (keepsMode_self (hreads.strings.goto hgoto)).1,
        ← hreads.strings.reduce haction, hinside]
    · rw [hlook']
      rintro _ ⟨⟩
      exact hkind

end Strings

/-- **String literals.**  A literal in which every character stands for itself or is escaped is read as the
text that was written.  What follows its closing quote is read in the mode of ordinary text, and in every
text the mode changes only with a quote. -/
theorem read_literal {s body : String} (h : Literal s.toList body.toList) :
    (∃ n, read ("constant c: u8 = \"" ++ body ++ "\"") = .ok n ∧
      n.unplaced = (constantUnit "c" byteType (.string s none .nowhere)).node.unplaced) ∧
    ∃ p, parser = .ok p ∧
      (∀ rest : String, ∃ (count : Nat) (run : Parser.Run Piece),
        (∀ fuel, Parser.drive lexer (count + fuel) p defaultMode builder
            (Parser.start (.ofText ("constant c: u8 = \"" ++ body ++ "\"" ++ rest))) () =
          Parser.drive lexer fuel p defaultMode builder run ()) ∧
        run.lookahead = none ∧ run.stream.At rest.toList ∧
        p.modeOver defaultMode run.stack = defaultMode) ∧
      ∀ (text : String) (run next : Parser.Run Piece),
        Parser.Leads comments lexer p defaultMode builder (Parser.start (.ofText text)) () run () →
        Parser.step comments lexer p defaultMode builder run () = .running next () →
        p.modeOver defaultMode next.stack = p.modeOver defaultMode run.stack ∨
          ∃ target token, next.stack = ⟨target, .token token, token.span⟩ :: run.stack ∧
            token.kind = quote := by
  obtain ⟨p, hp, hreads⟩ := exists_reads
  refine ⟨exists_read_literal h, p, hp, fun rest => exists_closed hreads h rest, fun text run next hleads hstep => ?_⟩
  have hstart : KeptModes p.table (Parser.statesOf (Parser.start (Stream.ofText text) : Parser.Run Piece).stack) :=
    .singleton _
  exact mode_step hreads (leads_kept hreads hstart hleads) hstep

theorem read_literal_comment : ∃ n, read "constant c: u8 = \"a //\\t\\xE9\"" = .ok n ∧
    n.unplaced = (constantUnit "c" byteType (.string "a //\té" none .nowhere)).node.unplaced := by
  have hliteral : Literal "a //\té".toList "a //\\t\\xE9".toList :=
    .plain (by decide) (.plain (by decide) (.plain (by decide) (.plain (by decide)
      (.escaped (.named (by decide)) (.escaped (@Escaped.numbered 'E' '9' 14 9 rfl rfl) .nil)))))
  exact (read_literal hliteral).1

/-! ## 5. What is left on the way -/

section Texts

variable {p : Parser} (hp : parser = .ok p) (hreads : Reads p) {run next last : Parser.Run Piece}
include hp hreads

/-- What a step leaves of the text.  It takes something, if it has to look for a token and there is one. -/
theorem running_text (hlined : run.stream.cursor.Lined)
    (hstep : Parser.step comments lexer p defaultMode builder run () = .running next ()) :
    next.stream.cursor.Lined ∧ ∃ front, run.stream.cursor.text = front ++ next.stream.cursor.text ∧
      (run.lookahead = none → front = [] → run.stream.cursor.text = []) := by
  have hfree := hreads.lookaheadFree? (Parser.topState run.stack)
  have htook : ∀ {token : Token} {stream : Stream},
      lexer.next (p.modeOver defaultMode run.stack) run.stream = .ok (token, stream) →
      stream.cursor.Lined ∧ ∃ front, run.stream.cursor.text = front ++ stream.cursor.text ∧
        (run.lookahead = none → front = [] → run.stream.cursor.text = []) := by
    intro token stream hnext
    refine ⟨Lexer.lined_next hnext hlined, ?_⟩
    rcases Lexer.next_cases hnext with ⟨hend, -, rfl⟩ | ⟨_, _, front, _, _, -, -, hchooses, htook⟩
    · exact ⟨[], rfl, fun _ _ => by rw [Cursor.text, hend]; rfl⟩
    · exact ⟨front, htook.text_eq, fun _ hnil => absurd hnil hchooses.ne_nil⟩
  rcases Parser.step_cases hfree () with ⟨token, stream, new, hsees⟩ |
    ⟨stream, hlook, hskips⟩ | ⟨e, _, _, hfails⟩
  · rw [Parser.step_sees hsees] at hstep
    obtain ⟨action, -, hperform⟩ := Parser.consult_running (action?_empty hreads) hstep
    rw [show next.stream = stream from Parser.perform_running_stream hperform]
    cases hsees with
    | held hlook => exact ⟨hlined, [], rfl, fun hnone => by rw [hnone] at hlook; cases hlook⟩
    | read _ _ hnext _ => exact htook hnext
  · rw [hskips.step hlook hfree] at hstep
    obtain ⟨rfl, -⟩ := Parser.Progress.running.inj hstep
    rcases skips_cases hp hreads hlined hskips with ⟨token, hnext, -⟩ | ⟨-, inside, htext, hclosing, hlined'⟩
    · exact htook hnext
    · obtain ⟨front, hinside, -⟩ := closing_append hclosing
      exact ⟨hlined', '/' :: '*' :: front, by rw [htext, hinside]; rfl, fun _ hnil => by cases hnil⟩
  · cases hstep.symm.trans hfails

/-- What a run leaves of the text is a rest of it. -/
theorem leads_text (hlined : run.stream.cursor.Lined) {state lastState : Unit}
    (hleads : Parser.Leads comments lexer p defaultMode builder run state last lastState) :
    last.stream.cursor.Lined ∧ ∃ front, run.stream.cursor.text = front ++ last.stream.cursor.text := by
  induction hleads with
  | refl run => exact ⟨hlined, [], rfl⟩
  | go hstep _ ih =>
    obtain ⟨hlined', front, htext, -⟩ := running_text hp hreads hlined hstep
    obtain ⟨hlast, front', htext'⟩ := ih hlined'
    exact ⟨hlast, front ++ front', by rw [htext, htext', List.append_assoc]⟩

/-- Where the parser reads ordinary text next, it has not just read text of a literal. -/
theorem not_within {state lastState : Unit}
    (hleads : Parser.Leads comments lexer p defaultMode builder run state last lastState) (hlook : last.lookahead = none) (hmode : p.modeOver defaultMode last.stack = defaultMode)
    (hkept : KeptModes p.table (Parser.statesOf run.stack)) (hlined : run.stream.cursor.Lined)
    (htext : run.stream.cursor.text = last.stream.cursor.text) (hrest : last.stream.cursor.text ≠ []) :
    ¬ Within p.table run := by
  induction hleads with
  | refl run =>
    intro hwithin
    rw [modeOver_eq hreads hkept, hwithin.1] at hmode
    exact absurd hmode (by decide)
  | @go run next last _ _ _ hstep hleads ih =>
    intro hwithin
    obtain ⟨hlined', front, hfront, htakes⟩ := running_text hp hreads hlined hstep
    obtain ⟨-, front', hfront'⟩ := leads_text hp hreads hlined' hleads
    -- nothing is left to be taken
    obtain ⟨rfl, rfl⟩ : front = [] ∧ front' = [] := by
      rw [htext, hfront', ← List.append_assoc] at hfront
      exact List.append_eq_nil_iff.mp (List.append_left_eq_self.mp hfront.symm)
    cases hlooks : run.lookahead with
    | none => exact hrest (htext.symm.trans (htakes hlooks rfl))
    | some token =>
      have hsees : Parser.Sees lexer p defaultMode run (some token) run.stream [] := .held hlooks
      have hconsult := (Parser.step_sees hsees).symm.trans hstep
      obtain ⟨action, haction, hperform⟩ := Parser.consult_running (action?_empty hreads) hconsult
      exact ih hlook hmode (kept_step hreads hkept hstep) hlined' hfront' hrest
        (within_perform hreads (hwithin.2 token hlooks) haction hperform)

end Texts

/-! ## 6. In front of the gap -/

/-- What is left in the streams differs by a comment, which stands in front of the end of the text. -/
structure Gap (comment after : List Char) (s s' : Stream) : Prop where
  lined : s.cursor.Lined
  lined' : s'.cursor.Lined
  text : ∃ front, s.cursor.text = front ++ after ∧ s'.cursor.text = front ++ (comment ++ after)

/-- The tokens in front of the gap are read with the comment as well. -/
theorem Gap.next {inside after gap : List Char} {s s' left : Stream} {token : Token} {mode : String}
    (h : Gap ('/' :: '*' :: inside) after s s') (hmode : mode = defaultMode ∨ mode = stringMode)
    (hnext : lexer.next mode s = .ok (token, left)) (hvalid : token.kind ≠ .kind "invalid")
    (hopens : Opens after) (hleft : left.cursor.text = gap ++ after)
    (hseam : gap = [] → token.kind ≠ .kind "STRING_TEXT") :
    ∃ token' left', lexer.next mode s' = .ok (token', left') ∧ token.Alike token' ∧
      Gap ('/' :: '*' :: inside) after left left' := by
  have hafter : after ≠ [] := by
    obtain ⟨c, hc, -⟩ := hopens
    rintro rfl
    cases hc
  obtain ⟨front, htext, hothers⟩ := next_seam hmode h.lined hnext hvalid hafter hleft fun hgap =>
    ⟨hseam hgap, hopens⟩
  obtain ⟨before, hbefore, hbefore'⟩ := h.text
  obtain rfl : before = front ++ gap := by
    rw [hbefore, ← List.append_assoc] at htext
    exact List.append_cancel_right htext
  obtain ⟨token', left', hnext', halike, hlined', hleft'⟩ := hothers ('*' :: inside ++ after) s' h.lined'
    (by rw [hbefore', List.append_assoc]; rfl)
  exact ⟨token', left', hnext', halike, Lexer.lined_next hnext h.lined, hlined', gap, hleft, hleft'⟩

section Front

variable {p : Parser} (hp : parser = .ok p) (hreads : Reads p) {run run' next last : Parser.Run Piece}
  {inside after : List Char}
include hp hreads

/-- On the way to the gap the parser reads the same with the comment as without it. -/
theorem follows_gap (hopens : Opens after)
    (hkept : KeptModes p.table (Parser.statesOf run.stack))
    (hstep : Parser.step comments lexer p defaultMode builder run () = .running next ())
    (hleads : Parser.Leads comments lexer p defaultMode builder next () last ())
    (hlast : last.lookahead = none) (hmode : p.modeOver defaultMode last.stack = defaultMode)
    (hafter : last.stream.cursor.text = after)
    (h : run.Alike SamePiece (Gap ('/' :: '*' :: inside) after) run') (hlook : run.lookahead = none) :
    Parser.Follows lexer comments p defaultMode (Gap ('/' :: '*' :: inside) after) run run' := by
  have hfree := hreads.lookaheadFree? (Parser.topState run.stack)
  have hmodes := mode_cases hreads run.stack
  have hsame : p.modeOver defaultMode run.stack = p.modeOver defaultMode run'.stack :=
    Parser.modeOver_alike h.stack
  obtain ⟨hlined, -⟩ := running_text hp hreads h.stream.lined hstep
  obtain ⟨-, gap, hgap⟩ := leads_text hp hreads hlined hleads
  rw [hafter] at hgap
  refine ⟨fun {token stream} hnext htakes => ?_, fun {stream} hskips => ?_⟩
  · have hsees : Parser.Sees lexer p defaultMode run (some token) stream [token] := .read hlook hfree hnext htakes
    have hconsult := (Parser.step_sees hsees).symm.trans hstep
    obtain ⟨action, haction, hperform⟩ := Parser.consult_running (action?_empty hreads) hconsult
    obtain rfl : next.stream = stream := Parser.perform_running_stream hperform
    rw [← hsame]
    refine h.stream.next hmodes hnext (hreads.strings.valid haction) hopens hgap fun hnil hkind => ?_
    have hrest : next.stream.cursor.text = last.stream.cursor.text := by rw [hgap, hnil, hafter]; rfl
    refine not_within hp hreads hleads hlast hmode (kept_step hreads hkept hstep) hlined hrest ?_
      (within_perform hreads hkind haction hperform)
    obtain ⟨c, hc, -⟩ := hopens
    rintro hnil
    rw [← hafter, hnil] at hc
    cases hc
  · rw [hskips.step hlook hfree] at hstep
    obtain ⟨rfl, -⟩ := Parser.Progress.running.inj hstep
    rcases skips_cases hp hreads h.stream.lined hskips with ⟨token, hnext, htakes, hinner⟩ |
      ⟨hdefault, other, htext, hother, hlined'⟩
    · obtain ⟨hvalid, hkind, -⟩ := hidden_next hreads hnext htakes
      obtain ⟨token', left', hnext', halike, hleft⟩ := h.stream.next hmodes hnext hvalid hopens hgap
        fun _ => hkind
      refine ⟨left', .drop (hsame ▸ hnext') ?_ fun name hname => hinner name (halike.channel.trans hname), hleft⟩
      rw [← halike.channel]
      exact htakes
    · -- a comment in front of the gap ends as before
      obtain ⟨front, rfl, hfront⟩ := closing_append hother
      obtain ⟨before, hbefore, hbefore'⟩ := h.stream.text
      have hgap : stream.cursor.text = gap ++ after := hgap
      obtain rfl : before = '/' :: '*' :: front ++ gap := by
        refine List.append_cancel_right (hbefore.symm.trans ?_)
        rw [htext, hgap, List.append_assoc]
        rfl
      obtain ⟨stream', hskips', hlined'', htext'⟩ := skips_comment hp hreads (hsame ▸ hdefault) h.stream.lined'
        (by rw [hbefore', List.append_assoc]; rfl) (hfront (gap ++ ('/' :: '*' :: inside ++ after)))
      exact ⟨stream', hskips', hlined', hlined'', gap, hgap, htext'⟩

end Front

/-! ## 7. Insertions -/

/-- A token from which an accepted text goes on may follow another one. -/
theorem opens_of_ends {p : Parser} (hreads : Reads p) {run : Parser.Run Piece} {token : Token} {left stream : Stream}
    {v : Piece} (hlook : run.lookahead = none) (hmode : p.modeOver defaultMode run.stack = defaultMode)
    (hnext : lexer.next defaultMode run.stream = .ok (token, left)) (hchannel : token.channel = .default)
    (hends : Parser.Ends comments lexer p defaultMode builder run () (.ok v, stream, ())) :
    Opens run.stream.cursor.text := by
  have htakes : p.takes token = true := by rw [Parser.takes, hchannel, hreads.channel]; rfl
  have hsees : Parser.Sees lexer p defaultMode run (some token) left [token] :=
    .read hlook (hreads.lookaheadFree? _) (by rw [hmode]; exact hnext) htakes
  have hvalid : token.kind ≠ .kind "invalid" := by
    cases haction : p.table.action? (Parser.topState run.stack) token.kind with
    | some action => exact hreads.strings.valid haction
    | none =>
      have hstep : Parser.step comments lexer p defaultMode builder run () = _ := Parser.step_sees hsees
      simp only [Parser.consult, haction, action?_empty hreads, Option.or_none] at hstep
      cases hends with
      | stop hstop => cases hstep.symm.trans hstop
      | go hgo _ => cases hstep.symm.trans hgo
  rcases Lexer.next_cases hnext with ⟨-, rfl, -⟩ | ⟨rules, rule, front, back, lines, hrules, hmem, hchooses, htook⟩
  · cases hchannel
  · obtain rfl := Option.some.inj (hrules.symm.trans find?_defaultMode)
    obtain ⟨c, hc, hopens⟩ := opens_of_chooses hmem (htook.channel ▸ hchannel)
      (fun h => hvalid (by rw [htook.kind, h])) hchooses
    refine ⟨c, ?_, hopens⟩
    rw [Cursor.text, htook.unread, List.flatten_cons]
    exact List.mem_head?_append_of_mem_head? hc

/-- Reading the text, the parser comes to take a token outside of string literals; this is what is left of
the text in front of the token. -/
def TakesBefore (text : String) (rest : List Char) : Prop :=
  ∃ p run token left, parser = .ok p ∧
    Parser.Leads comments lexer p defaultMode builder (Parser.start (.ofText text)) () run () ∧
    run.lookahead = none ∧ p.modeOver defaultMode run.stack = defaultMode ∧ run.stream.cursor.text = rest ∧
    lexer.next defaultMode run.stream = .ok (token, left) ∧ token.channel = .default

/-- **Block comments are invisible**: in front of every token that the parser takes outside of string
literals, a block comment may be put in, and the text is read as the same tree up to places. -/
theorem comment_invisible {before after comment : String} {n : Node} (hread : read (before ++ after) = .ok n)
    (htakes : TakesBefore (before ++ after) after.toList) (hcomment : IsComment comment.toList) :
    ∃ m, read (before ++ comment ++ after) = .ok m ∧ m.unplaced = n.unplaced := by
  obtain ⟨p, last, token, left, hp, hleads, hlook, hmode, hafter, hnext, hchannel⟩ := htakes
  obtain ⟨p', hp', hreads⟩ := exists_reads
  obtain rfl : p = p' := Except.ok.inj (hp.symm.trans hp')
  obtain ⟨inside, hinside, hclosing⟩ := hcomment
  have hlined := (Stream.lined_ofText (before ++ after)).1
  have hfree := hreads.lookaheadFree?
  -- the text is read up to the gap, and from there to its end
  have hends := ends_parse hp (before ++ after)
  generalize hparse : p.parse lexer (stepBudget (before ++ after)) defaultMode builder
    (.ofText (before ++ after)) () = out at hends
  obtain ⟨result, stream, _⟩ := out
  obtain rfl : result = .ok (.node n) := by
    have hresult := (read_eq_ok_iff hp).mp hread
    rw [hparse] at hresult
    exact hresult
  have hrest := hleads.ends_iff.mp hends
  have hopens : Opens after.toList := hafter ▸ opens_of_ends hreads hlook hmode hnext hchannel hrest
  have hkept : KeptModes p.table (Parser.statesOf (Parser.start (.ofText (before ++ after)) : Parser.Run Piece).stack) :=
    List.isChain_singleton _
  have hstart : Parser.Run.Alike SamePiece (Gap ('/' :: '*' :: inside) after.toList)
      (Parser.start (.ofText (before ++ after))) (Parser.start (.ofText (before ++ comment ++ after))) := by
    refine ⟨.nil, nofun, fun _ => rfl, ⟨hlined, (Stream.lined_ofText _).1, before.toList, ?_, ?_⟩, nofun, nofun⟩
    · exact (Stream.lined_ofText _).2.trans (by simp)
    · exact (Stream.lined_ofText _).2.trans (by simp [hinside])
  obtain ⟨last', hleads', hlast⟩ := Parser.Leads.alike congruent_builder hfree
    (fun hbefore hstep hbehind halike hnone => follows_gap hp hreads hopens (leads_kept hreads hkept hbefore) hstep
      hbehind hlook hmode hafter halike hnone) (.refl _ _) hleads hstart
  -- at the gap it passes over the comment
  have htext : last'.stream.cursor.text = '/' :: '*' :: (inside ++ after.toList) := by
    obtain ⟨front, hfront, hfront'⟩ := hlast.stream.text
    obtain rfl : front = [] := List.append_left_eq_self.mp (hfront.symm.trans hafter)
    exact hfront'
  obtain ⟨front, rfl, hfront⟩ := closing_append hclosing
  rw [List.append_nil] at htext
  have hmode' : p.modeOver defaultMode last'.stack = defaultMode :=
    (Parser.modeOver_alike hlast.stack).symm.trans hmode
  obtain ⟨stream', hskips, hlined', hrest'⟩ := skips_comment hp hreads hmode' hlast.stream.lined' htext
    (hfront after.toList)
  -- and behind the comment everything is as before
  have halike : last.Alike SamePiece SameRest ⟨last'.stack, none, last'.previous, stream'⟩ :=
    ⟨hlast.stack, by simp [hlook], fun _ => rfl, ⟨hlast.stream.lined, hlined', hafter.trans hrest'.symm⟩,
      hlast.last, nofun⟩
  obtain ⟨v, after', hends', hsame⟩ := Parser.Ends.alike congruent_builder hfree
    (fun halike _ => follows_same hp hreads halike) halike hrest
  have hparsed := (ends_parse hp (before ++ comment ++ after)).unique (hleads'.ends_iff.mpr
    (.go (hskips.step (hlast.free hlook) (hfree _) ()) hends'))
  obtain ⟨m, rfl, hm⟩ : ∃ m, v = .node m ∧ n.unplaced = m.unplaced := by
    cases v with
    | node m => exact ⟨m, rfl, hsame⟩
    | _ => exact hsame.elim
  exact ⟨m, (read_eq_ok_iff hp).mpr (congrArg Prod.fst hparsed), hm.symm⟩

theorem comment_before_declaration : ∃ m,
    read ("" ++ "/* a\n /* b */ / * c */" ++ "constant c: u8 = 7 - - x * ( 1 + \"two\" )") = .ok m ∧
      m.unplaced = (constantUnit "c" byteType difference).node.unplaced := by
  have hcomment : IsComment "/* a\n /* b */ / * c */".toList := ⟨" a\n /* b */ / * c */".toList, rfl, rfl⟩
  obtain ⟨n, hread, hn⟩ := read_difference
  obtain ⟨p, hp, hreads⟩ := exists_reads
  rw [show "constant c: u8 = 7 - - x * ( 1 + \"two\" )" = "" ++ "constant c: u8 = 7 - - x * ( 1 + \"two\" )" from
    String.empty_append.symm] at hread
  have hfirst : (lexer.next defaultMode (.ofText ("" ++ "constant c: u8 = 7 - - x * ( 1 + \"two\" )"))).toOption.any
      (fun taken => taken.1.channel == .default) = true := by decide +kernel
  obtain ⟨⟨token, left⟩, hnext, hchannel⟩ := exists_of_toOption_any hfirst
  have hmode : p.modeOver defaultMode ([] : List (Parser.Frame Piece)) = defaultMode := by
    have hkept : KeptModes p.table (Parser.statesOf ([] : List (Parser.Frame Piece))) := List.isChain_singleton _
    rw [modeOver_eq hreads hkept, Parser.topState, insideString_start hreads]
    rfl
  obtain ⟨m, hm, hsame⟩ := comment_invisible hread
    ⟨p, _, token, left, hp, .refl _ _, rfl, hmode, (Stream.lined_ofText _).2, hnext, eq_of_beq hchannel⟩ hcomment
  exact ⟨m, hm, hsame.trans hn⟩

end Language

end Lode
