/-
# Tokens tile a text

Whatever lexers read a text, in whatever modes, and even if tokens are taken back in between: the tokens
that were handed out (`Handed`), put together, are the text up to what is unread.  Every token but the end
of the text stands on one line where its span says, and begins where the one before it ended, or with the
next line if that one used its line up (`lexing_lossless`).

A run may change its lexer from step to step, and nothing is asked of the rules.  Which patterns there are
does not matter either: any characters at the front of the line are what some lexer takes
(`Handed.produce`).

A cursor is a line and a column, and it jumps to the next line as soon as a line is used up, whether it ends
with a line break or not.  What steps preserve is therefore said about the lines of the text, not about its
characters: the cursor cuts one of them in two, or stands behind them all (`Cursor.Stands`).  For the same
reason a cursor is determined by its position (`Cursor.Stands.eq_of_position`), which is what makes taking a
token back restore the stream.

The invariant of a run (`Tiled`) has three parts: where the cursor stands, where the next token will begin,
and how every token so far goes on after those before it.  One step keeps it (`Tiled.next`), and taking back
the last token leads to what held before that token was handed out, so a run remembers one step
(`Handed.tiled`).
-/
import Lode.Proofs.Lexing
import Lode.Proofs.Parser.Steps
import Lode.Proofs.Regex.Matching

namespace Lode

/-! ## 1. Lines of a text -/

/-- Lines of a text: every one but the last ends with its only line break, and the last one may. -/
inductive Lines : List (List Char) → Prop
  | none : Lines []
  | open {line : List Char} : '\n' ∉ line → line ≠ [] → Lines [line]
  | closed {line : List Char} {lines : List (List Char)} : '\n' ∉ line → Lines lines →
      Lines ((line ++ ['\n']) :: lines)

/-- The lines of a text end with line breaks, but for the last one. -/
theorem lines_splitLines (text : List Char) : Lines (splitLines text) := by
  induction text with
  | nil => exact .none
  | cons c text ih =>
    by_cases hc : c = '\n'
    · rw [hc, splitLines_newline]
      exact @Lines.closed [] _ List.not_mem_nil ih
    · rw [splitLines_cons hc]
      have hnot : ∀ {line : List Char}, '\n' ∉ line → '\n' ∉ c :: line := by
        intro line hline hmem
        rcases List.mem_cons.mp hmem with h | h
        · exact hc h.symm
        · exact hline h
      generalize splitLines text = lines at ih
      cases ih with
      | none => exact .open (hnot List.not_mem_nil) (List.cons_ne_nil c [])
      | «open» hline _ => exact .open (hnot hline) (List.cons_ne_nil _ _)
      | closed hline hlines => exact .closed (hnot hline) hlines

/-- The last lines of a text are lines. -/
theorem Lines.of_append {before lines : List (List Char)} (h : Lines (before ++ lines)) : Lines lines := by
  induction before with
  | nil => exact h
  | cons line before ih =>
    rw [List.cons_append] at h
    generalize hrest : before ++ lines = rest at h ih
    cases h with
    | «open» _ _ =>
      obtain ⟨-, rfl⟩ := List.append_eq_nil_iff.mp hrest
      exact .none
    | closed _ h => exact ih h

/-- Some characters at the end of a line end with a line break if there are more lines. -/
theorem Lines.getLast?_of_ne_nil {before behind : List (List Char)} {front chars : List Char}
    (h : Lines (before ++ (front ++ chars) :: behind)) (hchars : chars ≠ []) (hbehind : behind ≠ []) :
    chars.getLast? = some '\n' := by
  have hlines := h.of_append
  generalize hline : front ++ chars = line at hlines
  cases hlines with
  | «open» _ _ => exact absurd rfl hbehind
  | closed _ _ => rw [← List.getLast?_append_of_ne_nil front hchars, hline, List.getLast?_concat]

/-- Some characters of a line do not end with a line break if they are not at its end. -/
theorem Lines.getLast?_ne {before behind : List (List Char)} {front chars back : List Char}
    (h : Lines (before ++ (front ++ chars ++ back) :: behind)) (hback : back ≠ []) :
    chars.getLast? ≠ some '\n' := by
  intro hlast
  obtain ⟨chars, rfl⟩ := List.getLast?_eq_some_iff.mp hlast
  have hlines := h.of_append
  generalize hline : front ++ (chars ++ ['\n']) ++ back = line at hlines
  cases hlines with
  | «open» hnot _ => exact hnot (by simp [← hline])
  | closed hnot _ =>
    obtain ⟨back, last, rfl⟩ := (List.eq_nil_or_concat' back).resolve_left hback
    rw [← List.append_assoc] at hline
    exact hnot (by simp [← (List.append_inj' hline rfl).1])

theorem Lines.ne_nil {lines : List (List Char)} (h : Lines lines) : ∀ line ∈ lines, line ≠ [] := by
  induction h with
  | none => exact nofun
  | «open» _ hne => exact List.forall_mem_singleton.mpr hne
  | closed _ _ ih => exact List.forall_mem_cons.mpr ⟨by simp, ih⟩

/-! ## 2. Where a cursor stands -/

/-- Where a cursor stands in some lines, and what was read of them: it cuts a line in two, or stands behind
them all. -/
inductive Cursor.Stands (lines : List (List Char)) : List Char → Cursor → Prop
  | within {before behind : List (List Char)} {front back : List Char} : back ≠ [] →
      lines = before ++ (front ++ back) :: behind →
      Stands lines (before.flatten ++ front) ⟨⟨before.length + 1, byteLength front⟩, back :: behind⟩
  | behind : Stands lines lines.flatten ⟨⟨lines.length + 1, 0⟩, []⟩

section Stands

variable {lines : List (List Char)} {read : List Char} {c : Cursor}

theorem Cursor.Stands.text_eq (h : c.Stands lines read) : read ++ c.text = lines.flatten := by
  cases h with
  | within _ hlines => simp [hlines, Cursor.text]
  | behind => simp [Cursor.text]

/-- Between two lines. -/
theorem Cursor.stands_between (hne : ∀ line ∈ lines, line ≠ []) {before behind : List (List Char)}
    (hlines : lines = before ++ behind) :
    Stands lines before.flatten ⟨⟨before.length + 1, 0⟩, behind⟩ := by
  cases behind with
  | nil =>
    obtain rfl := hlines.trans (List.append_nil before)
    exact .behind
  | cons line behind =>
    have h := @Stands.within lines before behind [] line (hne line (by simp [hlines])) hlines
    rwa [List.append_nil] at h

/-- A cursor is its position. -/
theorem Cursor.Stands.eq_of_position (h : c.Stands lines read) {c' : Cursor} {read' : List Char}
    (h' : c'.Stands lines read') (hposition : c'.position = c.position) : c' = c := by
  cases h with
  | @within before behind front back hback hlines =>
    cases h' with
    | @within before' behind' front' back' hback' hlines' =>
      simp only [Position.mk.injEq, Nat.add_right_cancel_iff] at hposition
      obtain ⟨hlength, hcol⟩ := hposition
      obtain ⟨rfl, hrest⟩ := List.append_inj (hlines'.symm.trans hlines) hlength
      obtain ⟨hline, rfl⟩ := List.cons.inj hrest
      obtain ⟨rfl, rfl⟩ := append_inj_byteLength hline hcol
      rfl
    | behind => simp [hlines] at hposition
  | behind =>
    cases h' with
    | within _ hlines => simp [hlines] at hposition
    | behind => rfl

end Stands

/-! ## 3. Runs -/

/-- The tokens that were handed out from a text, by any lexers in any modes, and the stream after them.  The
last one may be taken back. -/
inductive Handed (text : String) : List Token → Stream → Prop
  | start : Handed text [] (Stream.ofText text)
  | next {lexer : Lexer} {mode : String} {tokens : List Token} {token : Token} {s s' : Stream} :
      Handed text tokens s → lexer.next mode s = .ok (token, s') → Handed text (tokens ++ [token]) s'
  | back {tokens : List Token} {token : Token} {s s' : Stream} :
      Handed text (tokens ++ [token]) s → s.rewind? token = some s' → Handed text tokens s'

/-- **Any front of the line may be next.**  If some characters are taken off the front of the unread line, then
this is a step of a run: a lexer whose only rule is that text takes them.  So runs of lexers with patterns of
other kinds are runs as well, since all that a pattern decides is how many characters are taken. -/
theorem Handed.produce {text : String} {tokens : List Token} {token : Token} {s s' : Stream}
    (h : Handed text tokens s) {kind : String} {length : Nat} {channel : Channel} (hpos : 0 < length)
    (hproduce : s.produce? (.kind kind) length channel = some (token, s')) :
    Handed text (tokens ++ [token]) s' := by
  obtain ⟨line, lines, hunread⟩ : ∃ line lines, s.cursor.unread = line :: lines := by
    refine List.exists_cons_of_ne_nil fun hnil => ?_
    rw [Stream.produce?, hnil] at hproduce
    cases hproduce
  obtain ⟨front, back, rfl, rfl⟩ : ∃ front back, line = front ++ back ∧ byteLength front = length := by
    simp only [Stream.produce?, hunread] at hproduce
    obtain ⟨⟨front, back⟩, hcut, -⟩ := Option.map_eq_some_iff.mp hproduce
    exact ⟨front, back, eq_append_of_splitBytes hcut⟩
  have hfront : front ≠ [] := by
    rintro rfl
    exact absurd hpos (Nat.lt_irrefl 0)
  have hmatch : (Regex.literal (String.ofList front)).matchLength? (front ++ back) = some (byteLength front) := by
    have hliteral := @Regex.matchLength?_literal (String.ofList front)
    rw [String.toList_ofList] at hliteral
    exact hliteral hfront back
  have hchooses : Lexer.Chooses [⟨.literal (String.ofList front), kind, channel⟩] front back _ :=
    ⟨hfront, Lexer.choose?_here hmatch hpos []⟩
  have hnext : (⟨[("line", [⟨.literal (String.ofList front), kind, channel⟩])]⟩ : Lexer).next "line" s =
      .ok (token, s') := Lexer.next_of_chooses hunread rfl hchooses hproduce
  exact .next h hnext

/-- Tokens put together. -/
def spelled (tokens : List Token) : List Char := tokens.flatMap (·.text.toList)

/-- Where the next token begins: with the next line if a token ends its line with a line break. -/
def Token.next (t : Token) : Position :=
  if t.text.toList.getLast? = some '\n' then ⟨t.span.stop.line + 1, 0⟩ else t.span.stop

/-- Where the token after some tokens begins. -/
def beginning (tokens : List Token) : Position := (tokens.getLast?.map Token.next).getD ⟨1, 0⟩

/-- A span covers some characters of one line, after those that were read. -/
def Span.Covers (span : Span) (lines : List (List Char)) (read chars : List Char) : Prop :=
  ∃ before behind front back, lines = before ++ (front ++ chars ++ back) :: behind ∧
    read = before.flatten ++ front ∧ span = ⟨⟨before.length + 1, byteLength front⟩,
      ⟨before.length + 1, byteLength front + byteLength chars⟩⟩

/-- How a token goes on after others. -/
structure Token.Continues (text : List Char) (before : List Token) (t : Token) : Prop where
  /-- It begins where the last one ended. -/
  starts : t.span.start = beginning before
  /-- It is some characters of a line, those that stand under its span. -/
  chars : t.kind ≠ .eof → t.text ≠ "" ∧ t.span.Covers (splitLines text) (spelled before) t.text.toList
  /-- Or it is the end of the text, behind everything. -/
  finish : t.kind = .eof → t.text = "" ∧ t.span = .point (Stream.endOfLines (splitLines text)) ∧
    spelled before = text

/-- What holds of the tokens and the cursor after them: the cursor stands behind the tokens, it knows where
the next token begins, and every token goes on after those before it. -/
structure Tiled (text : List Char) (tokens : List Token) (c : Cursor) : Prop where
  stands : c.Stands (splitLines text) (spelled tokens)
  beginning_eq : beginning tokens = if c.unread = [] then Stream.endOfLines (splitLines text) else c.position
  continues : ∀ {before : List Token} {token : Token} {rest : List Token}, tokens = before ++ token :: rest →
    token.Continues text before

theorem spelled_concat (tokens : List Token) (token : Token) :
    spelled (tokens ++ [token]) = spelled tokens ++ token.text.toList := by
  simp [spelled]

theorem beginning_concat (tokens : List Token) (token : Token) :
    beginning (tokens ++ [token]) = token.next := by
  simp [beginning]

/-- What holds of every token of a list and those before it. -/
theorem forall_split_concat {P : List Token → Token → Prop} {tokens : List Token} {last : Token}
    (h : ∀ {before : List Token} {token : Token} {rest : List Token}, tokens = before ++ token :: rest →
      P before token) (hlast : P tokens last) {before : List Token} {token : Token} {rest : List Token}
    (hsplit : tokens ++ [last] = before ++ token :: rest) : P before token := by
  rcases List.eq_nil_or_concat' rest with rfl | ⟨rest, other, rfl⟩
  · obtain ⟨rfl, hsame⟩ := List.append_inj' hsplit rfl
    obtain rfl := List.head_eq_of_cons_eq hsame
    exact hlast
  · rw [← List.cons_append, ← List.append_assoc] at hsplit
    exact h (List.append_inj' hsplit rfl).1

section Steps

variable {text : String} {tokens : List Token} {token : Token} {s s' : Stream}

/-- Before the first token nothing was read. -/
theorem tiled_ofText (text : String) : Tiled text.toList [] (Stream.ofText text).cursor := by
  obtain ⟨hlined, htext⟩ := Stream.lined_ofText text
  rw [Cursor.Lined, htext] at hlined
  have hcursor : (Stream.ofText text).cursor = ⟨⟨1, 0⟩, splitLines text.toList⟩ := by
    rw [hlined]
    rfl
  rw [hcursor]
  have hsplit : splitLines text.toList = [] ++ splitLines text.toList := rfl
  refine ⟨Cursor.stands_between (lines_splitLines _).ne_nil hsplit, ?_, by simp⟩
  dsimp only
  split
  · rename_i hnil
    rw [hnil]
    rfl
  · rfl

/-- The position at the end of some lines. -/
theorem Stream.endOfLines_concat (before : List (List Char)) (line : List Char) :
    endOfLines (before ++ [line]) = if line.getLast? = some '\n' then ⟨before.length + 2, 0⟩
      else ⟨before.length + 1, byteLength line⟩ := by
  rw [endOfLines, List.getLast?_concat, List.length_append, List.length_singleton]
  by_cases h : line.getLast? = some '\n'
  · simp [h]
  · simp [h]

/-- What a rule takes stands under the span of its token, and the cursor moves behind it. -/
theorem Lexer.Took.moves {lines behind : List (List Char)} {read front back : List Char} {rule : LexRule}
    (htook : Took s front back behind rule token s') (hfront : front ≠ []) (hlines : Lines lines)
    (h : s.cursor.Stands lines read) :
    token.span.Covers lines read front ∧ s'.cursor.Stands lines (read ++ front) ∧
      token.next = if s'.cursor.unread = [] then Stream.endOfLines lines else s'.cursor.position := by
  obtain ⟨hunread, -, htext, -, hspan, hleft, hposition, -⟩ := htook
  generalize s.cursor = c at h hunread hspan hposition
  cases h with
  | behind => cases hunread
  | @within before behind start rest _ heq =>
    obtain ⟨rfl, rfl⟩ := List.cons.inj hunread
    have hnext : token.next = if front.getLast? = some '\n' then ⟨before.length + 2, 0⟩
        else ⟨before.length + 1, byteLength (start ++ front)⟩ := by
      rw [Token.next, htext, String.toList_ofList, hspan, byteLength_append]
    refine ⟨⟨before, behind, start, back, by rwa [List.append_assoc], rfl, hspan⟩, ?_⟩
    rw [← List.append_assoc] at heq
    rcases hcursor : s'.cursor with ⟨position, unread⟩
    rw [hcursor, hspan] at hposition
    rw [hcursor] at hleft
    dsimp only at hposition hleft
    cases back with
    | nil =>
      -- The line is used up: the cursor jumps to the next one, and if there is none, behind the text.
      obtain rfl : position = ⟨before.length + 2, 0⟩ := hposition
      obtain rfl : unread = behind := hleft
      rw [List.append_nil] at heq
      refine ⟨?_, ?_⟩
      · have hsplit : lines = (before ++ [start ++ front]) ++ unread := by simp [heq]
        simpa using Cursor.stands_between hlines.ne_nil hsplit
      · rw [hnext]
        by_cases hbehind : unread = []
        · subst hbehind
          rw [if_pos rfl, heq, Stream.endOfLines_concat, List.getLast?_append_of_ne_nil _ hfront]
        · rw [if_neg hbehind, if_pos ((heq ▸ hlines).getLast?_of_ne_nil hfront hbehind)]
    | cons first back =>
      -- The cursor stays in the line, so what was taken does not hold its line break.
      obtain rfl : position = ⟨before.length + 1, byteLength start + byteLength front⟩ := hposition
      obtain rfl : unread = (first :: back) :: behind := hleft
      refine ⟨?_, ?_⟩
      · have hstands := Cursor.Stands.within (List.cons_ne_nil first back) heq
        rwa [byteLength_append, ← List.append_assoc] at hstands
      · rw [hnext, if_neg ((heq ▸ hlines).getLast?_ne (List.cons_ne_nil first back)),
          if_neg (List.cons_ne_nil _ _), byteLength_append]

/-- **One step**: whatever is handed out goes on after the tokens before it. -/
theorem Tiled.next {lexer : Lexer} {mode : String} (h : Tiled text.toList tokens s.cursor)
    (hfinish : s.finish = Stream.endOfLines (splitLines text.toList))
    (hnext : lexer.next mode s = .ok (token, s')) :
    Tiled text.toList (tokens ++ [token]) s'.cursor ∧ s'.finish = s.finish := by
  rcases Lexer.next_cases hnext with ⟨hend, rfl, rfl⟩ | ⟨_, _, front, back, behind, -, -, hchooses, htook⟩
  · have hbeginning := h.beginning_eq
    rw [if_pos hend, ← hfinish] at hbeginning
    have hspelled : spelled tokens = text.toList := by
      have htext := h.stands.text_eq
      rwa [(flatten_splitLines text.toList).1, Cursor.text, hend, List.flatten_nil, List.append_nil] at htext
    refine ⟨⟨?_, ?_, forall_split_concat h.continues ?_⟩, rfl⟩
    · have hstands := h.stands
      rwa [spelled_concat, show s.produceEof.1.text.toList = [] from rfl, List.append_nil]
    · rw [beginning_concat, show s.produceEof.2.cursor = s.cursor from rfl, if_pos hend, ← hfinish]
      rfl
    · exact ⟨hbeginning.symm, fun h => absurd rfl h, fun _ => ⟨rfl, congrArg Span.point hfinish, hspelled⟩⟩
  · have hlines := lines_splitLines text.toList
    obtain ⟨hcovers, hstands, hbeginning⟩ := htook.moves hchooses.ne_nil hlines h.stands
    have htext : token.text.toList = front := by rw [htook.text, String.toList_ofList]
    have hunread : s.cursor.unread ≠ [] := by
      rw [htook.unread]
      exact List.cons_ne_nil _ _
    refine ⟨⟨?_, ?_, forall_split_concat h.continues ⟨?_, fun _ => ⟨?_, ?_⟩, fun h => ?_⟩⟩, htook.finish⟩
    · rwa [spelled_concat, htext]
    · rwa [beginning_concat]
    · rw [htook.span, h.beginning_eq, if_neg hunread]
    · rw [htook.text]
      simpa using hchooses.ne_nil
    · rwa [htext]
    · cases htook.kind.symm.trans h

/-- **A run**: the tokens tile the text, and the cursor before the last one is remembered. -/
theorem Handed.tiled (h : Handed text tokens s) :
    Tiled text.toList tokens s.cursor ∧ s.finish = Stream.endOfLines (splitLines text.toList) ∧
      ∀ {span : Span} {c : Cursor}, s.last = some (span, c) →
        ∃ before token, tokens = before ++ [token] ∧ Tiled text.toList before c := by
  induction h with
  | start =>
    obtain ⟨hlined, htext⟩ := Stream.lined_ofText text
    refine ⟨tiled_ofText text, ?_, nofun⟩
    rw [← htext, hlined]
    rfl
  | next _ hnext ih =>
    obtain ⟨htiled, hfinish, -⟩ := ih
    obtain ⟨htiled', hfinish'⟩ := htiled.next hfinish hnext
    refine ⟨htiled', hfinish'.trans hfinish, fun hlast => ?_⟩
    obtain ⟨-, rfl⟩ := Prod.mk.inj (Option.some.inj (hlast.symm.trans (Lexer.last_next hnext)))
    exact ⟨_, _, rfl, htiled⟩
  | @back tokens token s s' _ hback ih =>
    obtain ⟨-, hfinish, hbefore⟩ := ih
    unfold Stream.rewind? at hback
    split at hback
    · rename_i span c hlast
      split at hback
      · obtain rfl := Option.some.inj hback
        obtain ⟨before, last, hsplit, htiled⟩ := hbefore hlast
        obtain ⟨rfl, -⟩ := List.append_inj' hsplit rfl
        exact ⟨htiled, hfinish, nofun⟩
      · cases hback
    · cases hback

/-- There are no more tokens than bytes. -/
theorem length_filter_le_spelled (h : ∀ token ∈ tokens, token.kind ≠ .eof → token.text ≠ "") :
    (tokens.filter (·.kind ≠ .eof)).length ≤ byteLength (spelled tokens) := by
  induction tokens with
  | nil => exact Nat.le_refl 0
  | cons token tokens ih =>
    obtain ⟨hhere, hrest⟩ := List.forall_mem_cons.mp h
    have hspelled : spelled (token :: tokens) = token.text.toList ++ spelled tokens := rfl
    rw [hspelled, byteLength_append, List.filter_cons]
    split
    · rename_i hkind
      have hpos := byteLength_pos (mt String.toList_eq_nil_iff.mp (hhere (of_decide_eq_true hkind)))
      rw [List.length_cons, Nat.add_comm]
      exact Nat.add_le_add hpos (ih hrest)
    · exact Nat.le_trans (ih hrest) (Nat.le_add_left _ _)

end Steps

/-- **Nothing is lost.**  The tokens that were handed out and the unread text are the text.  Every token goes
on after those before it: unless it is the end of the text it is not empty, stands on a line under its span,
and begins where the one before it ended; and the end of the text is handed out behind the whole text.  Before
it there are no more tokens than bytes.  A token that is handed out next can be taken back, which restores the
stream: the cursor stands where the token begins, and there is only one that stands there. -/
theorem lexing_lossless {text : String} {tokens : List Token} {s : Stream} (h : Handed text tokens s) :
    spelled tokens ++ s.cursor.text = text.toList ∧
    (∀ {before : List Token} {token : Token} {rest : List Token}, tokens = before ++ token :: rest →
      token.Continues text.toList before) ∧
    (tokens.filter (·.kind ≠ .eof)).length ≤ byteLength text.toList ∧
    (∀ {lexer : Lexer} {mode : String} {token : Token} {s' : Stream}, lexer.next mode s = .ok (token, s') →
      s'.rewind? token = some { s with last := none } ∧
      (token.kind ≠ .eof → token.span.start = s.cursor.position)) ∧
    ∀ {tokens' : List Token} {s' : Stream}, Handed text tokens' s' →
      s'.cursor.position = s.cursor.position → s'.cursor = s.cursor := by
  obtain ⟨htiled, hfinish, -⟩ := h.tiled
  have htext := htiled.stands.text_eq
  rw [(flatten_splitLines text.toList).1] at htext
  refine ⟨htext, htiled.continues, ?_, fun hnext => ?_, fun h' hposition => ?_⟩
  · have hle := @length_filter_le_spelled tokens fun token hmem hkind => by
      obtain ⟨before, rest, hsplit⟩ := List.append_of_mem hmem
      exact ((htiled.continues hsplit).chars hkind).1
    rw [← htext, byteLength_append]
    exact Nat.le_trans hle (Nat.le_add_right _ _)
  · obtain ⟨-, hsame⟩ := htiled.next hfinish hnext
    refine ⟨by rw [Stream.rewind?_eq (Lexer.last_next hnext), hsame], fun hkind => ?_⟩
    rcases Lexer.next_cases hnext with ⟨-, rfl, -⟩ | ⟨_, _, _, _, _, -, -, -, htook⟩
    · exact absurd rfl hkind
    · rw [htook.span]
  · obtain ⟨htiled', -, -⟩ := h'.tiled
    exact htiled.stands.eq_of_position htiled'.stands hposition

/-- A lexer that takes lines apart from their breaks. -/
def lineLexer : Lexer :=
  ⟨[("line", [⟨.rounds (.one (.noneOf ['\n'])) true, "text", .default⟩,
    ⟨.one (.single '\n'), "break", .default⟩])]⟩

/-- A line without its break. -/
def lineToken : Token := ⟨.kind "text", "né", .default, ⟨⟨1, 0⟩, ⟨1, 3⟩⟩⟩

/-- The break of that line. -/
def breakToken : Token := ⟨.kind "break", "\n", .default, ⟨⟨1, 3⟩, ⟨1, 4⟩⟩⟩

theorem lexing_lossless_lineLexer : ∃ s, Handed "né\nb" [lineToken, breakToken] s ∧
    spelled [lineToken, breakToken] ++ s.cursor.text = "né\nb".toList ∧
    breakToken.Continues "né\nb".toList [lineToken] ∧ s.cursor.position = ⟨2, 0⟩ := by
  obtain ⟨s1, s2, s3, s4, hline, hbreak, hback, hagain, hposition⟩ : ∃ s1 s2 s3 s4,
      lineLexer.next "line" (.ofText "né\nb") = .ok (lineToken, s1) ∧
      lineLexer.next "line" s1 = .ok (breakToken, s2) ∧ s2.rewind? breakToken = some s3 ∧
      lineLexer.next "line" s3 = .ok (breakToken, s4) ∧ s4.cursor.position = ⟨2, 0⟩ :=
    ⟨_, _, _, _, rfl, rfl, rfl, rfl, rfl⟩
  have hfirst : Handed "né\nb" [lineToken] s1 := .next .start hline
  have hsecond : Handed "né\nb" [lineToken, breakToken] s2 := .next hfirst hbreak
  have hthird : Handed "né\nb" [lineToken] s3 := .back hsecond hback
  have h : Handed "né\nb" [lineToken, breakToken] s4 := .next hthird hagain
  obtain ⟨htext, hcontinues, -⟩ := lexing_lossless h
  have hsplit : [lineToken, breakToken] = [lineToken] ++ breakToken :: [] := rfl
  exact ⟨s4, h, htext, hcontinues hsplit, hposition⟩

end Lode
