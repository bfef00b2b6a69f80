/-
# What a lexer takes from a line

A lexer looks at the current line only, takes one or more characters from its front, and hands them out with
the kind and the channel of a rule; at the end of the text it hands out the end.  `choose?` says which rule
it is and how many bytes it takes, and `Took` what that does to the stream.

The unread text is a list of lines, each with its line break.  Two views of it are needed: as lines, since a
lexer never looks beyond the first one, and as one row of characters, since this is what a text is.  Section
1 goes from one to the other; that the lines of a cursor are always the lines of its characters
(`Cursor.Lined`) is kept by every token.

The length of a match is counted in bytes.  A match ends between two characters (`matchLength?_reads`), so
there is a front of the line with just that many bytes, and from here on a token is spoken of by its
characters.

`next_cases` is what the rest of the library uses: the next token is the end of the text, or what the chosen
rule takes. It takes at least one byte (`size_next`), so no text is read for ever.
-/
import Lode.Proofs.Language.Names
import Mathlib.Algebra.GroupWithZero.Nat

namespace Lode

/-! ## 1. Lines -/

/-- What is left of the text after the front of its first line. -/
def leave (back : List Char) (lines : List (List Char)) : List (List Char) :=
  if back.isEmpty then lines else back :: lines

/-- Puts characters before the first of some lines. -/
def joinFirst (front : List Char) : List (List Char) → List (List Char)
  | [] => leave front []
  | line :: lines => (front ++ line) :: lines

/-- What was read of a line stands before the first line of the rest. -/
theorem splitLinesFrom_eq : ∀ (text current : List Char),
    splitLinesFrom current text = joinFirst current.reverse (splitLines text)
  | [], current => by
    cases current <;> simp [splitLinesFrom, splitLines, joinFirst, leave]
  | c :: text, current => by
    by_cases hc : c = '\n'
    · subst hc
      simp [splitLines, splitLinesFrom, joinFirst]
    · have hrec : ∀ current, splitLinesFrom current (c :: text) = splitLinesFrom (c :: current) text := by
        intro current
        rw [splitLinesFrom]
        exact fun h => hc (by simpa using h)
      rw [splitLines, hrec, hrec, splitLinesFrom_eq text, splitLinesFrom_eq text [c]]
      cases splitLines text <;> simp [joinFirst, leave]

theorem splitLines_newline (text : List Char) : splitLines ('\n' :: text) = ['\n'] :: splitLines text := rfl

theorem splitLines_cons {c : Char} (hc : c ≠ '\n') (text : List Char) :
    splitLines (c :: text) = joinFirst [c] (splitLines text) := by
  rw [splitLines, splitLinesFrom]
  · exact splitLinesFrom_eq text [c]
  · exact hc

/-- The lines of a text put together are the text, and none is empty. -/
theorem flatten_splitLines (text : List Char) :
    (splitLines text).flatten = text ∧ ∀ line ∈ splitLines text, line ≠ [] := by
  induction text with
  | nil => exact ⟨rfl, by simp [splitLines, splitLinesFrom]⟩
  | cons c text ih =>
    by_cases hc : c = '\n'
    · subst hc
      rw [splitLines_newline]
      simpa using ih
    · rw [splitLines_cons hc]
      cases hlines : splitLines text with
      | nil =>
        rw [hlines] at ih
        simpa [joinFirst, leave] using ih.1
      | cons line lines =>
        rw [hlines] at ih
        simp only [List.forall_mem_cons] at ih
        refine ⟨by simp [joinFirst, ← ih.1], ?_⟩
        simpa [joinFirst] using ih.2.2

/-- What is left of a text whose first line was read in part. -/
theorem splitLines_leave {back : List Char} {lines : List (List Char)} : ∀ {front text : List Char},
    splitLines (front ++ text) = (front ++ back) :: lines → splitLines text = leave back lines
  | [], text, h => by
    have hback := (flatten_splitLines text).2 back (by simp_all)
    rw [leave, List.isEmpty_eq_false_iff.mpr hback]
    exact h
  | c :: front, text, h => by
    have hrest : splitLines (front ++ text) = leave (front ++ back) lines := by
      rw [List.cons_append, List.cons_append] at h
      by_cases hc : c = '\n'
      · subst hc
        rw [splitLines_newline] at h
        obtain ⟨hline, hlines⟩ := List.cons.inj h
        rw [← (List.cons.inj hline).2, ← hlines]
        rfl
      · rw [splitLines_cons hc] at h
        cases hlines : splitLines (front ++ text) with
        | nil =>
          rw [hlines] at h
          obtain ⟨hline, hlines⟩ := List.cons.inj h
          rw [← (List.cons.inj hline).2, ← hlines]
          rfl
        | cons line rest =>
          rw [hlines] at h
          obtain ⟨hline, rfl⟩ := List.cons.inj h
          have hne := (flatten_splitLines (front ++ text)).2 line (by rw [hlines]; exact List.mem_cons_self)
          obtain rfl : line = front ++ back := (List.cons.inj hline).2
          rw [leave, List.isEmpty_eq_false_iff.mpr hne]
          rfl
    cases hfront : front ++ back with
    | nil =>
      obtain ⟨rfl, rfl⟩ := List.append_eq_nil_iff.mp hfront
      exact hrest
    | cons d rest =>
      rw [hfront] at hrest
      exact splitLines_leave (hrest.trans (by rw [hfront]; rfl))

theorem joinFirst_cons (c : Char) (front : List Char) (lines : List (List Char)) :
    joinFirst [c] (joinFirst front lines) = joinFirst (c :: front) lines := by
  cases lines with
  | nil => cases front <;> rfl
  | cons line lines => rfl

/-- Characters that are no line breaks stand on the first line. -/
theorem splitLines_append : ∀ {front : List Char} (rest : List Char), '\n' ∉ front →
    splitLines (front ++ rest) = joinFirst front (splitLines rest)
  | [], rest, _ => by cases h : splitLines rest <;> simp [h, joinFirst, leave]
  | c :: front, rest, h => by
    obtain ⟨hc, hfront⟩ := not_or.mp (mt List.mem_cons.mpr h)
    rw [List.cons_append, splitLines_cons (Ne.symm hc), splitLines_append rest hfront, joinFirst_cons]

/-- The first line of a text holds what the text begins with, if that has no line break. -/
theorem exists_splitLines {front : List Char} (rest : List Char) (hbreak : '\n' ∉ front) (hnil : front ≠ []) :
    ∃ back lines, splitLines (front ++ rest) = (front ++ back) :: lines ∧
      splitLines rest = leave back lines ∧ back.head? = rest.head? := by
  obtain ⟨hflat, hne⟩ := flatten_splitLines rest
  rw [splitLines_append rest hbreak]
  cases hlines : splitLines rest with
  | nil =>
    rw [hlines] at hflat
    have hfront := List.isEmpty_eq_false_iff.mpr hnil
    exact ⟨[], [], by simp [joinFirst, leave, hfront], rfl, by rw [← hflat]; rfl⟩
  | cons line lines =>
    rw [hlines] at hflat hne
    have hline := hne line List.mem_cons_self
    refine ⟨line, lines, rfl, by rw [leave, List.isEmpty_eq_false_iff.mpr hline]; rfl, ?_⟩
    rw [← hflat, List.flatten_cons, List.head?_append_of_ne_nil _ hline]

/-- A line holds what the text begins with, if that holds no line break. -/
theorem splitLines_prefix {line : List Char} {lines : List (List Char)} {front rest : List Char}
    (hbreak : '\n' ∉ front) (hnil : front ≠ []) (h : splitLines (front ++ rest) = line :: lines) :
    ∃ back, line = front ++ back ∧ splitLines rest = leave back lines ∧ back.head? = rest.head? := by
  obtain ⟨back, lines, hlines, hback⟩ := exists_splitLines rest hbreak hnil
  obtain ⟨rfl, rfl⟩ := List.cons.inj (h.symm.trans hlines)
  exact ⟨back, rfl, hback⟩

/-! ## 2. Cursors -/

/-- The unread text. -/
def Cursor.text (c : Cursor) : List Char := c.unread.flatten

/-- The unread lines are those of the unread text. -/
def Cursor.Lined (c : Cursor) : Prop := splitLines c.text = c.unread

theorem Cursor.Lined.ne_nil {c : Cursor} (h : c.Lined) : ∀ line ∈ c.unread, line ≠ [] := by
  rw [← h]
  exact (flatten_splitLines c.text).2

/-- A stream starts with the lines of its text. -/
theorem Stream.lined_ofText (text : String) :
    (ofText text).cursor.Lined ∧ (ofText text).cursor.text = text.toList := by
  obtain ⟨htext, hne⟩ := flatten_splitLines text.toList
  have hunread : (ofText text).cursor.unread = splitLines text.toList := by
    refine List.filter_eq_self.mpr fun line hline => ?_
    simpa using hne line hline
  rw [Cursor.Lined, Cursor.text, hunread, htext]
  exact ⟨rfl, rfl⟩

/-- The number of unread bytes. -/
def Cursor.size (c : Cursor) : Nat := (c.unread.map byteLength).sum

theorem Cursor.size_eq (c : Cursor) : c.size = byteLength c.text := by
  rw [size, text]
  induction c.unread with
  | nil => rfl
  | cons line lines ih => rw [List.map_cons, List.sum_cons, ih, List.flatten_cons, byteLength_append]

theorem byteLength_pos {cs : List Char} (h : cs ≠ []) : 0 < byteLength cs := by
  cases cs with
  | nil => exact absurd rfl h
  | cons c cs => exact Nat.add_pos_left (Char.utf8Size_pos c) _

theorem sum_leave (back : List Char) (lines : List (List Char)) :
    ((leave back lines).map byteLength).sum = byteLength back + (lines.map byteLength).sum := by
  cases back with
  | nil => simp [leave]
  | cons c cs => simp [leave]

/-! ## 3. The choice of a rule -/

/-- The end of a match lies between two characters. -/
theorem Regex.matchLength?_reads {r : Regex} {text : List Char} {n : Nat} (h : r.matchLength? text = some n) :
    ∃ read rest, text = read ++ rest ∧ n = byteLength read := by
  rcases Front.matchEnd?_reads h with h | ⟨read, rest, htext, hn, -⟩
  · cases h
  · exact ⟨read, rest, htext, by rw [hn, Nat.zero_add]⟩

/-- The first rule with a match that is not empty, and the length of the match. -/
def Lexer.choose? (line : List Char) : List LexRule → Option (LexRule × Nat)
  | [] => none
  | rule :: rules =>
    match (rule.regex.matchLength? line).filter (0 < ·) with
    | some length => some (rule, length)
    | none => choose? line rules

theorem Lexer.choose?_here {rule : LexRule} {line : List Char} {n : Nat} (h : rule.regex.matchLength? line = some n)
    (hpos : 0 < n) (rules : List LexRule) : choose? line (rule :: rules) = some (rule, n) := by
  rw [choose?, h, Option.filter_some, if_pos (decide_eq_true hpos)]

theorem Lexer.choose?_further {rule : LexRule} {line : List Char} (h : rule.regex.matchLength? line = none)
    (rules : List LexRule) : choose? line (rule :: rules) = choose? line rules := by
  rw [choose?, h, Option.filter_none]

/-- What a rule takes is not empty, and is followed by what is left. -/
structure Lexer.Chooses (rules : List LexRule) (front back : List Char) (rule : LexRule) : Prop where
  ne_nil : front ≠ []
  choose : Lexer.choose? (front ++ back) rules = some (rule, byteLength front)

namespace Lexer

variable {line front back : List Char} {lines : List (List Char)} {rules : List LexRule} {rule : LexRule}

/-- The rule that is chosen has a match, which is not empty. -/
theorem choose?_eq_some : ∀ {rules : List LexRule} {length : Nat}, choose? line rules = some (rule, length) →
    rule ∈ rules ∧ rule.regex.matchLength? line = some length ∧ 0 < length
  | first :: rules, length, h => by
    rw [choose?] at h
    split at h
    · rename_i hmatch
      obtain ⟨rfl, rfl⟩ := Prod.mk.inj (Option.some.inj h)
      obtain ⟨hmatch, hpos⟩ := Option.filter_eq_some_iff.mp hmatch
      exact ⟨List.mem_cons_self, hmatch, of_decide_eq_true hpos⟩
    · obtain ⟨hmem, hmatch⟩ := choose?_eq_some h
      exact ⟨List.mem_cons_of_mem _ hmem, hmatch⟩

/-- What the chosen rule takes is a front of the line. -/
theorem exists_chooses {length : Nat} (h : choose? line rules = some (rule, length)) :
    rule ∈ rules ∧ ∃ front back, line = front ++ back ∧ length = byteLength front ∧
      Chooses rules front back rule := by
  obtain ⟨hmem, hmatch, hpos⟩ := choose?_eq_some h
  obtain ⟨front, back, rfl, rfl⟩ := Regex.matchLength?_reads hmatch
  refine ⟨hmem, front, back, rfl, rfl, ?_, h⟩
  rintro rfl
  simp at hpos

/-- The first match is what the stream produces for the chosen rule. -/
theorem firstMatch?_eq {s : Stream} (h : s.cursor.unread = line :: lines) : ∀ rules : List LexRule,
    firstMatch? s rules = (choose? line rules).bind fun choice =>
      s.produce? (.kind choice.1.kind) choice.2 choice.1.channel
  | [] => rfl
  | rule :: rules => by
    have hlength : rule.length? s = (rule.regex.matchLength? line).filter (0 < ·) := by
      rw [LexRule.length?, Stream.matchLength?, h]
      rfl
    rw [firstMatch?, choose?, hlength]
    cases (rule.regex.matchLength? line).filter (0 < ·) with
    | some length => rfl
    | none => exact firstMatch?_eq h rules

end Lexer

/-! ## 4. The next token -/

/-- The token and the stream behind it, if a lexer takes the front of the current line. -/
structure Lexer.Took (s : Stream) (front back : List Char) (lines : List (List Char)) (rule : LexRule)
    (token : Token) (s' : Stream) : Prop where
  unread : s.cursor.unread = (front ++ back) :: lines
  kind : token.kind = .kind rule.kind
  text : token.text = String.ofList front
  channel : token.channel = rule.channel
  span : token.span = ⟨s.cursor.position, ⟨s.cursor.position.line, s.cursor.position.col + byteLength front⟩⟩
  left : s'.cursor.unread = leave back lines
  position : s'.cursor.position =
    if back.isEmpty then ⟨s.cursor.position.line + 1, 0⟩ else token.span.stop
  finish : s'.finish = s.finish

/-- What was taken is the front of the unread text, and what is left is in lines. -/
theorem Lexer.Took.text_eq {s s' : Stream} {front back : List Char} {lines : List (List Char)} {rule : LexRule}
    {token : Token} (h : Took s front back lines rule token s') :
    s.cursor.text = front ++ s'.cursor.text := by
  rw [Cursor.text, Cursor.text, h.unread, h.left, List.flatten_cons, List.append_assoc, leave]
  split
  · rename_i hback
    rw [List.isEmpty_iff.mp hback, List.nil_append]
  · rw [List.flatten_cons]

theorem Lexer.Took.lined {s s' : Stream} {front back : List Char} {lines : List (List Char)} {rule : LexRule}
    {token : Token} (h : Took s front back lines rule token s') (hlined : s.cursor.Lined) :
    s'.cursor.Lined := by
  have hsplit : splitLines (front ++ s'.cursor.text) = (front ++ back) :: lines := by
    rw [← h.text_eq, hlined, h.unread]
  rw [Cursor.Lined, h.left]
  exact splitLines_leave hsplit

/-- A front of the line is handed out as a token. -/
theorem Stream.took_produce? {s : Stream} {front back : List Char} {lines : List (List Char)}
    (h : s.cursor.unread = (front ++ back) :: lines) (rule : LexRule) :
    ∃ token s', s.produce? (.kind rule.kind) (byteLength front) rule.channel = some (token, s') ∧
      Lexer.Took s front back lines rule token s' := by
  simp only [produce?, h, splitBytes_byteLength, Option.map_some]
  refine ⟨_, _, rfl, h, rfl, rfl, rfl, rfl, ?_, ?_, rfl⟩
  · unfold leave
    split <;> rfl
  · split <;> rfl

namespace Lexer

variable {lexer : Lexer} {mode : String} {s s' : Stream} {token : Token} {rules : List LexRule}

/-- **The next token** is the end of the text, or what a rule takes. -/
theorem next_cases (h : lexer.next mode s = .ok (token, s')) :
    (s.cursor.unread = [] ∧ token = s.produceEof.1 ∧ s' = s.produceEof.2) ∨
    ∃ rules rule front back lines, Sorted.find? mode lexer.modes = some rules ∧ rule ∈ rules ∧
      Chooses rules front back rule ∧ Took s front back lines rule token s' := by
  unfold next at h
  split at h
  · rename_i hend
    obtain ⟨rfl, rfl⟩ := Prod.mk.inj (Except.ok.inj h)
    exact .inl ⟨by simpa [Stream.atEnd] using hend, rfl, rfl⟩
  · rename_i hend
    obtain ⟨line, lines, hunread⟩ : ∃ line lines, s.cursor.unread = line :: lines :=
      List.exists_cons_of_ne_nil (by simpa [Stream.atEnd] using hend)
    split at h
    · cases h
    · rename_i rules hrules
      split at h
      · rename_i result hfirst
        obtain rfl := Except.ok.inj h
        rw [firstMatch?_eq hunread] at hfirst
        obtain ⟨⟨rule, length⟩, hchoose, hproduce⟩ := Option.bind_eq_some_iff.mp hfirst
        obtain ⟨hmem, front, back, rfl, rfl, hchooses⟩ := exists_chooses hchoose
        obtain ⟨token', s'', hproduce', htook⟩ := Stream.took_produce? hunread rule
        obtain ⟨rfl, rfl⟩ := Prod.mk.inj (Option.some.inj (hproduce.symm.trans hproduce'))
        exact .inr ⟨rules, rule, front, back, lines, hrules, hmem, hchooses, htook⟩
      · cases h

/-- The next token is what the stream produces for the rule that is chosen. -/
theorem next_of_chooses {front back : List Char} {lines : List (List Char)} {rule : LexRule}
    (hunread : s.cursor.unread = (front ++ back) :: lines)
    (hrules : Sorted.find? mode lexer.modes = some rules) (hchooses : Chooses rules front back rule)
    (hproduce : s.produce? (.kind rule.kind) (byteLength front) rule.channel = some (token, s')) :
    lexer.next mode s = .ok (token, s') := by
  have hend : s.atEnd = false := by
    rw [Stream.atEnd, hunread]
    rfl
  simp only [next, hend, Bool.false_eq_true, if_false, hrules, firstMatch?_eq hunread, hchooses.choose,
    Option.bind_some, hproduce]

/-- What a rule takes is the next token. -/
theorem exists_next {front back : List Char} {lines : List (List Char)} {rule : LexRule}
    (hunread : s.cursor.unread = (front ++ back) :: lines)
    (hrules : Sorted.find? mode lexer.modes = some rules) (hchooses : Chooses rules front back rule) :
    ∃ token s', lexer.next mode s = .ok (token, s') ∧ Took s front back lines rule token s' := by
  obtain ⟨token, s', hproduce, htook⟩ := Stream.took_produce? hunread rule
  exact ⟨token, s', next_of_chooses hunread hrules hchooses hproduce, htook⟩

/-- Every token but the end of the text takes something. -/
theorem size_next (h : lexer.next mode s = .ok (token, s')) :
    (token.kind = .eof ∧ token.channel = .all ∧ s'.cursor = s.cursor) ∨
      (token.kind ≠ .eof ∧ s'.cursor.size < s.cursor.size) := by
  rcases next_cases h with ⟨-, rfl, rfl⟩ | ⟨_, _, _, _, _, -, -, hchooses, htook⟩
  · exact .inl ⟨rfl, rfl, rfl⟩
  · refine .inr ⟨by simp [htook.kind], ?_⟩
    have hpos := byteLength_pos hchooses.ne_nil
    rw [Cursor.size, Cursor.size, htook.left, htook.unread, sum_leave, List.map_cons, List.sum_cons,
      byteLength_append]
    omega

theorem lined_next (h : lexer.next mode s = .ok (token, s')) (hlined : s.cursor.Lined) :
    s'.cursor.Lined := by
  rcases next_cases h with ⟨-, -, rfl⟩ | ⟨_, _, _, _, _, -, -, -, htook⟩
  · exact hlined
  · exact htook.lined hlined

end Lexer

end Lode
