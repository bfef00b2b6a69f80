/-
# Words and what follows them

The lexer reads a text word by word.  `Lexes` says that it takes a given row of characters as a token of a
given kind and leaves what follows; the laws of this file say so of blanks, names, decimal numbers,
operators, delimiters and the parts of string literals.  Of words they say more: wherever one begins, it is
read as a whole (`next_word`).

The first rule with a match is taken, not the longest match, so each law has two halves.  Its rule matches
the row and no more of the text, and the rules before it have no match there (`Lexer.chooses_of_kind`).  The
second half is decided by the first character for most rules.  For names and reserved words it is not: a
reserved word may begin like a name, and that it does not match there is because its rule asks for the end
of a word (`matchLength?_reserved`).

What may follow matters: a name that goes on is another name, and `-` before `>` is an arrow.  So all words
but the parts of literals are read before the end of the text, a blank or a colon (`Ends`), which is enough
for texts whose words have blanks before them; `next_word` only asks that no character of a word follows.

A literal may be written in many ways.  `Literal` relates its text to all of them, `Escaped` a character to
its escapes, and the shortest are one of the ways (`literal_escape`).
-/
import Lode.Proofs.Lexing
import Lode.Proofs.Regex.Matching
import Lode.Proofs.Text.Digits

namespace Lode

/-! ## 1. Rules and tokens -/

/-- The characters are what is left of the text. -/
def Stream.At (s : Stream) (cs : List Char) : Prop := s.cursor.unread = splitLines cs

theorem Stream.at_ofText (text : String) : (Stream.ofText text).At text.toList := by
  obtain ⟨hlined, htext⟩ := lined_ofText text
  rw [At, ← htext, hlined]

/-- In a mode the lexer takes the characters at the front as a token, and leaves the rest. -/
def Lexes (lexer : Lexer) (mode : String) (front rest : List Char) (kind : Terminal) (channel : Channel) :
    Prop :=
  ∀ s : Stream, s.At (front ++ rest) → ∃ token s', lexer.next mode s = .ok (token, s') ∧
    token.kind = kind ∧ token.text = String.ofList front ∧ token.channel = channel ∧ s'.At rest

/-- At the end of the text the end is read. -/
theorem lexes_eof (lexer : Lexer) (mode : String) : Lexes lexer mode [] [] .eof .all := by
  intro s hs
  have hend : s.atEnd = true := by
    rw [Stream.atEnd, hs]
    rfl
  exact ⟨s.produceEof.1, s.produceEof.2, by rw [Lexer.next, if_pos hend], rfl, rfl, rfl, hs⟩

/-- The first rule of a kind is chosen, if no rule before it has a match. -/
theorem Lexer.chooses_of_kind {kind : String} {rule : LexRule} {c : Char} {cs back : List Char} :
    ∀ {rules : List LexRule}, rules.find? (·.kind == kind) = some rule →
    rule.regex.matchLength? (c :: cs ++ back) = some (byteLength (c :: cs)) →
    (∀ r ∈ rules.takeWhile (·.kind != kind), r.regex.matchLength? (c :: cs ++ back) = none) →
    Chooses rules (c :: cs) back rule
  | [], hfind, _, _ => by cases hfind
  | r :: rules, hfind, hrule, hbefore => by
    refine ⟨List.cons_ne_nil c cs, ?_⟩
    rw [List.find?_cons] at hfind
    rw [List.takeWhile_cons] at hbefore
    split at hfind
    · obtain rfl := Option.some.inj hfind
      exact choose?_here hrule (byteLength_pos (List.cons_ne_nil c cs)) rules
    · rename_i hkind
      have hkind : (r.kind != kind) = true := by simpa using hkind
      rw [if_pos hkind] at hbefore
      obtain ⟨hr, hbefore⟩ := List.forall_mem_cons.mp hbefore
      rw [choose?_further hr]
      exact (chooses_of_kind hfind hrule hbefore).choose

/-- What a rule takes does not depend on more than the next character, so it may be followed by other
lines. -/
theorem lexes_of_chooses {lexer : Lexer} {mode : String} {rules : List LexRule} {front rest : List Char}
    (rule : LexRule) (hmode : Sorted.find? mode lexer.modes = some rules) (hbreak : '\n' ∉ front)
    (hchooses : ∀ back : List Char, back.head? = rest.head? → Lexer.Chooses rules front back rule) :
    Lexes lexer mode front rest (.kind rule.kind) rule.channel := by
  intro s hs
  obtain ⟨back, lines, hlines, hrest, hhead⟩ := exists_splitLines rest hbreak (hchooses rest rfl).ne_nil
  obtain ⟨token, s', hnext, htook⟩ :=
    Lexer.exists_next (hs.trans hlines) hmode (hchooses back hhead)
  exact ⟨token, s', hnext, htook.kind, htook.text, htook.channel, htook.left.trans hrest.symm⟩

namespace Language

theorem find?_defaultMode : Sorted.find? defaultMode lexer.modes = some defaultRules := rfl

theorem find?_stringMode : Sorted.find? stringMode lexer.modes = some stringRules := rfl

/-! ## 2. Blanks and symbols -/

/-- What may follow a word: nothing, a blank or a colon. -/
def Ends (rest : List Char) : Prop := ∀ c ∈ rest.head?, c = ' ' ∨ c = ':'

/-- The table of blanks as a list, which can be searched by evaluation. -/
theorem isSpace_eq (c : Char) : isSpace c =
    spaceRanges.toList.any fun range => range.1 ≤ c.toNat && c.toNat ≤ range.2 := by
  rw [Array.any_toList]
  rfl

/-- A blank in front of something that is none. -/
theorem lexes_blank {c : Char} {cs : List Char} (hc : isSpace c = false) :
    Lexes lexer defaultMode [' '] (c :: cs) (.kind "WS") (.hidden blankChannel) := by
  have hfind : defaultRules.find? (·.kind == "WS") =
      some ⟨.atLeastOne (.one ⟨false, [.space]⟩), "WS", .hidden blankChannel⟩ := rfl
  have hbefore : defaultRules.takeWhile (·.kind != "WS") = [] := rfl
  have hspace : (CharClass.mk false [.space]).contains ' ' = true := by
    simp [CharClass.contains, ClassItem.contains, isSpace_eq, spaceRanges]
  refine lexes_of_chooses _ find?_defaultMode (by decide) fun back hback =>
    Lexer.chooses_of_kind hfind (@Regex.matchLength?_run _ _ [] _ hspace (by simp) ?_)
      (by simp [hbefore])
  rw [hback]
  simpa [CharClass.contains, ClassItem.contains] using hc

/-- The operators and delimiters of expressions and declarations. -/
def symbols : List String := [":", "=", "(", ")", ",", ".", "+", "-", "*", "@"]

/-- The only rule before that of a symbol which begins with the same character is that of arrows. -/
theorem symbol_rules : ∀ w ∈ "\"" :: symbols,
    defaultRules.find? (·.kind == w) = some ⟨.literal w, w, .default⟩ ∧ w.toList.length = 1 ∧
    '\n' ∉ w.toList ∧
    ∀ r ∈ defaultRules.takeWhile (·.kind != w),
      w.toList.all r.regex.refuses = true ∨ w = "-" ∧ r.regex = .literal "->" := by
  decide +kernel

/-- **Operators and delimiters.** Only the minus sign minds what follows. -/
theorem lexes_symbol {w : String} (hw : w ∈ "\"" :: symbols) {rest : List Char}
    (hrest : w = "-" → ∀ c ∈ rest.head?, c ≠ '>') :
    Lexes lexer defaultMode w.toList rest (.kind w) .default := by
  obtain ⟨hfind, hlength, hbreak, hbefore⟩ := symbol_rules w hw
  obtain ⟨c, hc⟩ := List.length_eq_one_iff.mp hlength
  refine lexes_of_chooses ⟨.literal w, w, .default⟩ find?_defaultMode hbreak fun back hback => ?_
  have hmatch := @Regex.matchLength?_literal w (by simp [hc]) back
  rw [hc] at hmatch hbefore ⊢
  refine Lexer.chooses_of_kind hfind hmatch fun r hr => ?_
  rcases hbefore r hr with hrefuses | ⟨rfl, harrow⟩
  · exact Regex.matchLength?_eq_none (List.all_eq_true.mp hrefuses c List.mem_cons_self) back
  · obtain rfl : '-' = c := (List.cons.inj hc).1
    rw [harrow]
    refine Regex.matchLength?_literal_none (by decide) ?_
    rintro ⟨tail, htail⟩
    have htail : '-' :: '>' :: tail = '-' :: back := htail
    exact hrest rfl '>' (by rw [← hback, ← (List.cons.inj htail).2]; rfl) rfl

theorem Ends.ne_arrow {rest : List Char} (h : Ends rest) : ∀ c ∈ rest.head?, c ≠ '>' := by
  rintro c hc rfl
  rcases h _ hc with h | h <;> exact absurd h (by decide)

/-! ## 3. Names and reserved words -/

/-- The words that are no names. -/
def reserved : List String := keywords ++ typeNames

/-- Whether a text is a name. -/
def isName (name : String) : Bool :=
  match name.toList with
  | [] => false
  | c :: cs => nameStart.contains c && cs.all nameRest.contains && !reserved.contains name

theorem contains_items (items : List ClassItem) (c : Char) :
    (CharClass.mk false items).contains c = items.any (·.contains c) := by
  simp [CharClass.contains]

theorem contains_letters (c : Char) : (ClassItem.range 'A' 'Z').contains c = c.isUpper ∧
    (ClassItem.range 'a' 'z').contains c = c.isLower ∧ digit.contains c = c.isDigit := by
  refine ⟨?_, rfl, rfl⟩
  rw [ClassItem.contains, ← Bool.decide_and]
  rfl

theorem contains_underscore (c : Char) : (ClassItem.range '_' '_').contains c = (c == '_') := by
  have hsingle := CharClass.contains_single '_' c
  rwa [CharClass.single, contains_items, List.any_cons, List.any_nil, Bool.or_false] at hsingle

theorem contains_nameStart (c : Char) : nameStart.contains c = (c.isAlpha || c == '_') := by
  obtain ⟨hupper, hlower, -⟩ := contains_letters c
  simp only [nameStart, contains_items, List.any_cons, List.any_nil, Bool.or_false, hupper, hlower,
    contains_underscore]
  exact (Bool.or_assoc _ _ _).symm

theorem contains_nameRest (c : Char) : nameRest.contains c = isAsciiWord c := by
  obtain ⟨hupper, hlower, hdigit⟩ := contains_letters c
  simp only [nameRest, contains_items, List.any_cons, List.any_nil, Bool.or_false, hupper, hlower, hdigit,
    contains_underscore, ← Bool.or_assoc]
  rfl

/-- Names are made of ASCII characters. -/
theorem toNat_lt_of_nameRest {c : Char} (h : nameRest.contains c = true) : c.toNat < 128 := by
  have hranges : ∀ first last : Char, last.toNat < 128 → (ClassItem.range first last).contains c = true →
      c.toNat < 128 := by
    intro first last hlast hc
    have hle : c.toNat ≤ last.toNat := (by simpa [ClassItem.contains] using hc : first ≤ c ∧ c ≤ last).2
    omega
  simp only [nameRest, digit, contains_items, List.any_cons, List.any_nil, Bool.or_false,
    Bool.or_eq_true] at h
  rcases h with h | h | h | h
  · exact hranges _ _ (by decide) h
  · exact hranges _ _ (by decide) h
  · exact hranges _ _ (by decide) h
  · exact hranges _ _ (by decide) h

theorem nameRest_of_nameStart {c : Char} (h : nameStart.contains c = true) : nameRest.contains c = true := by
  simp only [nameStart, nameRest, contains_items, List.any_cons, List.any_nil, Bool.or_false,
    Bool.or_eq_true] at h ⊢
  tauto

theorem isWordChar_of_nameRest {c : Char} (h : nameRest.contains c = true) : isWordChar c = true := by
  rw [isWordChar, if_pos (toNat_lt_of_nameRest h), ← contains_nameRest, h]

/-- What follows does not go on with a word. -/
def Parted (rest : List Char) : Prop := ∀ c ∈ rest.head?, isWordChar c = false

theorem Parted.not_nameRest {rest : List Char} (h : Parted rest) :
    ∀ c ∈ rest.head?, nameRest.contains c = false := by
  intro c hc
  by_contra hname
  rw [Bool.not_eq_false] at hname
  exact absurd (isWordChar_of_nameRest hname) (Bool.eq_false_iff.mp (h c hc))

theorem Ends.parted {rest : List Char} (h : Ends rest) : Parted rest := by
  intro c hc
  rcases h c hc with rfl | rfl <;> decide

theorem newline_not_mem_name {cs : List Char} (h : ∀ c ∈ cs, nameRest.contains c = true) : '\n' ∉ cs :=
  fun hmem => absurd (h '\n' hmem) (by decide)

/-- Reserved words are made of characters of names. -/
theorem reserved_chars : ∀ word ∈ reserved, word.toList ≠ [] ∧
    (∀ c ∈ word.toList, nameRest.contains c = true) ∧ ∀ c ∈ word.toList.getLast?, isWordChar c = true := by
  have hall : ∀ word ∈ reserved, word.toList ≠ [] ∧ word.toList.all nameRest.contains = true ∧
      word.toList.getLast?.all isWordChar = true := by decide
  intro word hword
  obtain ⟨hnil, hchars, hlast⟩ := hall word hword
  exact ⟨hnil, List.all_eq_true.mp hchars, (Option.all_eq_true _ _).mp hlast⟩

/-- Another word does not match a reserved word. -/
theorem matchLength?_reserved {word : String} (hword : word ∈ reserved) {cs rest : List Char}
    (hcs : ∀ c ∈ cs, nameRest.contains c = true) (hne : cs ≠ word.toList) (hrest : Parted rest) :
    (wordRegex word).matchLength? (cs ++ rest) = none := by
  obtain ⟨hnil, hchars, hlast⟩ := reserved_chars word hword
  by_cases hfront : word.toList <+: cs ++ rest
  · obtain ⟨tail, htail⟩ := hfront
    rcases List.append_eq_append_iff.mp htail with ⟨more, rfl, hmore⟩ | ⟨more, hmore, rfl⟩
    · cases more with
      | nil => exact absurd (List.append_nil _) hne
      | cons d more =>
        -- the word goes on, so it does not end where the reserved word ends
        have hd : isWordChar d = true := isWordChar_of_nameRest (hcs d (by simp))
        obtain ⟨c, hc⟩ : ∃ c, word.toList.getLast? = some c :=
          Option.isSome_iff_exists.mp (by simpa using hnil)
        have hborder : isBorder word.toList.getLast? (d :: more ++ rest).head? = false := by
          simp [isBorder, hc, hlast c hc, hd]
        rw [← htail, hmore, wordRegex, Regex.matchLength?_word hnil, hborder]
        rfl
    · cases more with
      | nil => exact absurd (by rw [hmore, List.append_nil]) hne
      | cons d more =>
        have hd := hchars d (by simp [hmore])
        rw [hrest.not_nameRest d rfl] at hd
        cases hd
  · exact Regex.matchLength?_word_none hnil hfront

/-- The rules before those of names, of reserved words and of numbers match reserved words, or nothing
that begins like them. -/
theorem earlier_rules :
    (∀ r ∈ defaultRules.takeWhile (·.kind != "IDENT"),
      r.kind ∈ reserved ∧ r.regex = wordRegex r.kind ∨
        ∀ n < 128, nameStart.contains (Char.ofNat n) = true → r.regex.refuses (Char.ofNat n) = true) ∧
    (∀ word ∈ reserved,
      defaultRules.find? (·.kind == word) = some ⟨wordRegex word, word, .default⟩ ∧
      ∀ r ∈ defaultRules.takeWhile (·.kind != word),
        r.kind ∈ reserved ∧ r.kind ≠ word ∧ r.regex = wordRegex r.kind ∨
          word.toList.head?.all r.regex.refuses = true) ∧
    ∀ r ∈ defaultRules.takeWhile (·.kind != "NUMBER"),
      ∀ n < 128, (Char.ofNat n).isDigit = true → r.regex.refuses (Char.ofNat n) = true := by
  decide +kernel

/-- The rule of names takes a word that is not reserved. -/
theorem chooses_name {c : Char} {cs rest : List Char} (hc : nameStart.contains c = true)
    (hcs : ∀ d ∈ cs, nameRest.contains d = true) (hreserved : String.ofList (c :: cs) ∉ reserved)
    (hrest : Parted rest) :
    Lexer.Chooses defaultRules (c :: cs) rest ⟨nameRegex, "IDENT", .default⟩ := by
  have hfind : defaultRules.find? (·.kind == "IDENT") = some ⟨nameRegex, "IDENT", .default⟩ := rfl
  refine Lexer.chooses_of_kind hfind (Regex.matchLength?_headed hc hcs hrest.not_nameRest) fun r hr => ?_
  rcases earlier_rules.1 r hr with ⟨hkind, hregex⟩ | hrefuses
  · rw [hregex]
    refine matchLength?_reserved hkind (List.forall_mem_cons.mpr ⟨nameRest_of_nameStart hc, hcs⟩) ?_ hrest
    intro heq
    rw [heq, String.ofList_toList] at hreserved
    exact hreserved hkind
  · have hfirst := hrefuses c.toNat (toNat_lt_of_nameRest (nameRest_of_nameStart hc))
    rw [Char.ofNat_toNat] at hfirst
    exact Regex.matchLength?_eq_none (hfirst hc) _

/-- A reserved word has its own rule. -/
theorem chooses_reserved {word : String} (hword : word ∈ reserved) {rest : List Char} (hrest : Parted rest) :
    Lexer.Chooses defaultRules word.toList rest ⟨wordRegex word, word, .default⟩ := by
  obtain ⟨hnil, hchars, hlast⟩ := reserved_chars word hword
  obtain ⟨hfind, hbefore⟩ := earlier_rules.2.1 word hword
  obtain ⟨c, cs, hcs⟩ := List.exists_cons_of_ne_nil hnil
  have hmatch : (wordRegex word).matchLength? (word.toList ++ rest) = some (byteLength word.toList) := by
    obtain ⟨d, hd⟩ : ∃ d, word.toList.getLast? = some d := Option.isSome_iff_exists.mp (by simpa using hnil)
    have hend : rest.head?.any isWordChar = false := by
      cases rest with
      | nil => rfl
      | cons e rest => exact hrest e rfl
    have hborder : isBorder word.toList.getLast? rest.head? = true := by
      simp [isBorder, hend, hd, hlast d hd]
    rw [wordRegex, Regex.matchLength?_word hnil, if_pos hborder]
  rw [hcs] at hmatch hbefore hchars ⊢
  refine Lexer.chooses_of_kind hfind hmatch fun r hr => ?_
  rcases hbefore r hr with ⟨hkind, hne, hregex⟩ | hrefuses
  · rw [hregex]
    refine matchLength?_reserved hkind hchars ?_ hrest
    rw [← hcs]
    exact fun heq => hne (String.toList_inj.mp heq).symm
  · exact Regex.matchLength?_eq_none ((Option.all_eq_true _ _).mp hrefuses c rfl) _

/-- **Words are never split.**  Where a word of ASCII letters, digits and underscores begins with a letter
or an underscore and ends before the end of the text or a character of no word, the next token is the
whole word: of its own kind if it is reserved, and a name if it is not. -/
theorem next_word {s : Stream} {c : Char} {cs tail : List Char} {lines : List (List Char)}
    (hc : c.isAlpha = true ∨ c = '_') (hcs : ∀ d ∈ cs, d.isAlphanum = true ∨ d = '_')
    (htail : ∀ d ∈ tail.head?, isWordChar d = false)
    (hunread : s.cursor.unread = (c :: cs ++ tail) :: lines) :
    ∃ token s', lexer.next defaultMode s = .ok (token, s') ∧ token.text = String.ofList (c :: cs) ∧
      token.kind = .kind (if token.text ∈ reserved then token.text else "IDENT") ∧
      token.channel = .default ∧
      token.span =
        ⟨s.cursor.position, ⟨s.cursor.position.line, s.cursor.position.col + byteLength (c :: cs)⟩⟩ ∧
      s'.cursor.unread = leave tail lines := by
  have hc : nameStart.contains c = true := by simpa [contains_nameStart] using hc
  have hcs : ∀ d ∈ cs, nameRest.contains d = true := fun d hd => by
    simpa [contains_nameRest, isAsciiWord] using hcs d hd
  by_cases hreserved : String.ofList (c :: cs) ∈ reserved
  · have hchooses := chooses_reserved hreserved htail
    rw [String.toList_ofList] at hchooses
    obtain ⟨token, s', hnext, htook⟩ := Lexer.exists_next hunread find?_defaultMode hchooses
    have hkind : token.kind = .kind (if token.text ∈ reserved then token.text else "IDENT") := by
      rw [htook.kind, htook.text, if_pos hreserved]
    exact ⟨token, s', hnext, htook.text, hkind, htook.channel, htook.span, htook.left⟩
  · obtain ⟨token, s', hnext, htook⟩ :=
      Lexer.exists_next hunread find?_defaultMode (chooses_name hc hcs hreserved htail)
    have hkind : token.kind = .kind (if token.text ∈ reserved then token.text else "IDENT") := by
      rw [htook.kind, htook.text, if_neg hreserved]
    exact ⟨token, s', hnext, htook.text, hkind, htook.channel, htook.span, htook.left⟩

theorem next_word_letter : ∃ token s', lexer.next defaultMode (.ofText "letter: u8") = .ok (token, s') ∧
    token.text = "letter" ∧ token.kind = .kind "IDENT" ∧ s'.cursor.unread = [": u8".toList] := by
  have hletters : ∀ d ∈ ['e', 't', 't', 'e', 'r'], d.isAlphanum = true ∨ d = '_' := by
    simp only [List.forall_mem_cons, List.not_mem_nil, false_implies, implies_true, and_true]
    decide
  have hcolon : ∀ d ∈ ": u8".toList.head?, isWordChar d = false := by
    rintro _ ⟨⟩
    decide
  obtain ⟨token, s', hnext, htext, hkind, -, -, hleft⟩ :=
    @next_word (.ofText "letter: u8") 'l' _ ": u8".toList [] (.inl (by decide)) hletters hcolon rfl
  have htext : token.text = "letter" := htext
  rw [htext, if_neg (by decide)] at hkind
  exact ⟨token, s', hnext, htext, hkind, hleft⟩

/-- **Names.** -/
theorem lexes_name {name : String} (hname : isName name = true) {rest : List Char} (hrest : Ends rest) :
    Lexes lexer defaultMode name.toList rest (.kind "IDENT") .default := by
  unfold isName at hname
  split at hname
  · cases hname
  · rename_i c cs hchars
    simp only [Bool.and_eq_true, List.all_eq_true, Bool.not_eq_true', List.contains_eq_mem,
      decide_eq_false_iff_not] at hname
    obtain ⟨⟨hc, hcs⟩, hreserved⟩ := hname
    rw [← String.ofList_toList (s := name), hchars] at hreserved
    rw [hchars]
    refine lexes_of_chooses _ find?_defaultMode
      (newline_not_mem_name (List.forall_mem_cons.mpr ⟨nameRest_of_nameStart hc, hcs⟩)) fun back hback =>
        chooses_name hc hcs hreserved ?_
    rw [Parted, hback]
    exact hrest.parted

/-- **Reserved words.** -/
theorem lexes_reserved {word : String} (hword : word ∈ reserved) {rest : List Char} (hrest : Ends rest) :
    Lexes lexer defaultMode word.toList rest (.kind word) .default := by
  refine lexes_of_chooses ⟨wordRegex word, word, .default⟩ find?_defaultMode
    (newline_not_mem_name (reserved_chars word hword).2.1) fun back hback => chooses_reserved hword ?_
  rw [Parted, hback]
  exact hrest.parted

/-! ## 4. Numbers -/

theorem contains_digit (c : Char) : (CharClass.mk false [digit]).contains c = c.isDigit := by
  rw [contains_items, List.any_cons, List.any_nil, Bool.or_false, (contains_letters c).2.2]

/-- **Decimal digits.**  Only a single zero may begin with a zero: other forms begin so too. -/
theorem matchLength?_number {c : Char} {cs rest : List Char} (hc : c.isDigit = true)
    (hcs : ∀ d ∈ cs, d.isDigit = true) (hzero : c = '0' → cs = []) (hrest : Ends rest) :
    numberRegex.matchLength? (c :: cs ++ rest) = some (byteLength (c :: cs)) := by
  have hstop : ∀ d ∈ rest.head?, (CharClass.mk false [digit]).contains d = false := by
    intro d hd
    rcases hrest d hd with rfl | rfl <;> decide
  have hloop : Front.Loops numberRegex.program ⟨false, [digit]⟩ 15 := fun _ _ => ⟨rfl, rfl⟩
  have henter : ∀ next, Front.enter numberRegex.program none next 0 = ⟨_, [⟨⟨false, [digit]⟩, 15⟩,
    ⟨.single '$', 12⟩, ⟨.single '0', 7⟩, ⟨.single '0', 2⟩], false⟩ := fun _ => rfl
  rw [Regex.matchLength?_eq, henter, List.cons_append, Front.matchEnd?.eq_def]
  simp only [List.isEmpty_cons, Bool.false_eq_true, if_false]
  by_cases h0 : c = '0'
  -- behind a zero there is no digit, so the number ends with it
  · obtain rfl := hzero h0
    subst h0
    set front := Front.after numberRegex.program '0' ([] ++ rest).head? ⟨_, [⟨⟨false, [digit]⟩, 15⟩,
      ⟨.single '$', 12⟩, ⟨.single '0', 7⟩, ⟨.single '0', 2⟩], false⟩ with hfront
    have hdone : front.done = true := rfl
    cases rest with
    | nil => simp [Front.matchEnd?, hdone]
    | cons d rest =>
      have havoids : front.Avoids d := by
        have hwaiting : front.waiting = [⟨⟨false, [digit]⟩, 15⟩, ⟨.single 'b', 8⟩, ⟨.single 'x', 3⟩] := rfl
        rw [Front.Avoids, hwaiting]
        rcases hrest d rfl with rfl | rfl <;> decide
      rw [List.nil_append, Front.matchEnd?.eq_def]
      simp only [hdone, if_true, Front.after_eq_empty havoids, Front.matchEnd?_empty, ite_self]
      rfl
  -- any other digit enters the loop over digits
  · have hdollar : c ≠ '$' := by
      rintro rfl
      exact absurd hc (by decide)
    simp only [Front.after, List.foldr_cons, List.foldr_nil, CharClass.contains_single, contains_digit, hc,
      if_true, beq_iff_eq, hdollar, h0, if_false]
    rw [← Front.enter]
    obtain ⟨hwaiting, hdone⟩ := hloop (some c) (cs ++ rest).head?
    rw [Front.matchEnd?_loop hloop hstop (by simpa only [contains_digit] using hcs) hwaiting hdone,
      byteLength_cons, Nat.zero_add]

/-- **Numbers.** -/
theorem lexes_number (n : Nat) {rest : List Char} (hrest : Ends rest) :
    Lexes lexer defaultMode (Nat.toDigits 10 n) rest (.kind "NUMBER") .default := by
  obtain ⟨c, cs, hcs, hc⟩ := exists_decimal n
  have hdigits : ∀ d ∈ c :: cs, d.isDigit = true := fun d hd => isDigit_of_mem_decimal (hcs ▸ hd)
  have hzero : c = '0' → cs = [] := by
    rintro rfl
    cases n with
    | zero => exact (List.cons.inj hcs).2.symm
    | succ n =>
      obtain ⟨d, ds, hds, hd⟩ := head_decimal (n + 1) (Nat.succ_pos n)
      exact absurd (List.cons.inj (hds.symm.trans hcs)).1 hd
  have hfind : defaultRules.find? (·.kind == "NUMBER") = some ⟨numberRegex, "NUMBER", .default⟩ := rfl
  rw [hcs]
  refine lexes_of_chooses _ find?_defaultMode (fun hmem => absurd (hdigits '\n' hmem) (by decide))
    fun back hback => Lexer.chooses_of_kind hfind (matchLength?_number hc
      (fun d hd => hdigits d (List.mem_cons_of_mem _ hd)) hzero ?_) fun r hr => ?_
  · rw [Ends, hback]
    exact hrest
  · have hlt : c.toNat < 128 := by
      have := isDigit_iff.mp hc
      omega
    have hfirst := earlier_rules.2.2 r hr c.toNat hlt
    rw [Char.ofNat_toNat] at hfirst
    exact Regex.matchLength?_eq_none (hfirst hc) _

/-- A decimal number is read as a literal of its value. -/
theorem readLiteral?_decimal {n : Nat} (h : n < 0x8000000000000000) :
    readLiteral? (String.ofList (Nat.toDigits 10 n)) = some (n : Int) := by
  -- no digit is a sign or the mark of another form
  have hdigits : ∀ c ∈ Nat.toDigits 10 n, c.isDigit = true := fun _ => isDigit_of_mem_decimal
  have hword : readWord64? 10 (Nat.toDigits 10 n) = some (n : Int) := by
    have hnatural : readNatural? 10 (Nat.toDigits 10 n) = some n := by
      rw [readNatural?, if_neg (by simp), readDigits?_decimal]
    have hrange : isWord64 (n : Int) = true := by
      rw [isWord64, Bool.and_eq_true, decide_eq_true_eq, decide_eq_true_eq]
      omega
    rw [readWord64?, hnatural]
    · rw [Option.map_some, Option.bind_some, checkWord64, Int.ofNat_eq_natCast, if_pos hrange]
    · intro rest heq
      exact absurd (hdigits '-' (by simp [heq])) (by decide)
    · intro rest heq
      exact absurd (hdigits '+' (by simp [heq])) (by decide)
  unfold readLiteral?
  rw [String.toList_ofList]
  split
  · rename_i heq
    exact absurd (hdigits 'x' (by simp [heq])) (by decide)
  · rename_i heq
    exact absurd (hdigits '$' (by simp [heq])) (by decide)
  · rename_i heq
    exact absurd (hdigits 'b' (by simp [heq])) (by decide)
  · exact hword

/-! ## 5. String literals -/

/-- The characters that stand for themselves in a string literal. -/
def plainChars : CharClass := .noneOf ['"', '\\', '\n']

/-- How a character is written in a string literal. -/
def escape (c : Char) : List Char :=
  if plainChars.contains c then [c] else if c = '\n' then ['\\', 'n'] else ['\\', c]

theorem special_cases {c : Char} (h : plainChars.contains c = false) : c = '"' ∨ c = '\\' ∨ c = '\n' := by
  rw [plainChars, CharClass.contains_noneOf, Bool.not_eq_false'] at h
  simpa using h

/-- How a character may be escaped in a string literal: by its letter, or by its number in two hexadecimal
digits. -/
inductive Escaped : Char → List Char → Prop
  | named {letter c : Char} : (letter, c) ∈ [('n', '\n'), ('t', '\t'), ('\\', '\\'), ('"', '"')] →
      Escaped c ['\\', letter]
  | numbered {high low : Char} {a b : Nat} : digitValue? 16 high = some a → digitValue? 16 low = some b →
      Escaped (Char.ofNat (a * 16 + b)) ['\\', 'x', high, low]

theorem escaped_escape {c : Char} (hc : plainChars.contains c = false) : Escaped c (escape c) := by
  rcases special_cases hc with rfl | rfl | rfl
  · exact .named (by decide)
  · exact .named (by decide)
  · exact .named (by decide)

theorem Escaped.length_pos {c : Char} {part : List Char} (h : Escaped c part) : 0 < part.length := by
  cases h <;> simp

theorem Escaped.head {c : Char} {part : List Char} (h : Escaped c part) : part.head? = some '\\' := by
  cases h <;> rfl

/-- What a string literal may have between its quotes: characters that stand for themselves, and escapes. -/
inductive Literal : List Char → List Char → Prop
  | nil : Literal [] []
  | plain {c : Char} {s body : List Char} : plainChars.contains c = true → Literal s body →
      Literal (c :: s) (c :: body)
  | escaped {c : Char} {s part body : List Char} : Escaped c part → Literal s body →
      Literal (c :: s) (part ++ body)

/-- Every text can be written with the shortest escapes. -/
theorem literal_escape : ∀ s : List Char, Literal s (s.flatMap escape)
  | [] => .nil
  | c :: s => by
    have ih := literal_escape s
    rw [List.flatMap_cons]
    cases hc : plainChars.contains c with
    | true =>
      rw [escape, if_pos hc]
      exact .plain hc ih
    | false => exact .escaped (escaped_escape hc) ih

/-- The characters that stand for themselves go as far as the first escape. -/
theorem Literal.span {s body : List Char} (h : Literal s body) : ∃ run s' body', s = run ++ s' ∧
    body = run ++ body' ∧ (∀ c ∈ run, plainChars.contains c = true) ∧
      (∀ c ∈ body'.head?, plainChars.contains c = false) ∧ Literal s' body' := by
  cases h with
  | nil => exact ⟨[], [], [], rfl, rfl, nofun, nofun, .nil⟩
  | plain hc h =>
    obtain ⟨run, s', body', rfl, rfl, hrun, hhead, h⟩ := h.span
    exact ⟨_ :: run, s', body', rfl, rfl, List.forall_mem_cons.mpr ⟨hc, hrun⟩, hhead, h⟩
  | escaped hpart h =>
    rename_i part body
    have hhead : (part ++ body).head? = some '\\' := by rw [List.head?_append, hpart.head, Option.some_or]
    have hstop : ∀ c ∈ (part ++ body).head?, plainChars.contains c = false := by
      rw [hhead]
      rintro _ ⟨⟩
      decide
    exact ⟨[], _, _, rfl, rfl, nofun, hstop, .escaped hpart h⟩

/-- What has a value as a hexadecimal digit is one. -/
theorem hexDigits_of_digitValue? {c : Char} {a : Nat} (h : digitValue? 16 c = some a) :
    hexDigits.contains c = true := by
  have hall : ∀ n < 128, (digitValue? 16 (Char.ofNat n)).isSome = true →
      hexDigits.contains (Char.ofNat n) = true := by decide
  have hc := hall c.toNat (toNat_lt_of_digitValue? h)
  rw [Char.ofNat_toNat, h] at hc
  exact hc rfl

/-- Escapes hold no line breaks. -/
theorem Escaped.newline_not_mem {c : Char} {part : List Char} (h : Escaped c part) : '\n' ∉ part := by
  cases h with
  | named hletter =>
    simp only [List.mem_cons, Prod.mk.injEq, List.not_mem_nil, or_false] at hletter
    rcases hletter with ⟨rfl, rfl⟩ | ⟨rfl, rfl⟩ | ⟨rfl, rfl⟩ | ⟨rfl, rfl⟩ <;> decide
  | numbered ha hb =>
    have hne : ∀ {d : Char} {n : Nat}, digitValue? 16 d = some n → '\n' ≠ d := by
      rintro _ _ hd rfl
      cases hd
    simp [hne ha, hne hb]

/-- The rule of escapes takes an escape as a whole. -/
theorem matchLength?_escaped {c : Char} {part : List Char} (h : Escaped c part) (rest : List Char) :
    escapeRegex.matchLength? (part ++ rest) = some (byteLength part) := by
  cases h with
  | named hletter =>
    have hall : ∀ entry ∈ [('n', '\n'), ('t', '\t'), ('\\', '\\'), ('"', '"')], ∀ rest,
        escapeRegex.matchLength? (['\\', entry.1] ++ rest) = some (byteLength ['\\', entry.1]) := by
      simp only [List.forall_mem_cons]
      refine ⟨?_, ?_, ?_, ?_, nofun⟩ <;> rintro (_ | _) <;> rfl
    exact hall _ hletter rest
  | @numbered high low a b ha hb =>
    have hbegin : escapeRegex.matchLength? (['\\', 'x', high, low] ++ rest) =
        Front.matchEnd? escapeRegex.program 2 none ⟨[4], [⟨hexDigits, 5⟩], false⟩ (high :: low :: rest) := rfl
    have hhigh := hexDigits_of_digitValue? ha
    have hlow := hexDigits_of_digitValue? hb
    rw [hbegin, Front.matchEnd?.eq_def]
    simp only [List.isEmpty_cons, Bool.false_eq_true, if_false, Front.after_single, hhigh, if_true]
    rw [Front.enter_read rfl, Front.matchEnd?.eq_def]
    simp only [List.isEmpty_cons, Bool.false_eq_true, if_false, Front.after_single, hlow, if_true]
    rw [Front.enter_end rfl, Front.matchEnd?_done rfl rfl]
    simp only [byteLength_cons, byteLength_nil, show '\\'.utf8Size = 1 from rfl, show 'x'.utf8Size = 1 from rfl]
    rw [← Nat.add_assoc, ← Nat.add_assoc, ← Nat.add_assoc, Nat.add_zero]

/-- **Escapes.** -/
theorem lexes_escaped {c : Char} {part : List Char} (h : Escaped c part) (rest : List Char) :
    Lexes lexer stringMode part rest (.kind "ESCAPE") .default := by
  have hfind : stringRules.find? (·.kind == "ESCAPE") = some ⟨escapeRegex, "ESCAPE", .default⟩ := rfl
  have hbefore : stringRules.takeWhile (·.kind != "ESCAPE") = [] := rfl
  refine lexes_of_chooses ⟨escapeRegex, "ESCAPE", .default⟩ find?_stringMode ?_ fun back _ => ?_
  · exact h.newline_not_mem
  · obtain ⟨c, cs, rfl⟩ := List.exists_cons_of_length_pos h.length_pos
    exact Lexer.chooses_of_kind hfind (matchLength?_escaped h back) (by simp [hbefore])

/-- An escape is read as the character that it stands for. -/
theorem escapeOf_escaped {c : Char} {part : List Char} (h : Escaped c part) {token : Token}
    (htext : token.text = String.ofList part) : escapeOf token = .ok c := by
  rw [escapeOf, htext, String.toList_ofList]
  cases h with
  | named hletter =>
    simp only [List.mem_cons, Prod.mk.injEq, List.not_mem_nil, or_false] at hletter
    rcases hletter with ⟨rfl, rfl⟩ | ⟨rfl, rfl⟩ | ⟨rfl, rfl⟩ | ⟨rfl, rfl⟩ <;> rfl
  | numbered ha hb => simp [readUnsigned?_digits ha hb]

/-- **The text between escapes.** -/
theorem lexes_stringText {c : Char} {run rest : List Char} (hc : plainChars.contains c = true)
    (hrun : ∀ d ∈ run, plainChars.contains d = true) (hrest : ∀ d ∈ rest.head?, plainChars.contains d = false) :
    Lexes lexer stringMode (c :: run) rest (.kind "STRING_TEXT") .default := by
  have hfind : stringRules.find? (·.kind == "STRING_TEXT") =
      some ⟨.atLeastOne (.one plainChars), "STRING_TEXT", .default⟩ := rfl
  have hbefore : stringRules.takeWhile (·.kind != "STRING_TEXT") = [⟨escapeRegex, "ESCAPE", .default⟩] := rfl
  have hplain : ∀ d ∈ c :: run, plainChars.contains d = true := List.forall_mem_cons.mpr ⟨hc, hrun⟩
  have hbreak : '\n' ∉ c :: run := fun hmem => absurd (hplain '\n' hmem) (by decide)
  refine lexes_of_chooses _ find?_stringMode hbreak fun back hback =>
    Lexer.chooses_of_kind hfind (Regex.matchLength?_run hc hrun (hback ▸ hrest)) ?_
  rw [hbefore]
  simp only [List.mem_singleton, forall_eq]
  refine Regex.matchLength?_eq_none ?_ _
  have hne : c ≠ '\\' := by
    rintro rfl
    exact absurd hc (by decide)
  have henter : Front.enter escapeRegex.program none (some c) 0 = ⟨[0], [⟨.single '\\', 1⟩], false⟩ := rfl
  simp [Regex.refuses, henter, CharClass.contains_single, hne]

/-- **The end of a literal.** -/
theorem lexes_closing (rest : List Char) : Lexes lexer stringMode ['"'] rest (.kind "\"") .default := by
  have hfind : stringRules.find? (·.kind == "\"") = some ⟨.literal "\"", "\"", .default⟩ := rfl
  have hbefore : ∀ r ∈ stringRules.takeWhile (·.kind != "\""), r.regex.refuses '"' = true := by
    decide
  exact lexes_of_chooses _ find?_stringMode (by decide) fun back _ =>
    Lexer.chooses_of_kind hfind (@Regex.matchLength?_literal "\"" (by decide) back)
      fun r hr => Regex.matchLength?_eq_none (hbefore r hr) _

end Language

end Lode
