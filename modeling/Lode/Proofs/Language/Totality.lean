/-
# Reading is total

Every text is read or refused for a reason that lies in the text (`read_total`): a character that begins no
token, a literal that cannot be read, a token that was not expected, or a delimiter that was never closed.

Three things come together here, and each excludes one kind of internal error.

1. In each of the three modes some rule takes every character, and no other mode is ever asked for.  So the
   lexer never stands in front of a text without a token (`exists_next`).
2. The rules of the grammar fit their weights: a reduction makes the stack lighter, and a token weighs less
   on it than its bytes are worth in the text.  So the budget of steps is large enough for every text
   (`exists_weighed`).
3. A reduction finds at its slots what it expects there, so the builder fails at most for a literal
   (`refused_step`).

The parser of block comments is a parser of its own, and may be started anywhere in the text.  That it comes
to something is shown first (`comments_alone`), with weights for its own rules; to the parser of the
language it is then a step that takes some of the text.
-/
import Lode.Proofs.Language.Precedence
import Lode.Proofs.Language.Trees
import Lode.Proofs.Language.Words
import Lode.Proofs.Parser.Endings
import Lode.Proofs.Parser.Spans
import Lode.Proofs.Text.Utf8

namespace Lode

/-! ## 1. Every character is taken -/

namespace Regex

/-- A match begins with a character, whatever comes after it. -/
def Begins (r : Regex) (c : Char) : Prop := ∀ rest, ∃ n, 0 < n ∧ r.matchLength? (c :: rest) = some n

variable {cls : CharClass} {c : Char}

theorem begins_one (hc : cls.contains c = true) : (one cls).Begins c :=
  fun rest => ⟨c.utf8Size, Char.utf8Size_pos c, matchLength?_one hc rest⟩

/-- A run of a class begins with each of its characters. -/
theorem begins_run (hc : cls.contains c = true) : (atLeastOne (one cls)).Begins c := by
  intro rest
  have hrun : ∀ d ∈ rest.takeWhile cls.contains, cls.contains d = true :=
    List.all_eq_true.mp List.all_takeWhile
  have hrest : ∀ d ∈ (rest.dropWhile cls.contains).head?, cls.contains d = false := by
    intro d hd
    have hnot := List.head?_dropWhile_not cls.contains rest
    rw [Option.mem_def.mp hd] at hnot
    simpa using hnot
  have hmatch := matchLength?_run hc hrun hrest
  rw [List.cons_append, List.takeWhile_append_dropWhile] at hmatch
  exact ⟨_, byteLength_pos (List.cons_ne_nil _ _), hmatch⟩

end Regex

/-- A rule is chosen if one of them begins with the first character. -/
theorem Lexer.exists_choose? {c : Char} (rest : List Char) : ∀ {rules : List LexRule},
    (∃ rule ∈ rules, rule.regex.Begins c) → ∃ choice, choose? (c :: rest) rules = some choice
  | rule :: rules, ⟨other, hmem, hbegins⟩ => by
    rw [choose?]
    cases hmatch : (rule.regex.matchLength? (c :: rest)).filter (0 < ·) with
    | some length => exact ⟨_, rfl⟩
    | none =>
      rcases List.mem_cons.mp hmem with rfl | hmem
      · obtain ⟨n, hpos, hn⟩ := hbegins rest
        rw [hn, Option.filter_some, if_pos (decide_eq_true hpos)] at hmatch
        cases hmatch
      · exact exists_choose? rest ⟨other, hmem, hbegins⟩

namespace Language

/-- The modes in which the language is read. -/
def modes : List String := [defaultMode, stringMode, commentMode]

/-- In every mode some rule begins with any given character. -/
theorem exists_begins {mode : String} (h : mode ∈ modes) (c : Char) : ∃ rules,
    Sorted.find? mode lexer.modes = some rules ∧ ∃ rule ∈ rules, rule.regex.Begins c := by
  simp only [modes, List.mem_cons, List.not_mem_nil, or_false] at h
  rcases h with rfl | rfl | rfl
  · refine ⟨defaultRules, rfl, ?_⟩
    by_cases hc : c = '\n'
    · refine ⟨_, List.mem_of_mem_head? rfl, Regex.begins_run ?_⟩
      subst hc
      simp [CharClass.contains, ClassItem.contains, isSpace_eq, spaceRanges]
    · refine ⟨_, List.mem_of_getLast? rfl, Regex.begins_one ?_⟩
      rw [CharClass.contains_noneOf]
      simpa using hc
  · exact ⟨stringRules, rfl, _, List.mem_of_getLast? rfl, Regex.begins_one rfl⟩
  · refine ⟨commentRules, rfl, ?_⟩
    cases hc : ['*', '/'].contains c with
    | true =>
      refine ⟨_, List.mem_of_getLast? rfl, Regex.begins_one ?_⟩
      rw [CharClass.contains_oneOf, hc]
    | false =>
      refine ⟨_, List.mem_of_getElem? (i := 2) rfl, Regex.begins_run ?_⟩
      rw [CharClass.contains_noneOf, hc]
      rfl

/-- **There is always a next token.** -/
theorem exists_next {mode : String} (h : mode ∈ modes) {s : Stream} (hlined : s.cursor.Lined) :
    ∃ token s', lexer.next mode s = .ok (token, s') := by
  cases hunread : s.cursor.unread with
  | nil => exact ⟨_, _, by rw [Lexer.next, Stream.atEnd, hunread, List.isEmpty_nil, if_pos rfl]⟩
  | cons line lines =>
    cases line with
    | nil => exact absurd rfl (hlined.ne_nil _ (by rw [hunread]; exact List.mem_cons_self))
    | cons c rest =>
      obtain ⟨rules, hrules, hbegins⟩ := exists_begins h c
      obtain ⟨⟨rule, length⟩, hchoose⟩ := Lexer.exists_choose? rest hbegins
      obtain ⟨-, front, back, hline, -, hchooses⟩ := Lexer.exists_chooses hchoose
      rw [hline] at hunread
      obtain ⟨token, s', hnext, -⟩ := Lexer.exists_next hunread hrules hchooses
      exact ⟨token, s', hnext⟩

/-! ## 2. Weights -/

/-- Weights by names of nonterminals.  Tokens weigh five, and as much again on top. -/
def weightsOf (below spare credit : List (String × Nat)) (bottom : Nat) : Weights where
  below X := X.nonterminal?.elim 5 fun name => (below.lookup name).getD 0
  spare X := X.nonterminal?.elim 5 fun name => (spare.lookup name).getD 0
  credit name := (credit.lookup name).getD 0
  bottom := bottom

/-- The weights of the symbols of source units. -/
def unitWeights : Weights := weightsOf
  [("item_list", 1), ("item", 1), ("let_decl", 2), ("param_list", 1), ("params", 2), ("param", 3), ("ret", 1),
    ("storage", 1), ("stmt_list", 1), ("stmt", 1), ("lvalue", 1), ("address", 1), ("type", 4), ("expr", 3),
    ("postfix", 4), ("call", 5), ("arg_list", 1), ("args", 2), ("string_lit", 4), ("string_body", 1)]
  [("ret", 2)]
  [("program", 2), ("item_list", 2), ("param_list", 2), ("ret", 4), ("storage", 2), ("stmt_list", 2),
    ("arg_list", 2), ("string_body", 2)] 2

/-- The weights of the symbols of block comments. -/
def commentWeights : Weights := weightsOf [("block", 1), ("comment_body", 1)] [] [("comment_body", 2)] 0

/-- What a byte of the text is worth: more than a token on top of the stack. -/
def byteWeight : Nat := 11

theorem fits_unitWeights : unitWeights.Fits "program" unitRules := by decide

theorem fits_commentWeights : commentWeights.Fits "comment" blockCommentRules := by decide

/-- A parser with tables of rules whose symbols have weights that fit, and which ask for no other modes. -/
theorem weighed_of_rules {p : Parser} {name : String} {rules : List Rule} {ends : List Terminal} {g : Grammar}
    {table : ParseTable} (hg : Grammar.ofRules name rules ends = .ok g)
    (htable : ParseTable.ofGrammar g = .ok table) (hp : p.table = table)
    (hrules : ∀ X ∈ Grammar.rhsSymbols rules, X ≠ .nonterminal name ∧ X ≠ .terminal .empty ∧ X ≠ .terminal .eof)
    (hmodes : ∀ rule ∈ rules, ∀ mode ∈ rule.mode, mode ∈ modes)
    {w : Weights} (hfits : w.Fits name rules) (hbyte : ∀ t, w.top (.terminal t) < byteWeight) :
    ∃ a, Parser.Weighed p g a w byteWeight ∧
      ∀ {base mode}, base ∈ modes → p.ReadsIn base mode → mode ∈ modes := by
  obtain ⟨a, paths, m⟩ := ParseTable.made_ofGrammar (Grammar.proper_ofRules hg) (hp.symm ▸ htable)
  obtain ⟨rfl, rfl, _, _⟩ := Grammar.ofRules_eq hg
  refine ⟨a, ⟨⟨paths, m⟩, fun h => (hrules _ h).1 rfl, fun h => (hrules _ h).2.1 rfl,
    fun h => (hrules _ h).2.2 rfl, hfits, hbyte⟩, ?_⟩
  rintro base mode hbase (rfl | ⟨s, hs⟩)
  · exact hbase
  · obtain ⟨rule, hmem, hrule⟩ := m.exists_mode hs
    exact hmodes rule hmem mode hrule

/-! ## 3. Causes -/

/-- The reasons for refusing a text. -/
def Refused (e : Error) : Prop := e.kind = .lex ∨ e.kind = .unexpectedToken ∨ e.kind = .unclosed

section Causes

variable {V σ : Type} {g : Grammar} {p : Parser} {base : String} {delegate : Parser.Delegate}
  {build : Builder V σ} {good : Grown V → Prop} {run : Parser.Run V} {e : Error}

/-- A token that is not expected is a reason to refuse. -/
theorem refused_unexpected (stack : List (Parser.Frame V)) (token : Token) :
    Refused (p.unexpected stack token) := by
  unfold Parser.unexpected
  split
  · exact .inl rfl
  · split
    · split
      · exact .inr (.inr rfl)
      · exact .inr (.inl rfl)
    · exact .inr (.inl rfl)

/-- A step of a parser fails for a reason that lies in the text, if that is so of the builder and of the
parsers of other channels. -/
theorem refused_step (hmodes : ∀ mode, p.ReadsIn base mode → mode ∈ modes)
    (hbuild : ∀ {r parts state state' e}, Reduces g r parts → (∀ c ∈ parts, good c) →
      build r state = (.error e, state') → Refused e)
    (hinner : ∀ {name other}, p.inner? name = some other → ∀ {mode stream after e}, mode ∈ modes →
      stream.cursor.Lined → delegate other mode stream = (.error e, after) → Refused e)
    (hheld : run.Held) (h : Parser.StepFailure g lexer delegate p base build good run e) : Refused e := by
  have hmode := hmodes _ (Parser.readsIn_modeOver p base run.stack)
  cases h with
  | lexing hnext =>
    obtain ⟨token, s', hok⟩ := exists_next hmode hheld.lined
    cases hok.symm.trans hnext
  | building hred hgood hfail => exact hbuild hred hgood hfail
  | unexpected token => exact refused_unexpected _ token
  | inner hother hfail hcursor => exact hinner hother hmode (hcursor ▸ hheld.lined) hfail

end Causes

/-! ## 4. The parsers of the language -/

theorem parser_eq {p : Parser} (hp : parser = .ok p) : ∃ comments table, commentTable = .ok comments ∧
    unitTable = .ok table ∧ p = (Parser.ofTable table .default unitDelimiters).withInner commentChannel
      (Parser.ofTable comments (.hidden commentChannel) commentDelimiters) := by
  obtain ⟨comments, hcomments, hp⟩ := bind_eq_ok.mp hp
  obtain ⟨table, htable, hp⟩ := bind_eq_ok.mp hp
  exact ⟨comments, table, hcomments, htable, (Except.ok.inj hp).symm⟩

/-- The only other parser is that of block comments. -/
theorem inner?_language {p other : Parser} (hp : parser = .ok p) {name : String} (hother : p.inner? name = some other) :
    name = commentChannel ∧ ∃ comments, commentTable = .ok comments ∧
      other = Parser.ofTable comments (.hidden commentChannel) commentDelimiters := by
  obtain ⟨comments, table, hcomments, -, rfl⟩ := parser_eq hp
  obtain ⟨hname, hother⟩ := Prod.mk.inj (List.mem_singleton.mp (Sorted.mem_of_find? hother))
  exact ⟨hname, comments, hcomments, hother⟩

/-- **The parser of block comments** comes to something on every text, and refuses only for a reason that
lies in the text. -/
theorem comments_alone {comments : ParseTable} (h : commentTable = .ok comments) :
    let other := Parser.ofTable comments (.hidden commentChannel) commentDelimiters
    other.Alone byteWeight 1 ∧ ∀ {mode stream after e}, mode ∈ modes → stream.cursor.Lined →
      Parser.settled lexer byteWeight 1 other mode stream = (.error e, after) → Refused e := by
  intro other
  obtain ⟨g, hg, htable⟩ := bind_eq_ok.mp (show commentGrammar >>= ParseTable.ofGrammar = _ from h)
  obtain ⟨a, hweighed, hmodes⟩ := weighed_of_rules (p := other) hg htable rfl (by decide)
    (by decide) fits_commentWeights fun _ => (by decide : 10 < 11)
  have hbottom : commentWeights.bottom < commentWeights.leastRow (g.rule g.startRule).rhs := by
    have hproper := Grammar.proper_ofRules hg
    obtain ⟨hname, hrules, -, -⟩ := Grammar.ofRules_eq hg
    have hstart : ∀ rule ∈ blockCommentRules, rule.lhs = "comment" →
      commentWeights.bottom < commentWeights.leastRow rule.rhs := by decide
    exact hstart _ (hrules ▸ Grammar.rule_mem hproper.startRule_lt) (hname ▸ hproper.lhs_startRule)
  have halone : other.Alone byteWeight 1 := ⟨fun _ => rfl, g, a, commentWeights, hweighed, by decide, hbottom⟩
  refine ⟨halone, fun hmode hlined hfail => ?_⟩
  obtain ⟨_, run, hheld, hfailure⟩ := halone.failure hlined hfail
  refine refused_step (fun _ => hmodes hmode) ?_ ?_ hheld hfailure
  · intro r parts state state' e _ _ hbuild
    cases hbuild
  · intro name other' hother
    cases hother

/-! ## 5. Whole texts -/

/-- What the parser refuses is not read. -/
theorem read_eq_error {p : Parser} (hp : parser = .ok p) {text : String} {e : Error}
    (h : (p.parse lexer (stepBudget text) defaultMode builder (.ofText text) ()).1 = .error e) :
    read text = .error e := by
  rw [read, hp, ok_bind, show p.parse lexer (stepBudget text) defaultMode (fun r _ => (build r, ()))
    (.ofText text) () = p.parse lexer (stepBudget text) defaultMode builder (.ofText text) () from rfl]
  generalize p.parse lexer (stepBudget text) defaultMode builder (.ofText text) () = parsed at h
  obtain ⟨result, stream, state⟩ := parsed
  obtain rfl : result = .error e := h
  rfl

/-- The parser of the language has weights that fit, and asks for no other modes. -/
theorem exists_weighed {p : Parser} (hp : parser = .ok p) : ∃ g a, g.rules = unitRules ∧
    Parser.Weighed p g a unitWeights byteWeight ∧ ∀ mode, p.ReadsIn defaultMode mode → mode ∈ modes := by
  obtain ⟨comments, table, -, htable, rfl⟩ := parser_eq hp
  obtain ⟨g, hg, htable⟩ := bind_eq_ok.mp (show unitGrammar >>= ParseTable.ofGrammar = _ from htable)
  obtain ⟨a, hweighed, hmodes⟩ := weighed_of_rules hg htable
    (p := (Parser.ofTable table .default unitDelimiters).withInner commentChannel
      (Parser.ofTable comments (.hidden commentChannel) commentDelimiters)) rfl (by decide +kernel)
    (by decide) fits_unitWeights fun _ => (by decide : 10 < 11)
  exact ⟨g, a, (Grammar.ofRules_eq hg).2.1, hweighed, fun _ => hmodes (by decide)⟩

/-- The parser of comments may be relied on where the parser of the language calls it. -/
theorem delegates_language {p : Parser} (hp : parser = .ok p) :
    Parser.Delegates lexer p byteWeight 1 (Parser.settled lexer byteWeight 1) := by
  refine Parser.delegates_settled fun hother => ?_
  obtain ⟨-, comments, hcomments, rfl⟩ := inner?_language hp hother
  exact (comments_alone hcomments).1

/-- What the parser of the language comes to on a text.  The budget is large enough for every text. -/
theorem ends_parse {p : Parser} (hp : parser = .ok p) (text : String) :
    Parser.Ends (Parser.settled lexer byteWeight 1) lexer p defaultMode builder (Parser.start (.ofText text)) ()
      (p.parse lexer (stepBudget text) defaultMode builder (.ofText text) ()) := by
  obtain ⟨g, a, hrules, hweighed, -⟩ := exists_weighed hp
  refine Parser.drive_ends hweighed (delegates_language hp) (respects hrules) (Parser.stands_start _)
    (Parser.Run.held_of_none rfl (Stream.lined_ofText text).1) ?_
  have hsize := (Stream.ofText text).cursor.size_eq
  rw [(Stream.lined_ofText text).2, byteLength_toList] at hsize
  rw [Parser.potential_start, hsize, stepBudget, byteWeight, show unitWeights.bottom = 2 from rfl]
  omega

/-- Whatever the parser of the language refuses, it refuses for a reason that lies in the text. -/
theorem refused_parse {p : Parser} (hp : parser = .ok p) {text : String} {e : Error}
    (h : (p.parse lexer (stepBudget text) defaultMode builder (.ofText text) ()).1 = .error e) : Refused e := by
  obtain ⟨g, a, hrules, hweighed, hmodes⟩ := exists_weighed hp
  have hends := ends_parse hp text
  generalize p.parse lexer (stepBudget text) defaultMode builder (.ofText text) () = parsed at h hends
  obtain ⟨result, stream, state⟩ := parsed
  obtain rfl : result = .error e := h
  obtain ⟨run, hheld, hfailure⟩ := hends.failure hweighed (delegates_language hp) (respects hrules)
    (Parser.stands_start _) (Parser.Run.held_of_none rfl (Stream.lined_ofText text).1)
  refine refused_step hmodes ?_ ?_ hheld hfailure
  · intro r parts state state' e hred hgood hbuild
    have hbuilt := built_reduction hrules hred hgood
    rw [(Prod.mk.inj hbuild).1] at hbuilt
    cases hbuilt with
    | unreadable hkind => exact .inl hkind
  · intro name other hother
    obtain ⟨-, comments, hcomments, rfl⟩ := inner?_language hp hother
    exact (comments_alone hcomments).2

/-- **Reading is total.**  Every text is read as a unit, or refused for a reason that lies in the text; and
no place that is worked with on the way ends before it begins, so it does not matter what the builders of
both parsers do with such places. -/
theorem read_total (text : String) :
    ((∃ n, read text = .ok n ∧ n.tag = .unit) ∨ ∃ e, read text = .error e ∧ Refused e) ∧
    (∀ mode s token s', lexer.next mode s = .ok (token, s') → token.span.Ordered) ∧
    ∃ p comments, parser = .ok p ∧ p.inner? commentChannel = some comments ∧
      (∀ build, Parser.AgreeOrdered builder build →
        p.parse lexer (stepBudget text) defaultMode builder (.ofText text) () =
          p.parse lexer (stepBudget text) defaultMode build (.ofText text) ()) ∧
      ∀ build, Parser.AgreeOrdered Parser.forget build → ∀ fuel mode stream,
        comments.parse lexer fuel mode Parser.forget stream () = comments.parse lexer fuel mode build stream () := by
  obtain ⟨p, hp, hreads⟩ := exists_reads
  obtain ⟨comments, table, -, -, hparser⟩ := parser_eq hp
  refine ⟨?_, fun _ _ _ _ => Lexer.ordered_next, p, _, hp, by rw [hparser]; rfl,
    fun build h => Parser.parse_congr h _ _ (), fun build h _ _ _ => Parser.parse_congr h _ _ ()⟩
  cases hresult : (p.parse lexer (stepBudget text) defaultMode builder (.ofText text) ()).1 with
  | ok v =>
    obtain ⟨program, -, rfl⟩ := parse_written hp hresult
    exact .inl ⟨program.node, (read_eq_ok_iff hp).mpr hresult, rfl⟩
  | error e => exact .inr ⟨e, read_eq_error hp hresult, refused_parse hp hresult⟩

end Language

end Lode
