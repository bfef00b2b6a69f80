/-
# What the lexer takes in front of a seam

A text is cut in two between tokens, and a block comment is put into the gap.  The tokens in front of the
gap are still taken as they were: a comment begins with a slash, which no token in front of it takes as well
(`next_seam`).

A rule may look at what follows a token, and the first rule with a match decides.  So it is not enough that
the match of the chosen rule stays: the rules before it must have no match now that they had not before.
Both are shown rule by rule (`defaultRules_cases`).  Most rules do not read a slash and do not ask for the
border of a word, and for them the matcher runs to the same end (`none_of_stops`, `match_of_stops`).

Two kinds of rules look at what follows a token.  Reserved words end where a word ends, and behind the gap a
word may begin; but then what stands in front of the gap would not be a token of its own.  A line comment
and the text of a string go on to the end of the line or of the string, so the gap does not follow them at
once.  The rules of comments themselves begin with a slash, and a single slash in front of the gap is no
token that the tables take.
-/
import Lode.Proofs.Language.Comments
import Lode.Proofs.Parser.Alike
import Lode.Proofs.Regex.Matching

namespace Lode

/-! ## 1. Lines and choices -/

/-- A text with a line break begins with a line. -/
theorem splitLines_line {front : List Char} (hfront : '\n' ∉ front) (text : List Char) :
    splitLines (front ++ '\n' :: text) = (front ++ ['\n']) :: splitLines text := by
  induction front with
  | nil => exact splitLines_newline text
  | cons c front ih =>
    have hc : c ≠ '\n' := fun hc => hfront (by simp [hc])
    rw [List.cons_append, splitLines_cons hc, ih fun h => hfront (List.mem_cons_of_mem _ h)]
    rfl

namespace Lexer

variable {line line' : List Char} {rule : LexRule} {n : Nat}

/-- The first rule of two lists is that of the first one, if there is any. -/
theorem choose?_append (line : List Char) (rules more : List LexRule) :
    choose? line (rules ++ more) = (choose? line rules).or (choose? line more) := by
  induction rules with
  | nil => rfl
  | cons rule rules ih =>
    rw [List.cons_append, choose?, choose?, ih]
    cases (rule.regex.matchLength? line).filter (0 < ·) <;> rfl

/-- The choice is the same for another line, if what has no match has none there either, and what is chosen
has the same match there. -/
theorem choose?_congr {rules : List LexRule} (h : choose? line rules = some (rule, n))
    (hnone : ∀ r ∈ rules, (r.regex.matchLength? line).filter (0 < ·) = none →
      (r.regex.matchLength? line').filter (0 < ·) = none)
    (hrule : rule.regex.matchLength? line' = some n) : choose? line' rules = some (rule, n) := by
  induction rules with
  | nil => cases h
  | cons first rules ih =>
    rw [choose?] at h
    cases hmatch : (first.regex.matchLength? line).filter (0 < ·) with
    | none =>
      rw [hmatch] at h
      rw [choose?, hnone first List.mem_cons_self hmatch]
      exact ih h fun r hr => hnone r (List.mem_cons_of_mem _ hr)
    | some length =>
      rw [hmatch] at h
      obtain ⟨rfl, rfl⟩ := Prod.mk.inj (Option.some.inj h)
      obtain ⟨-, hpos⟩ := Option.filter_eq_some_iff.mp hmatch
      exact choose?_here hrule (of_decide_eq_true hpos) _

end Lexer

namespace Language

/-! ## 2. The rules of ordinary text -/

/-- A line comment. -/
def lineComment : Regex := .seq (.literal "//") (.many (.one (.noneOf ['\n'])))

theorem spells_lineComment : Front.Spells lineComment.program 0 ['/', '/'] := by
  intro i c hc
  match i, hc with
  | 0, hc => obtain rfl := Option.some.inj hc; rfl
  | 1, hc => obtain rfl := Option.some.inj hc; rfl

/-- **A line comment** goes on to the end of the line. -/
theorem matchLength?_lineComment (tail : List Char) : lineComment.matchLength? ('/' :: '/' :: tail) =
    some (byteLength ('/' :: '/' :: tail.takeWhile (CharClass.noneOf ['\n']).contains)) := by
  have hloop : Front.Loops lineComment.program (.noneOf ['\n']) 4 := fun _ _ => ⟨rfl, rfl⟩
  have hspells := @Front.matchEnd?_spells _ _ 0 0 none spells_lineComment tail
  have hrun := Regex.forall_takeWhile (.noneOf ['\n']) tail
  have hrest := Regex.head_dropWhile (.noneOf ['\n']) tail
  rw [Regex.matchLength?_eq, show '/' :: '/' :: tail = ['/', '/'] ++ tail from rfl, hspells,
    ← List.takeWhile_append_dropWhile (p := (CharClass.noneOf ['\n']).contains) (l := tail),
    Front.matchEnd?_loop hloop hrest hrun rfl rfl, List.takeWhile_append_dropWhile]
  simp only [byteLength_cons, byteLength_nil, Nat.zero_add, Nat.add_zero, Nat.add_assoc]

theorem matchLength?_lineComment_none {line : List Char} (h : ¬ ['/', '/'] <+: line) :
    lineComment.matchLength? line = none := Front.matchEnd?_spells_none spells_lineComment h

theorem matchLength?_opening_none {line : List Char} (h : ¬ ['/', '*'] <+: line) :
    (Regex.literal "/*").matchLength? line = none := Regex.matchLength?_literal_none (by decide) h

/-- Whether no instruction reads a slash or asks for a border. -/
def stopsAtSlash (r : Regex) : Bool := r.program.all (·.avoids '/') && r.program.all (·.free)

section Stops

variable {r : Regex} (h : stopsAtSlash r = true) {front gap rest other : List Char}
include h

/-- A rule that stops at slashes finds no new match. -/
theorem none_of_stops (hnone : (r.matchLength? (front ++ (gap ++ rest))).filter (0 < ·) = none) :
    (r.matchLength? (front ++ (gap ++ '/' :: other))).filter (0 < ·) = none := by
  obtain ⟨havoids, hfree⟩ := Bool.and_eq_true_iff.mp h
  rw [← List.append_assoc] at hnone ⊢
  rw [Regex.matchLength?_cut havoids hfree ?_ other, hnone]
  intro n hn
  have hzero := Option.filter_eq_none_iff.mp hnone n hn
  simp only [decide_eq_true_eq] at hzero
  omega

/-- A rule that stops at slashes keeps its match. -/
theorem match_of_stops (hmatch : r.matchLength? (front ++ (gap ++ rest)) = some (byteLength front)) :
    r.matchLength? (front ++ (gap ++ '/' :: other)) = some (byteLength front) := by
  obtain ⟨havoids, hfree⟩ := Bool.and_eq_true_iff.mp h
  rw [← List.append_assoc] at hmatch ⊢
  rw [Regex.matchLength?_cut havoids hfree ?_ other, hmatch]
  intro n hn
  obtain rfl := Option.some.inj (hmatch.symm.trans hn)
  rw [byteLength_append]
  omega

end Stops

/-- The rules of ordinary text, by what they do at a slash. -/
theorem defaultRules_cases : ∀ r ∈ defaultRules, stopsAtSlash r.regex = true ∨
    (r.kind ∈ reserved ∧ r.regex = wordRegex r.kind) ∨ r.regex = lineComment ∨ r.regex = .literal "/*" ∨
    (r.kind = "invalid" ∧ r.regex = .one (.noneOf ['\n'])) := by
  decide +kernel

theorem avoids_reserved : ∀ word ∈ reserved, (wordRegex word).program.all (·.avoids '/') = true ∧
    '/' ∉ word.toList := by
  simp only [← Array.all_toList]
  decide

theorem reserved_starts : ∀ word ∈ reserved, word.toList.head?.all nameStart.contains = true := by
  decide

theorem slash_not_word : isWordChar '/' = false := by decide

/-- What may follow a token: not the end of the line, and of the characters of words only those of names. -/
def Opens (cs : List Char) : Prop := ∃ c ∈ cs.head?, c ≠ '\n' ∧ (isWordChar c = true → nameRest.contains c = true)

/-- Whether there are only characters of ASCII among those of a class item. -/
def isAsciiItem : ClassItem → Bool
  | .range _ last => last.toNat < 128
  | .space => false

/-- Whether an instruction reads only characters of ASCII. -/
def isAscii : Instruction → Bool
  | .read cls _ => !cls.negated && cls.items.all isAsciiItem
  | _ => true

/-- An instruction for ASCII reads no other characters. -/
theorem avoids_of_isAscii {i : Instruction} (h : isAscii i = true) {c : Char} (hc : 128 ≤ c.toNat) :
    i.avoids c = true := by
  cases i with
  | read cls next =>
    obtain ⟨negated, items⟩ := cls
    simp only [isAscii, Bool.and_eq_true, Bool.not_eq_true', List.all_eq_true] at h
    obtain ⟨rfl, hitems⟩ := h
    rw [Instruction.avoids, contains_items, Bool.not_eq_true', List.any_eq_false]
    intro item hitem hcontains
    have hascii := hitems item hitem
    cases item with
    | space => cases hascii
    | range first last =>
      have hle : c.toNat ≤ last.toNat :=
        (by simpa [ClassItem.contains] using hcontains : first ≤ c ∧ c ≤ last).2
      have hlast : last.toNat < 128 := of_decide_eq_true hascii
      omega
  | _ => rfl

/-- Tokens for the tables hold no line breaks, and nothing but characters of ASCII. -/
theorem shown_rules : ∀ r ∈ defaultRules, r.channel = .default → r.kind ≠ "invalid" →
    r.regex.program.all (·.avoids '\n') = true ∧ r.regex.program.all isAscii = true := by
  simp only [← Array.all_toList]
  decide

theorem nameRest_of_isWordChar : ∀ n < 128, isWordChar (Char.ofNat n) = true →
    nameRest.contains (Char.ofNat n) = true := by
  decide

/-- A token for the tables may follow another token. -/
theorem opens_of_chooses {front back : List Char} {rule : LexRule} (hmem : rule ∈ defaultRules)
    (hchannel : rule.channel = .default) (hvalid : rule.kind ≠ "invalid")
    (hchooses : Lexer.Chooses defaultRules front back rule) : Opens (front ++ back) := by
  obtain ⟨hbreak, hascii⟩ := shown_rules rule hmem hchannel hvalid
  obtain ⟨-, hmatch, -⟩ := Lexer.choose?_eq_some hchooses.choose
  obtain ⟨c, cs, rfl⟩ := List.exists_cons_of_ne_nil hchooses.ne_nil
  refine ⟨c, rfl, ?_, fun hword => ?_⟩
  · rintro rfl
    exact Regex.not_mem_of_matchLength? hbreak hmatch List.mem_cons_self
  · have hlt : c.toNat < 128 := by
      by_contra hge
      refine Regex.not_mem_of_matchLength? (Array.all_eq_true_iff_forall_mem.mpr fun i hi => ?_) hmatch
        (List.mem_cons_self (a := c))
      exact avoids_of_isAscii (Array.all_eq_true_iff_forall_mem.mp hascii i hi) (Nat.le_of_not_lt hge)
    have hname := nameRest_of_isWordChar c.toNat hlt
    rw [Char.ofNat_toNat] at hname
    exact hname hword

/-! ## 3. Tokens of ordinary text -/

section Ordinary

variable {front gap rest other : List Char} {rule : LexRule}

/-- What is taken from the front of a line, where the gap stands behind what is left of the front. -/
structure Cuts (front gap rest : List Char) (rule : LexRule) : Prop where
  ne_nil : front ≠ []
  choose : Lexer.choose? (front ++ (gap ++ rest)) defaultRules = some (rule, byteLength front)
  valid : rule.kind ≠ "invalid"
  unbroken : '\n' ∉ front ++ gap
  opens : gap = [] → Opens rest

variable (h : Cuts front gap rest rule)
include h

theorem Cuts.matches : rule ∈ defaultRules ∧
    rule.regex.matchLength? (front ++ (gap ++ rest)) = some (byteLength front) := by
  obtain ⟨hmem, hmatch, -⟩ := Lexer.choose?_eq_some h.choose
  exact ⟨hmem, hmatch⟩

/-- No rule takes a slash alone but that of characters which begin no token. -/
theorem Cuts.ne_slash : front ≠ ['/'] := by
  rintro rfl
  obtain ⟨hmem, hmatch⟩ := h.matches
  rcases defaultRules_cases rule hmem with hstops | ⟨hkind, hregex⟩ | hregex | hregex | ⟨hkind, -⟩
  · obtain ⟨havoids, -⟩ := Bool.and_eq_true_iff.mp hstops
    exact Regex.not_mem_of_matchLength? havoids hmatch List.mem_cons_self
  · rw [hregex] at hmatch
    exact Regex.not_mem_of_matchLength? (avoids_reserved _ hkind).1 hmatch List.mem_cons_self
  · rw [hregex] at hmatch
    by_cases hbegins : ['/', '/'] <+: ['/'] ++ (gap ++ rest)
    · obtain ⟨tail, htail⟩ := hbegins
      have hlong := matchLength?_lineComment tail
      rw [show '/' :: '/' :: tail = ['/'] ++ (gap ++ rest) from htail, hmatch] at hlong
      have hlength := Option.some.inj hlong
      have hpos := Char.utf8Size_pos '/'
      simp only [byteLength_cons, byteLength_nil] at hlength
      omega
    · rw [matchLength?_lineComment_none hbegins] at hmatch
      cases hmatch
  · rw [hregex] at hmatch
    by_cases hbegins : ['/', '*'] <+: ['/'] ++ (gap ++ rest)
    · obtain ⟨tail, htail⟩ := hbegins
      have hlong := @Regex.matchLength?_literal "/*" (by decide) tail
      rw [show "/*".toList ++ tail = ['/'] ++ (gap ++ rest) from htail, hmatch] at hlong
      exact absurd (Option.some.inj hlong) (by decide)
    · rw [matchLength?_opening_none hbegins] at hmatch
      cases hmatch
  · exact h.valid hkind

/-- What begins a comment with the other text behind the gap begins it in front of the gap. -/
theorem Cuts.begins {d : Char} (hbegins : ['/', d] <+: front ++ (gap ++ '/' :: other)) :
    ['/', d] <+: front ++ gap := by
  obtain ⟨tail, htail⟩ := hbegins
  obtain ⟨c, cs, rfl⟩ := List.exists_cons_of_ne_nil h.ne_nil
  have hcons : '/' :: d :: tail = c :: (cs ++ gap ++ '/' :: other) := by rw [List.append_assoc]; exact htail
  obtain ⟨hslash, hbehind⟩ := List.cons.inj hcons
  subst hslash
  cases hmore : cs ++ gap with
  | nil =>
    obtain ⟨rfl, rfl⟩ := List.append_eq_nil_iff.mp hmore
    exact absurd rfl h.ne_slash
  | cons e more =>
    rw [hmore] at hbehind
    obtain ⟨rfl, -⟩ := List.cons.inj hbehind
    exact ⟨more, congrArg ('/' :: ·) hmore.symm⟩

/-- A line comment is not followed by the gap on its line. -/
theorem Cuts.ne_lineComment : rule.regex ≠ lineComment := by
  intro hregex
  obtain ⟨-, hmatch⟩ := h.matches
  rw [hregex] at hmatch
  by_cases hbegins : ['/', '/'] <+: front ++ (gap ++ rest)
  · obtain ⟨tail, htail⟩ := hbegins
    have hlong := matchLength?_lineComment tail
    rw [show '/' :: '/' :: tail = front ++ (gap ++ rest) from htail, hmatch] at hlong
    set cls := CharClass.noneOf ['\n'] with hcls
    have hsplit : front ++ (gap ++ rest) = '/' :: '/' :: tail.takeWhile cls.contains ++ tail.dropWhile cls.contains := by
      rw [List.cons_append, List.cons_append, List.takeWhile_append_dropWhile]
      exact htail.symm
    obtain ⟨-, hrest⟩ := append_inj_byteLength hsplit (Option.some.inj hlong)
    have hstop : ∀ c ∈ (gap ++ rest).head?, c = '\n' := by
      intro c hc
      have hnot := Regex.head_dropWhile cls tail c (hrest ▸ hc)
      rw [hcls, CharClass.contains_noneOf] at hnot
      simpa using hnot
    cases hgap : gap with
    | nil =>
      obtain ⟨c, hc, hbreak, -⟩ := h.opens hgap
      exact hbreak (hstop c (by rw [hgap]; exact hc))
    | cons c cs =>
      refine h.unbroken ?_
      rw [← hstop c (by rw [hgap]; rfl), hgap]
      simp
  · rw [matchLength?_lineComment_none hbegins] at hmatch
    cases hmatch

/-- Where a reserved word stands in front of the gap, a word does not go on behind it. -/
theorem Cuts.ends {word : String} (hword : word ∈ reserved) (hfront : front ++ gap = word.toList) :
    rest.head?.any isWordChar = false := by
  by_contra hany
  obtain ⟨d, hd, hgoes⟩ : ∃ d, rest.head? = some d ∧ isWordChar d = true := by
    cases hhead : rest.head? with
    | none => simp [hhead] at hany
    | some d => exact ⟨d, rfl, by simpa [hhead] using hany⟩
  obtain ⟨hnil, hchars, -⟩ := reserved_chars word hword
  obtain ⟨c, cs, hcs⟩ := List.exists_cons_of_ne_nil hnil
  have hstart : nameStart.contains c = true := by
    have hall := reserved_starts word hword
    rw [hcs] at hall
    exact hall
  have hline : front ++ (gap ++ rest) = c :: (cs ++ rest) := by
    rw [← List.append_assoc, hfront, hcs, List.cons_append]
  have hnext : (gap ++ rest).head?.any isWordChar = true := by
    cases hgap : gap with
    | nil => simp [hd, hgoes]
    | cons e more =>
      have he : e ∈ word.toList := by simp [← hfront, hgap]
      simp [isWordChar_of_nameRest (hchars e he)]
  have hchoose := h.choose
  rw [← List.takeWhile_append_dropWhile (p := (·.kind != "IDENT")) (l := defaultRules), Lexer.choose?_append] at hchoose
  cases hbefore : Lexer.choose? (front ++ (gap ++ rest)) (defaultRules.takeWhile (·.kind != "IDENT")) with
  | some choice =>
    -- a reserved word ends where a word ends
    rw [hbefore, Option.some_or] at hchoose
    obtain rfl := Option.some.inj hchoose
    obtain ⟨hmem, hmatch, -⟩ := Lexer.choose?_eq_some hbefore
    rcases earlier_rules.1 rule hmem with ⟨hkind, hregex⟩ | hrefuses
    · obtain ⟨hnil', -, hlast⟩ := reserved_chars _ hkind
      rw [hregex] at hmatch
      by_cases hbegins : rule.kind.toList <+: front ++ (gap ++ rest)
      · obtain ⟨tail, htail⟩ := hbegins
        rw [← htail, wordRegex, Regex.matchLength?_word hnil'] at hmatch
        split at hmatch
        · rename_i hborder
          obtain ⟨-, rfl⟩ := append_inj_byteLength htail (Option.some.inj hmatch)
          obtain ⟨e, he⟩ : ∃ e, rule.kind.toList.getLast? = some e :=
            Option.isSome_iff_exists.mp (by simpa using hnil')
          rw [isBorder, hnext, he, Option.any_some, hlast e he] at hborder
          cases hborder
        · cases hmatch
      · rw [wordRegex, Regex.matchLength?_word_none hnil' hbegins] at hmatch
        cases hmatch
    · have hfirst := hrefuses c.toNat (toNat_lt_of_nameRest (nameRest_of_nameStart hstart))
      rw [Char.ofNat_toNat] at hfirst
      rw [hline, Regex.matchLength?_eq_none (hfirst hstart)] at hmatch
      cases hmatch
  | none =>
    -- a name goes on as far as the word goes on
    rw [hbefore, Option.none_or] at hchoose
    have htake : (cs ++ rest).takeWhile nameRest.contains = cs ++ rest.takeWhile nameRest.contains :=
      List.takeWhile_append_of_pos fun e he => hchars e (by rw [hcs]; exact List.mem_cons_of_mem _ he)
    have hname : nameRegex.matchLength? (c :: (cs ++ rest)) = _ := Regex.matchLength?_headed_all hstart _
    rw [htake, ← hline] at hname
    have hsplit : front ++ (gap ++ rest) =
        c :: (cs ++ rest.takeWhile nameRest.contains) ++ rest.dropWhile nameRest.contains := by
      rw [hline, List.cons_append, List.append_assoc, List.takeWhile_append_dropWhile]
    have hident : Lexer.choose? (front ++ (gap ++ rest)) (defaultRules.dropWhile (·.kind != "IDENT")) =
        some (⟨nameRegex, "IDENT", .default⟩, _) :=
      Lexer.choose?_here hname (byteLength_pos (List.cons_ne_nil _ _)) _
    obtain ⟨-, hlength⟩ := Prod.mk.inj (Option.some.inj (hident.symm.trans hchoose))
    obtain ⟨hsame, -⟩ := append_inj_byteLength hsplit hlength.symm
    have hall : gap = [] ∧ rest.takeWhile nameRest.contains = [] := by
      have hlengths := congrArg List.length hfront
      rw [hsame, hcs] at hlengths
      simp only [List.length_append, List.length_cons] at hlengths
      exact ⟨List.length_eq_zero_iff.mp (by omega), List.length_eq_zero_iff.mp (by omega)⟩
    obtain ⟨e, he, -, hopens⟩ := h.opens hall.1
    obtain rfl : d = e := Option.some.inj (hd.symm.trans he)
    obtain ⟨tail, rfl⟩ := List.head?_eq_some_iff.mp hd
    have hnone := hall.2
    rw [List.takeWhile_cons, if_pos (hopens hgoes)] at hnone
    cases hnone

/-- What has no match in front of the gap has none with the other text behind it. -/
theorem Cuts.none_of_none {r : LexRule} (hr : r ∈ defaultRules)
    (hnone : (r.regex.matchLength? (front ++ (gap ++ rest))).filter (0 < ·) = none) :
    (r.regex.matchLength? (front ++ (gap ++ '/' :: other))).filter (0 < ·) = none := by
  obtain ⟨c, cs, hfront⟩ := List.exists_cons_of_ne_nil h.ne_nil
  rcases defaultRules_cases r hr with hstops | ⟨hkind, hregex⟩ | hregex | hregex | ⟨-, hregex⟩
  · exact none_of_stops hstops hnone
  · -- a reserved word in front of the gap ends at the slash, and ended there before
    obtain ⟨hnil, -, hlast⟩ := reserved_chars _ hkind
    have hslash := (avoids_reserved _ hkind).2
    rw [hregex] at hnone ⊢
    by_cases hbegins : r.kind.toList <+: front ++ (gap ++ '/' :: other)
    · obtain ⟨tail, htail⟩ := hbegins
      rw [← List.append_assoc] at htail
      obtain ⟨more, hmore, rfl⟩ : ∃ more, front ++ gap = r.kind.toList ++ more ∧ tail = more ++ '/' :: other := by
        rcases List.append_eq_append_iff.mp htail with ⟨more, hmore, htail⟩ | ⟨more, hmore, htail⟩
        · exact ⟨more, hmore, htail⟩
        · cases more with
          | nil => exact ⟨[], by rw [hmore, List.append_nil, List.append_nil], htail.symm⟩
          | cons e more =>
            obtain rfl := (List.cons.inj htail).1
            exact absurd (by rw [hmore]; simp) hslash
      have hpos := byteLength_pos hnil
      have hhead : (more ++ '/' :: other).head?.any isWordChar = (more ++ rest).head?.any isWordChar := by
        cases more with
        | nil =>
          rw [List.append_nil] at hmore
          rw [List.nil_append, List.nil_append, h.ends hkind hmore, List.head?_cons, Option.any_some, slash_not_word]
        | cons e more => rfl
      have hborder : isBorder r.kind.toList.getLast? (more ++ '/' :: other).head? =
          isBorder r.kind.toList.getLast? (more ++ rest).head? := by rw [isBorder, isBorder, hhead]
      rw [← List.append_assoc, hmore, List.append_assoc, wordRegex, Regex.matchLength?_word hnil] at hnone ⊢
      rw [hborder]
      exact hnone
    · rw [wordRegex, Regex.matchLength?_word_none hnil hbegins]
      rfl
  · rw [hregex] at hnone ⊢
    by_cases hbegins : ['/', '/'] <+: front ++ (gap ++ '/' :: other)
    · obtain ⟨tail, htail⟩ := h.begins hbegins
      rw [← List.append_assoc, ← htail] at hnone
      have hmatch := matchLength?_lineComment (tail ++ rest)
      rw [show ['/', '/'] ++ tail ++ rest = '/' :: '/' :: (tail ++ rest) from rfl, hmatch, Option.filter_some,
        if_pos (decide_eq_true (byteLength_pos (List.cons_ne_nil _ _)))] at hnone
      cases hnone
    · rw [matchLength?_lineComment_none hbegins]
      rfl
  · rw [hregex] at hnone ⊢
    by_cases hbegins : ['/', '*'] <+: front ++ (gap ++ '/' :: other)
    · obtain ⟨tail, htail⟩ := h.begins hbegins
      rw [← List.append_assoc, ← htail] at hnone
      have hmatch := @Regex.matchLength?_literal "/*" (by decide) (tail ++ rest)
      rw [show ['/', '*'] ++ tail ++ rest = "/*".toList ++ (tail ++ rest) from rfl, hmatch] at hnone
      exact absurd hnone (by decide)
    · rw [matchLength?_opening_none hbegins]
      rfl
  · -- every character that does not end the line has a match
    have hc : (CharClass.noneOf ['\n']).contains c = true := by
      rw [CharClass.contains_noneOf]
      have hne : c ≠ '\n' := fun hc => h.unbroken (by simp [hfront, hc])
      simpa using hne
    rw [hregex, hfront, List.cons_append, Regex.matchLength?_one hc, Option.filter_some,
      if_pos (decide_eq_true (Char.utf8Size_pos c))] at hnone
    cases hnone

/-- **The token in front of the gap** is taken with the other text behind the gap as well. -/
theorem Cuts.choose_other : Lexer.choose? (front ++ (gap ++ '/' :: other)) defaultRules =
    some (rule, byteLength front) := by
  refine Lexer.choose?_congr h.choose (fun r hr => h.none_of_none hr) ?_
  obtain ⟨hmem, hmatch⟩ := h.matches
  rcases defaultRules_cases rule hmem with hstops | ⟨hkind, hregex⟩ | hregex | hregex | ⟨hkind, -⟩
  · exact match_of_stops hstops hmatch
  · obtain ⟨hnil, -, hlast⟩ := reserved_chars _ hkind
    rw [hregex] at hmatch ⊢
    by_cases hbegins : rule.kind.toList <+: front ++ (gap ++ rest)
    · obtain ⟨tail, htail⟩ := hbegins
      rw [← htail, wordRegex, Regex.matchLength?_word hnil] at hmatch
      split at hmatch
      · rename_i hborder
        obtain ⟨rfl, rfl⟩ := append_inj_byteLength htail (Option.some.inj hmatch)
        have hother : isBorder rule.kind.toList.getLast? (gap ++ '/' :: other).head? = true := by
          cases gap with
          | nil =>
            obtain ⟨e, he⟩ : ∃ e, rule.kind.toList.getLast? = some e :=
              Option.isSome_iff_exists.mp (by simpa using hnil)
            rw [he, isBorder, Option.any_some, hlast e he, List.nil_append, List.head?_cons, Option.any_some,
              slash_not_word]
            rfl
          | cons e gap => exact hborder
        rw [wordRegex, Regex.matchLength?_word hnil, if_pos hother]
      · cases hmatch
    · rw [wordRegex, Regex.matchLength?_word_none hnil hbegins] at hmatch
      cases hmatch
  · exact absurd hregex h.ne_lineComment
  · rw [hregex] at hmatch ⊢
    by_cases hbegins : ['/', '*'] <+: front ++ (gap ++ rest)
    · obtain ⟨tail, htail⟩ := hbegins
      have hliteral := @Regex.matchLength?_literal "/*" (by decide) tail
      rw [show "/*".toList ++ tail = front ++ (gap ++ rest) from htail, hmatch] at hliteral
      obtain ⟨rfl, -⟩ := append_inj_byteLength htail (Option.some.inj hliteral).symm
      exact @Regex.matchLength?_literal "/*" (by decide) (gap ++ '/' :: other)
    · rw [matchLength?_opening_none hbegins] at hmatch
      cases hmatch
  · exact absurd hkind h.valid

end Ordinary

/-! ## 4. Tokens of string literals -/

/-- The rules of the inside of strings, by what they do at a slash. -/
theorem stringRules_cases : ∀ r ∈ stringRules, stopsAtSlash r.regex = true ∨
    (r.kind = "STRING_TEXT" ∧ r.regex = .atLeastOne (.one plainChars)) ∨
    (r.kind = "invalid" ∧ r.regex = .one .any) := by
  simp only [stopsAtSlash, ← Array.all_toList]
  decide

/-- **A part of a string literal** is taken with the other text behind the gap as well, if it is not the text
right in front of the gap. -/
theorem choose_other_string {front gap rest : List Char} {rule : LexRule} (hne : front ≠ [])
    (hchoose : Lexer.choose? (front ++ (gap ++ rest)) stringRules = some (rule, byteLength front))
    (hvalid : rule.kind ≠ "invalid") (hgap : gap = [] → rule.kind ≠ "STRING_TEXT") (other : List Char) :
    Lexer.choose? (front ++ (gap ++ '/' :: other)) stringRules = some (rule, byteLength front) := by
  obtain ⟨hmem, hmatch, -⟩ := Lexer.choose?_eq_some hchoose
  obtain ⟨c, cs, hfront⟩ := List.exists_cons_of_ne_nil hne
  have hany : CharClass.any.contains c = true := rfl
  refine Lexer.choose?_congr hchoose (fun r hr hnone => ?_) ?_
  · rcases stringRules_cases r hr with hstops | ⟨-, hregex⟩ | ⟨-, hregex⟩
    · exact none_of_stops hstops hnone
    · rw [hregex, hfront, List.cons_append] at hnone ⊢
      cases hc : plainChars.contains c with
      | true =>
        rw [Regex.matchLength?_run_all hc, Option.filter_some,
          if_pos (decide_eq_true (byteLength_pos (List.cons_ne_nil _ _)))] at hnone
        cases hnone
      | false =>
        rw [Regex.matchLength?_run_none hc]
        rfl
    · rw [hregex, hfront, List.cons_append, Regex.matchLength?_one hany, Option.filter_some,
        if_pos (decide_eq_true (Char.utf8Size_pos c))] at hnone
      cases hnone
  · rcases stringRules_cases rule hmem with hstops | ⟨hkind, hregex⟩ | ⟨hkind, -⟩
    · exact match_of_stops hstops hmatch
    · -- the text ends at a character that is left in front of the gap
      rw [hregex, hfront, List.cons_append] at hmatch ⊢
      cases hc : plainChars.contains c with
      | false =>
        rw [Regex.matchLength?_run_none hc] at hmatch
        cases hmatch
      | true =>
        rw [Regex.matchLength?_run_all hc] at hmatch ⊢
        have hsplit : c :: cs ++ (gap ++ rest) = c :: (cs ++ (gap ++ rest)).takeWhile plainChars.contains ++
            (cs ++ (gap ++ rest)).dropWhile plainChars.contains := by
          rw [List.cons_append, List.cons_append, List.takeWhile_append_dropWhile]
        obtain ⟨hcs, hrest⟩ := append_inj_byteLength hsplit (Option.some.inj hmatch).symm
        have hall := Regex.forall_takeWhile plainChars (cs ++ (gap ++ rest))
        rw [← (List.cons.inj hcs).2] at hall
        cases gap with
        | nil => exact absurd hkind (hgap rfl)
        | cons d gap =>
          have hd : plainChars.contains d = false :=
            Regex.head_dropWhile plainChars (cs ++ (d :: gap ++ rest)) d (by rw [← hrest]; rfl)
          rw [List.takeWhile_append_of_pos hall, List.cons_append, List.takeWhile_cons,
            if_neg (by rw [hd]; exact Bool.false_ne_true), List.append_nil]
    · exact absurd hkind hvalid

/-! ## 5. Tokens of streams -/

/-- **The tokens in front of the gap** are taken with a slash behind the gap as well. -/
theorem next_seam {mode : String} (hmode : mode = defaultMode ∨ mode = stringMode) {s left : Stream} {token : Token}
    (hlined : s.cursor.Lined) (h : lexer.next mode s = .ok (token, left)) (hvalid : token.kind ≠ .kind "invalid")
    {gap after : List Char} (hafter : after ≠ []) (hleft : left.cursor.text = gap ++ after)
    (hseam : gap = [] → token.kind ≠ .kind "STRING_TEXT" ∧ Opens after) :
    ∃ front, s.cursor.text = front ++ (gap ++ after) ∧ ∀ other s', s'.cursor.Lined →
      s'.cursor.text = front ++ (gap ++ '/' :: other) → ∃ token' left', lexer.next mode s' = .ok (token', left') ∧
        token.Alike token' ∧ left'.cursor.Lined ∧ left'.cursor.text = gap ++ '/' :: other := by
  rcases Lexer.next_cases h with ⟨hend, rfl, rfl⟩ | ⟨rules, rule, front, back, lines, hrules, hmem, hchooses, htook⟩
  · have hnil : s.cursor.text = [] := by rw [Cursor.text, hend, List.flatten_nil]
    rw [show s.produceEof.2.cursor.text = s.cursor.text from rfl, hnil] at hleft
    exact absurd (List.append_eq_nil_iff.mp hleft.symm).2 hafter
  · have htext := htook.text_eq
    rw [hleft] at htext
    refine ⟨front, htext, fun other s' hlined' htext' => ?_⟩
    have hlines : splitLines (front ++ (gap ++ after)) = (front ++ back) :: lines := by
      rw [← htext, hlined, htook.unread]
    -- the same rule takes the same row from the first line of the other text
    obtain ⟨back', lines', hlines', hchooses'⟩ : ∃ back' lines', splitLines s'.cursor.text =
        (front ++ back') :: lines' ∧ Lexer.Chooses rules front back' rule := by
      rw [htext']
      by_cases hbreak : '\n' ∈ front ++ gap
      · -- the first line ends in front of the gap
        obtain ⟨line, more, hline, hfirst⟩ := List.eq_append_cons_of_mem hbreak
        have hcut : ∀ rest, splitLines (front ++ (gap ++ rest)) = (line ++ ['\n']) :: splitLines (more ++ rest) := by
          intro rest
          rw [← List.append_assoc, hline, List.append_assoc, List.cons_append, splitLines_line hfirst]
        obtain ⟨hsame, -⟩ := List.cons.inj ((hcut after).symm.trans hlines)
        exact ⟨back, _, by rw [hcut, hsame], hchooses⟩
      · have hnil : front ++ gap ≠ [] := fun h => hchooses.ne_nil (List.append_eq_nil_iff.mp h).1
        rw [← List.append_assoc] at hlines ⊢
        obtain ⟨rest, hline, hrest, hhead⟩ := splitLines_prefix hbreak hnil hlines
        have hne : rest ≠ [] := fun h => hafter (List.head?_eq_none_iff.mp (by rw [← hhead, h]; rfl))
        obtain ⟨d, rest, rfl⟩ := List.exists_cons_of_ne_nil hne
        have hbehind : after = d :: rest ++ lines.flatten := by
          rw [← (flatten_splitLines after).1, hrest]
          rfl
        cases hlines' : splitLines (front ++ gap ++ '/' :: other) with
        | nil =>
          have hflat := (flatten_splitLines (front ++ gap ++ '/' :: other)).1
          rw [hlines'] at hflat
          simp at hflat
        | cons line' lines' =>
          have hslash : splitLines (front ++ gap ++ ['/'] ++ other) = line' :: lines' := by
            rw [← hlines', List.append_assoc _ ['/']]
            rfl
          obtain ⟨rest', rfl, -⟩ := splitLines_prefix (by simpa using hbreak) (by simp) hslash
          refine ⟨gap ++ '/' :: rest', lines', by simp, hchooses.ne_nil, ?_⟩
          have hchoose := hchooses.choose
          rw [hline, List.append_assoc] at hchoose
          rw [htook.kind] at hvalid hseam
          rcases hmode with rfl | rfl
          · obtain rfl := Option.some.inj (hrules.symm.trans find?_defaultMode)
            refine Cuts.choose_other ⟨hchooses.ne_nil, hchoose, fun h => hvalid (by rw [h]), hbreak, fun h => ?_⟩
            obtain ⟨e, he, hopens⟩ := (hseam h).2
            rw [hbehind] at he
            exact ⟨e, he, hopens⟩
          · obtain rfl := Option.some.inj (hrules.symm.trans find?_stringMode)
            exact choose_other_string hchooses.ne_nil hchoose (fun h => hvalid (by rw [h]))
              (fun h htext => (hseam h).1 (by rw [htext])) _
    obtain ⟨token', left', hnext, htook'⟩ := Lexer.exists_next (hlined' ▸ hlines') hrules hchooses'
    refine ⟨token', left', hnext, ⟨htook.kind.trans htook'.kind.symm, htook.text.trans htook'.text.symm,
      htook.channel.trans htook'.channel.symm⟩, htook'.lined hlined', ?_⟩
    exact List.append_cancel_left (htook'.text_eq.symm.trans htext')

end Language

end Lode
