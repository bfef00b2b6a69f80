/-
# JSON documents are read back

A printed document is read as the value it was printed from (`ofText_render`).  Each part of a document is
read off the front of whatever follows it; only a number needs to know that no further part of a number
follows (`Ends`).

What is read is not a value but a reading, which has a place for what a value cannot hold: names that are
missing, and numbers that are no integers.  A value has one reading (`JsonValue.reading`), so that the
readings of printed values are among those of arbitrary texts, and the decoders of archives are about
readings.

A document is printed with line breaks and blanks according to the level of its parts.  Blanks are passed
over in front of a value, an item or a member (`readValue_blanks` and the like), and it is shown that
printed parts begin with something else, so a reader never takes the beginning of a part for what comes
before it.

The budget of the reader counts nested calls.  A call for every value, and one more for every item and
member, goes with a character of the text each, so twice the length of the text is enough.  What a budget is
enough for is proved at once for values, items and members (`Reads`), since each of them calls the others.
-/
import Lode.Json
import Lode.Json.Reader
import Lode.Proofs.Text.Digits

namespace Lode

/-! ## 1. What a document is read as -/

mutual

/-- What a value is read as. -/
def JsonValue.reading : JsonValue → JsonReading
  | .number n => .integer n
  | .text s => .text s
  | .list items => .list (readings items)
  | .object members => .object (memberReadings members)

/-- What the items of a list are read as. -/
def JsonValue.readings : List JsonValue → List JsonReading
  | [] => []
  | v :: vs => v.reading :: readings vs

/-- What the members of an object are read as. -/
def JsonValue.memberReadings : List (String × JsonValue) → List (String × JsonReading)
  | [] => []
  | (name, v) :: rest => (name, v.reading) :: memberReadings rest

end

namespace JsonReading

/-! ## 2. Texts -/

/-- The characters that a text is written as, without the quotes. -/
def escaped (cs : List Char) : List Char := cs.flatMap fun c => (JsonValue.escapeChar c).toList

theorem toList_quote (s : String) :
    (JsonValue.quote s).toList = '"' :: (escaped s.toList ++ ['"']) := by
  simp [JsonValue.quote, escaped, String.toList_join, List.flatMap_map]

/-- A character before what is read of a text. -/
def prepend (c : Char) (found : Option (List Char) × List Char) : Option (List Char) × List Char :=
  (found.1.map (c :: ·), found.2)

/-- An escape is one character of the text. -/
theorem readText_escape {fuel : Nat} {rest rest' : List Char} {c : Char}
    (h : readEscape rest = some (some c, rest')) :
    readText (fuel + 1) ('\\' :: rest) = (readText fuel rest').map (prepend c) := by
  simp only [readText, h, Option.bind_eq_bind, Option.bind_some]
  cases readText fuel rest' with
  | none => rfl
  | some found =>
    obtain ⟨cs, rest⟩ := found
    cases cs <;> rfl

/-- A plain character stands for itself. -/
theorem readText_plain {fuel : Nat} {c : Char} (rest : List Char) (hquote : c ≠ '"')
    (hslash : c ≠ '\\') (hcontrol : ¬ c.toNat < 0x20) :
    readText (fuel + 1) (c :: rest) = (readText fuel rest).map (prepend c) := by
  rw [readText]
  · simp only [if_neg hcontrol]
    cases readText fuel rest with
    | none => rfl
    | some found => rfl
  · simpa using hquote
  · simpa using hslash

theorem hexNumber_control : ∀ n < 0x20, (hexNumber 4 n).toList =
    ['0', '0', hexDigit (n / 16), hexDigit (n % 16)] := by
  simp only [hexNumber, String.toList_ofList]
  decide

theorem readNatural?_control : ∀ n < 0x20,
    readNatural? 16 ['0', '0', hexDigit (n / 16), hexDigit (n % 16)] = some n := by
  decide

/-- Control characters are read from their numbers. -/
theorem readEscape_control {c : Char} (h : c.toNat < 0x20) (rest : List Char) :
    readEscape ('u' :: ((hexNumber 4 c.toNat).toList ++ rest)) = some (some c, rest) := by
  have hleading : isLeading c.toNat = false := by simp [isLeading]; omega
  have htrailing : isTrailing c.toNat = false := by simp [isTrailing]; omega
  rw [hexNumber_control _ h]
  simp only [readEscape, List.cons_append, List.nil_append, readUnit, readNatural?_control _ h,
    Option.map_some, Option.bind_eq_bind, Option.bind_some, hleading, htrailing, Char.ofNat_toNat]
  rfl

/-- How one character of a text is read. -/
theorem readText_escapeChar (c : Char) (fuel : Nat) (rest : List Char) :
    readText (fuel + 1) ((JsonValue.escapeChar c).toList ++ rest) =
      (readText fuel rest).map (prepend c) := by
  unfold JsonValue.escapeChar
  split
  · exact readText_escape rfl
  · exact readText_escape rfl
  · exact readText_escape rfl
  · exact readText_escape rfl
  · exact readText_escape rfl
  · rename_i hquote hslash _ _ _
    split
    · rename_i hc
      obtain rfl : Char.ofNat 8 = c := by rw [← hc, Char.ofNat_toNat]
      exact readText_escape rfl
    split
    · rename_i hc
      obtain rfl : Char.ofNat 12 = c := by rw [← hc, Char.ofNat_toNat]
      exact readText_escape rfl
    split
    · rename_i hcontrol
      have hopening : "\\u".toList = ['\\', 'u'] := rfl
      rw [String.toList_append, List.append_assoc, hopening, List.cons_append, List.singleton_append]
      exact readText_escape (readEscape_control hcontrol rest)
    · rename_i hcontrol
      rw [show c.toString.toList = [c] by simp]
      exact readText_plain rest hquote hslash hcontrol

/-- **A text** is read up to its closing quote. -/
theorem readText_escaped : ∀ (cs : List Char) {fuel : Nat} (rest : List Char), cs.length < fuel →
    readText fuel (escaped cs ++ '"' :: rest) = some (some cs, rest)
  | _, 0, _, h => absurd h (Nat.not_lt_zero _)
  | [], fuel + 1, rest, _ => rfl
  | c :: cs, fuel + 1, rest, h => by
    have ih := @readText_escaped cs fuel rest (by simpa using h)
    rw [escaped] at ih
    rw [escaped, List.flatMap_cons, List.append_assoc, readText_escapeChar, ih]
    rfl

/-- Escapes make a text no shorter. -/
theorem length_le_escaped : ∀ cs : List Char, cs.length ≤ (escaped cs).length
  | [] => Nat.le_refl _
  | c :: cs => by
    have ih := length_le_escaped cs
    have hpos : 0 < (JsonValue.escapeChar c).toList.length := by
      unfold JsonValue.escapeChar
      split <;> try decide
      split <;> try decide
      split <;> try decide
      split
      · simp
      · simp
    rw [escaped, List.flatMap_cons, List.length_append, List.length_cons]
    rw [escaped] at ih
    omega

/-- **A text between quotes** is read, and what follows is left. -/
theorem readQuoted (s : String) (rest : List Char) :
    let after := escaped s.toList ++ '"' :: rest
    readText (after.length + 1) after = some (some s.toList, rest) := by
  refine readText_escaped _ _ ?_
  have := length_le_escaped s.toList
  simp only [List.length_append, List.length_cons]
  omega

/-! ## 3. Numbers -/

/-- Nothing follows that would go on with a number. -/
def Ends (rest : List Char) : Prop :=
  ∀ c ∈ rest.head?, c.isDigit = false ∧ c ≠ '.' ∧ c ≠ 'e' ∧ c ≠ 'E'

/-- A run of digits is read up to where it ends. -/
theorem readDigitRun_append {digits rest : List Char} (hne : digits ≠ [])
    (hdigits : ∀ c ∈ digits, c.isDigit) (hrest : Ends rest) :
    readDigitRun (digits ++ rest) = some (digits, rest) := by
  have hstop : rest.takeWhile Char.isDigit = [] ∧ rest.dropWhile Char.isDigit = rest := by
    cases rest with
    | nil => exact ⟨rfl, rfl⟩
    | cons c rest =>
      have hc := (hrest c rfl).1
      simp [hc]
  unfold readDigitRun
  simp only [List.takeWhile_append_of_pos hdigits, List.dropWhile_append_of_pos hdigits, hstop.1,
    hstop.2, List.append_nil, List.isEmpty_iff, hne, if_false]

/-- A number without a sign is read up to where it ends. -/
theorem readWhole_decimal (n : Nat) {rest : List Char} (hrest : Ends rest) :
    readWhole (Nat.toDigits 10 n ++ rest) = some (Nat.toDigits 10 n, rest) := by
  rcases Nat.eq_zero_or_pos n with rfl | hpos
  · cases rest with
    | nil => rfl
    | cons c rest =>
      have hc := (hrest c rfl).1
      change (if c.isDigit then none else some (['0'], c :: rest)) = _
      rw [hc]
      rfl
  · obtain ⟨c, cs, hcs, hc⟩ := head_decimal n hpos
    have hrun := readDigitRun_append (Nat.toDigits_ne_nil (n := n) (b := 10))
      (fun _ => isDigit_of_mem_decimal) hrest
    rw [hcs] at hrun ⊢
    rw [List.cons_append] at hrun ⊢
    rw [readWhole, hrun]
    simpa using hc

/-- The digits of a number have its value, with the sign that was read. -/
theorem readMagnitude_decimal (negative : Bool) (n : Nat) {rest : List Char} (hrest : Ends rest) :
    readMagnitude negative (Nat.toDigits 10 n ++ rest) =
      some (numberValue negative (Nat.toDigits 10 n), rest) := by
  have hfraction : skipFraction rest = some rest := by
    cases rest with
    | nil => rfl
    | cons c rest =>
      have hc := (hrest c rfl).2.1
      rw [skipFraction]
      simpa using hc
  have hexponent : skipExponent rest = some rest := by
    cases rest with
    | nil => rfl
    | cons c rest =>
      have hc := (hrest c rfl).2.2
      simp [skipExponent, hc]
  simp only [readMagnitude, readWhole_decimal n hrest, Option.bind_eq_bind, Option.bind_some, hfraction,
    hexponent, if_true]
  rfl

theorem toList_ofNat (n : Nat) : (toString (Int.ofNat n)).toList = Nat.toDigits 10 n := by
  rw [Int.toString_eq_repr]
  exact String.toList_ofList

theorem toList_negSucc (n : Nat) :
    (toString (Int.negSucc n)).toList = '-' :: Nat.toDigits 10 (n + 1) := by
  rw [Int.toString_eq_repr, Int.repr, String.toList_append]
  exact congrArg ('-' :: ·) String.toList_ofList

/-- **An integer** is read up to where it ends. -/
theorem readNumber_int (n : Int) {rest : List Char} (hrest : Ends rest) :
    readNumber ((toString n).toList ++ rest) = some (integer n, rest) := by
  cases n with
  | ofNat n =>
    have hread := readMagnitude_decimal false n hrest
    rw [toList_ofNat]
    obtain ⟨c, cs, hcs, hdigit⟩ := exists_decimal n
    have hvalue : numberValue false (Nat.toDigits 10 n) = integer n := by
      simp [numberValue, readDigits?_decimal]
    rw [hvalue] at hread
    rw [hcs, List.cons_append] at hread ⊢
    rw [readNumber, hread]
    · rfl
    · rintro _ ⟨⟩
      exact absurd hdigit (by decide)
  | negSucc n =>
    have hvalue : numberValue true (Nat.toDigits 10 (n + 1)) = integer (Int.negSucc n) := by
      simp [numberValue, readDigits?_decimal, Int.negSucc_eq]
    rw [toList_negSucc, List.cons_append, readNumber, readMagnitude_decimal true (n + 1) hrest, hvalue]

/-! ## 4. Values -/

theorem skipBlanks_cons {c : Char} (h : isBlank c = false) (cs : List Char) :
    skipBlanks (c :: cs) = c :: cs := by
  simp [skipBlanks, h]

theorem skipBlanks_append {blanks : List Char} (h : ∀ c ∈ blanks, isBlank c) (cs : List Char) :
    skipBlanks (blanks ++ cs) = skipBlanks cs :=
  List.dropWhile_append_of_pos h

/-- Line breaks and what is put behind them are blanks. -/
theorem isBlank_newLine {level : Nat} : ∀ c ∈ (JsonValue.newLine level).toList, isBlank c := by
  intro c hc
  simp only [JsonValue.newLine, String.toList_append, String.toList_ofList, List.mem_append,
    List.mem_replicate] at hc
  rcases hc with hc | ⟨-, rfl⟩
  · obtain rfl : c = '\n' := by simpa using hc
    rfl
  · rfl

/-- What a value begins with. -/
structure Begins (c : Char) : Prop where
  notBlank : isBlank c = false
  notList : c ≠ ']'
  notObject : c ≠ '\x7d'

/-- A value may begin with a digit. -/
theorem begins_of_isDigit {c : Char} (h : c.isDigit) : Begins c := by
  have hrange := isDigit_iff.mp h
  have hne : ∀ d : Char, (d.toNat < 48 ∨ 57 < d.toNat) → c ≠ d := by
    rintro d hd rfl
    omega
  refine ⟨?_, hne _ (by decide), hne _ (by decide)⟩
  simp [isBlank, hne ' ' (by decide), hne '\n' (by decide), hne '\t' (by decide), hne '\r' (by decide)]

/-- A printed value begins like one. -/
theorem renderAt_begins (level : Nat) : ∀ v : JsonValue,
    ∃ c cs, (v.renderAt level).toList = c :: cs ∧ Begins c
  | .number (.ofNat n) => by
    obtain ⟨c, cs, hcs, hdigit⟩ := exists_decimal n
    refine ⟨c, cs, ?_, begins_of_isDigit hdigit⟩
    rw [JsonValue.renderAt, toList_ofNat, hcs]
  | .number (.negSucc n) => ⟨_, _, toList_negSucc n, by decide, by decide, by decide⟩
  | .text s => ⟨_, _, toList_quote s, by decide, by decide, by decide⟩
  | .list items => by
    rw [JsonValue.renderAt, JsonValue.bracket]
    split
    · exact ⟨'[', [']'], by simp, by decide, by decide, by decide⟩
    · simp only [String.toList_append]
      exact ⟨'[', _, rfl, by decide, by decide, by decide⟩
  | .object members => by
    rw [JsonValue.renderAt, JsonValue.bracket]
    split
    · exact ⟨'\x7b', ['\x7d'], by simp, by decide, by decide, by decide⟩
    · simp only [String.toList_append]
      exact ⟨'\x7b', _, rfl, by decide, by decide, by decide⟩

/-- Blanks in front of a value, an item or a member are passed over. -/
theorem readValue_blanks {blanks : List Char} (h : ∀ c ∈ blanks, isBlank c) (fuel : Nat)
    (cs : List Char) : readValue fuel (blanks ++ cs) = readValue fuel cs := by
  cases fuel with
  | zero => rfl
  | succ fuel => rw [readValue, readValue, skipBlanks_append h]

theorem readItems_blanks {blanks : List Char} (h : ∀ c ∈ blanks, isBlank c) (fuel : Nat)
    (cs : List Char) : readItems fuel (blanks ++ cs) = readItems fuel cs := by
  cases fuel with
  | zero => rfl
  | succ fuel => rw [readItems, readItems, readValue_blanks h]

theorem readMembers_blanks {blanks : List Char} (h : ∀ c ∈ blanks, isBlank c) (fuel : Nat)
    (cs : List Char) : readMembers fuel (blanks ++ cs) = readMembers fuel cs := by
  cases fuel with
  | zero => rfl
  | succ fuel => rw [readMembers, readMembers, skipBlanks_append h]

/-! ## 5. Documents -/

theorem ends_cons {c : Char} (h : c.isDigit = false ∧ c ≠ '.' ∧ c ≠ 'e' ∧ c ≠ 'E')
    (rest : List Char) : Ends (c :: rest) := by
  rintro d ⟨⟩
  exact h

/-- A line break ends a number. -/
theorem ends_newLine (level : Nat) (rest : List Char) :
    Ends ((JsonValue.newLine level).toList ++ rest) := by
  rw [JsonValue.newLine, String.toList_append]
  exact ends_cons (by decide) _

/-- What separates the parts of a list or an object of the given level. -/
def separator (level : Nat) : List Char := ',' :: (JsonValue.newLine level).toList

/-- The parts of a list or an object, one a line. -/
def rows (level : Nat) (parts : List String) : List Char :=
  (separator level).intercalate (parts.map String.toList)

@[simp] theorem rows_singleton (level : Nat) (part : String) : rows level [part] = part.toList := by
  simp [rows]

@[simp] theorem rows_cons_cons (level : Nat) (part next : String) (parts : List String) :
    rows level (part :: next :: parts) = part.toList ++ separator level ++ rows level (next :: parts) := by
  simp [rows, List.intercalate_cons_cons]

theorem toList_bracket_cons (opening closing : String) (level : Nat) (part : String)
    (parts : List String) : (JsonValue.bracket opening closing level (part :: parts)).toList =
      opening.toList ++ ((JsonValue.newLine (level + 1)).toList ++ (rows (level + 1) (part :: parts) ++
        ((JsonValue.newLine level).toList ++ closing.toList))) := by
  simp [JsonValue.bracket, rows, separator, String.toList_intercalate]

/-- A value that is neither a list nor an object. -/
theorem readValue_scalar {fuel : Nat} {c : Char} {cs : List Char} (hblank : isBlank c = false)
    (hlist : c ≠ '[') (hobject : c ≠ '\x7b') :
    readValue (fuel + 1) (c :: cs) = readScalar (c :: cs) := by
  rw [readValue, skipBlanks_cons hblank]
  split
  · rename_i h
    exact absurd (List.cons.inj h).1 hlist
  · rename_i h
    exact absurd (List.cons.inj h).1 hobject
  · rfl

/-- A list with items is read item by item. -/
theorem readValue_list {fuel : Nat} {c : Char} {cs after : List Char} (hc : Begins c)
    (hafter : skipBlanks after = c :: cs) :
    readValue (fuel + 1) ('[' :: after) = ((list (readItems fuel (c :: cs)).1), (readItems fuel (c :: cs)).2) := by
  rw [readValue, skipBlanks_cons rfl]
  simp only [hafter]
  split
  · rename_i h
    exact absurd (List.cons.inj h).1 hc.notList
  · rfl

/-- An object with members is read member by member. -/
theorem readValue_object {fuel : Nat} {c : Char} {cs after : List Char} (hc : Begins c)
    (hafter : skipBlanks after = c :: cs) :
    readValue (fuel + 1) ('\x7b' :: after) =
      (object (readMembers fuel (c :: cs)).1, (readMembers fuel (c :: cs)).2) := by
  rw [readValue, skipBlanks_cons rfl]
  simp only [hafter]
  split
  · rename_i h
    exact absurd (List.cons.inj h).1 hc.notObject
  · rfl

theorem readScalar_quote (s : String) (rest : List Char) :
    readScalar ((JsonValue.quote s).toList ++ rest) = (text s, some rest) := by
  have hquoted := readQuoted s rest
  simp only at hquoted
  simp only [toList_quote, List.cons_append, List.append_assoc, List.nil_append, readScalar, hquoted,
    String.ofList_toList]

/-- An integer begins with a digit or a minus sign. -/
theorem toString_begins (n : Int) :
    ∃ c cs, (toString n).toList = c :: cs ∧ ∀ d : Char, d.isDigit = false → d ≠ '-' → c ≠ d := by
  cases n with
  | ofNat n =>
    obtain ⟨c, cs, hcs, hdigit⟩ := exists_decimal n
    refine ⟨c, cs, (toList_ofNat n).trans hcs, ?_⟩
    rintro d hd - rfl
    exact absurd hdigit (by rw [hd]; decide)
  | negSucc n => exact ⟨_, _, toList_negSucc n, fun d _ hd => hd.symm⟩

/-- An integer is a scalar. -/
theorem readScalar_int (n : Int) {rest : List Char} (hrest : Ends rest) :
    readScalar ((toString n).toList ++ rest) = (integer n, some rest) := by
  have hread := readNumber_int n hrest
  obtain ⟨c, cs, hcs, hne⟩ := toString_begins n
  rw [hcs, List.cons_append] at hread ⊢
  rw [readScalar, hread]
  · intro rest h
    exact hne '"' (by decide) (by decide) (List.cons.inj h).1
  · intro rest h
    exact hne 'n' (by decide) (by decide) (List.cons.inj h).1
  · intro rest h
    exact hne 't' (by decide) (by decide) (List.cons.inj h).1
  · intro rest h
    exact hne 'f' (by decide) (by decide) (List.cons.inj h).1

theorem readItems_last {fuel : Nat} {cs after rest : List Char} {v : JsonReading}
    (h : readValue fuel cs = (v, some after)) (hafter : skipBlanks after = ']' :: rest) :
    readItems (fuel + 1) cs = ([v], some rest) := by
  rw [readItems]
  simp only [h, hafter]

theorem readItems_more {fuel : Nat} {cs after rest more : List Char} {v : JsonReading}
    {vs : List JsonReading} (h : readValue fuel cs = (v, some after))
    (hafter : skipBlanks after = ',' :: more) (hmore : readItems fuel more = (vs, some rest)) :
    readItems (fuel + 1) cs = (v :: vs, some rest) := by
  rw [readItems]
  simp only [h, hafter, hmore]

theorem readName_quote (name : String) (rest : List Char) :
    readName ((JsonValue.quote name).toList ++ ':' :: rest) = some (some name, rest) := by
  have hquoted := readQuoted name (':' :: rest)
  simp only at hquoted
  simp only [toList_quote, List.cons_append, List.append_assoc, List.nil_append, readName, hquoted,
    Option.bind_eq_bind, Option.bind_some, skipBlanks_cons (show isBlank ':' = false from rfl)]
  simp

/-- How a member begins. -/
theorem skipBlanks_quote (name : String) (rest : List Char) :
    skipBlanks ((JsonValue.quote name).toList ++ rest) = (JsonValue.quote name).toList ++ rest := by
  rw [toList_quote]
  exact skipBlanks_cons rfl _

theorem readMembers_last {fuel : Nat} {cs after rest : List Char} {name : String} {v : JsonReading}
    (h : readValue fuel cs = (v, some after)) (hafter : skipBlanks after = '\x7d' :: rest) :
    readMembers (fuel + 1) ((JsonValue.quote name).toList ++ ':' :: cs) = ([(name, v)], some rest) := by
  rw [readMembers, skipBlanks_quote, readName_quote]
  simp only [h, hafter, member]

theorem readMembers_more {fuel : Nat} {cs after rest more : List Char} {name : String}
    {v : JsonReading} {ms : List (String × JsonReading)} (h : readValue fuel cs = (v, some after))
    (hafter : skipBlanks after = ',' :: more) (hmore : readMembers fuel more = (ms, some rest)) :
    readMembers (fuel + 1) ((JsonValue.quote name).toList ++ ':' :: cs) =
      ((name, v) :: ms, some rest) := by
  rw [readMembers, skipBlanks_quote, readName_quote]
  simp only [h, hafter, hmore, member]

/-- What a budget is enough for: every value that is not longer than half of it, and the parts of
every list and object that are not. -/
structure Reads (fuel : Nat) : Prop where
  value : ∀ (level : Nat) (v : JsonValue) {rest : List Char}, Ends rest →
    2 * (v.renderAt level).toList.length ≤ fuel →
    readValue fuel ((v.renderAt level).toList ++ rest) = (v.reading, some rest)
  items : ∀ (level : Nat) (v : JsonValue) (vs : List JsonValue) {trail rest : List Char},
    Ends (trail ++ ']' :: rest) → (∀ c ∈ trail, isBlank c) →
    2 * (rows level (JsonValue.renderItems level (v :: vs))).length < fuel →
    readItems fuel (rows level (JsonValue.renderItems level (v :: vs)) ++ (trail ++ ']' :: rest)) =
      (JsonValue.readings (v :: vs), some rest)
  members : ∀ (level : Nat) (name : String) (v : JsonValue) (ms : List (String × JsonValue))
    {trail rest : List Char}, Ends (trail ++ '\x7d' :: rest) → (∀ c ∈ trail, isBlank c) →
    2 * (rows level (JsonValue.renderMembers level ((name, v) :: ms))).length < fuel →
    readMembers fuel (rows level (JsonValue.renderMembers level ((name, v) :: ms)) ++
      (trail ++ '\x7d' :: rest)) = (JsonValue.memberReadings ((name, v) :: ms), some rest)

/-- The parts of a list or an object begin where the first one begins. -/
theorem skipBlanks_rows {level : Nat} {part : String} {c : Char} {cs : List Char}
    (hpart : part.toList = c :: cs) (hc : Begins c) (parts : List String) (rest : List Char) :
    ∃ cs', rows level (part :: parts) ++ rest = c :: cs' ∧ skipBlanks
      ((JsonValue.newLine level).toList ++ (rows level (part :: parts) ++ rest)) = c :: cs' := by
  obtain ⟨more, hmore⟩ : ∃ more, rows level (part :: parts) = c :: more := by
    cases parts with
    | nil => exact ⟨cs, by rw [rows_singleton, hpart]⟩
    | cons next parts =>
      exact ⟨_, by rw [rows_cons_cons, hpart, List.append_assoc, List.cons_append]⟩
  refine ⟨more ++ rest, by rw [hmore, List.cons_append], ?_⟩
  rw [skipBlanks_append isBlank_newLine, hmore, List.cons_append, skipBlanks_cons hc.notBlank]

namespace Reads

variable {fuel : Nat}

/-- **A value** is read with one call more than its parts. -/
theorem value_succ (h : Reads fuel) (level : Nat) (v : JsonValue) {rest : List Char}
    (hrest : Ends rest) (hfuel : 2 * (v.renderAt level).toList.length ≤ fuel + 1) :
    readValue (fuel + 1) ((v.renderAt level).toList ++ rest) = (v.reading, some rest) := by
  cases v with
  | number n =>
    obtain ⟨c, cs, hcs, hne⟩ := toString_begins n
    have hread := readScalar_int n hrest
    have hblank : isBlank c = false := by
      simp [isBlank, hne ' ' (by decide), hne '\n' (by decide), hne '\t' (by decide), hne '\r' (by decide)]
    rw [hcs, List.cons_append] at hread
    rw [JsonValue.renderAt, hcs, List.cons_append,
      readValue_scalar hblank (hne '[' (by decide) (by decide)) (hne '\x7b' (by decide) (by decide)), hread]
    rfl
  | text s =>
    have hread := readScalar_quote s rest
    rw [toList_quote, List.cons_append] at hread
    rw [JsonValue.renderAt, toList_quote, List.cons_append,
      readValue_scalar rfl (by decide) (by decide), hread]
    rfl
  | list items =>
    cases items with
    | nil =>
      simp [JsonValue.renderAt, JsonValue.renderItems, JsonValue.bracket, readValue, skipBlanks, isBlank,
        JsonValue.reading, JsonValue.readings]
    | cons v vs =>
      obtain ⟨c, cs, hcs, hc⟩ := renderAt_begins (level + 1) v
      obtain ⟨after, hafter, hskip⟩ := skipBlanks_rows hcs hc (JsonValue.renderItems (level + 1) vs)
        ((JsonValue.newLine level).toList ++ ']' :: rest)
      have hrows := h.items (level + 1) v vs (ends_newLine level (']' :: rest)) isBlank_newLine
      simp only [JsonValue.renderAt, JsonValue.renderItems, toList_bracket_cons, List.length_append]
        at hfuel hrows ⊢
      rw [hafter] at hrows
      simp only [List.append_assoc]
      refine (readValue_list hc hskip).trans ?_
      rw [hrows (by simp at hfuel; omega)]
      rfl
  | object members =>
    cases members with
    | nil =>
      simp [JsonValue.renderAt, JsonValue.renderMembers, JsonValue.bracket, readValue, skipBlanks, isBlank,
        JsonValue.reading, JsonValue.memberReadings]
    | cons member ms =>
      obtain ⟨name, v⟩ := member
      obtain ⟨after, hafter, hskip⟩ := @skipBlanks_rows (level + 1)
        (JsonValue.quote name ++ ": " ++ v.renderAt (level + 1)) '"' _
        (by simp only [String.toList_append, toList_quote]; rfl) ⟨rfl, by decide, by decide⟩
        (JsonValue.renderMembers (level + 1) ms) ((JsonValue.newLine level).toList ++ '\x7d' :: rest)
      have hrows := h.members (level + 1) name v ms (ends_newLine level ('\x7d' :: rest)) isBlank_newLine
      simp only [JsonValue.renderAt, JsonValue.renderMembers, toList_bracket_cons, List.length_append]
        at hfuel hrows ⊢
      rw [hafter] at hrows
      simp only [List.append_assoc]
      refine (readValue_object ⟨rfl, by decide, by decide⟩ hskip).trans ?_
      rw [hrows (by simp at hfuel; omega)]
      rfl

/-- **Items** are read with one call more than each of them. -/
theorem items_succ (h : Reads fuel) (level : Nat) (v : JsonValue) (vs : List JsonValue)
    {trail rest : List Char} (hends : Ends (trail ++ ']' :: rest)) (htrail : ∀ c ∈ trail, isBlank c)
    (hfuel : 2 * (rows level (JsonValue.renderItems level (v :: vs))).length < fuel + 1) :
    readItems (fuel + 1) (rows level (JsonValue.renderItems level (v :: vs)) ++
      (trail ++ ']' :: rest)) = (JsonValue.readings (v :: vs), some rest) := by
  cases vs with
  | nil =>
    simp only [JsonValue.renderItems, rows_singleton] at hfuel ⊢
    exact readItems_last (h.value level v hends (by omega)) (skipBlanks_append htrail _)
  | cons w vs =>
    have hrows := h.items level w vs hends htrail
    simp only [JsonValue.renderItems, rows_cons_cons, List.length_append, separator, List.length_cons]
      at hfuel hrows
    simp only [JsonValue.renderItems, rows_cons_cons, separator, List.append_assoc, List.cons_append]
    refine readItems_more (h.value level v (ends_cons (by decide) _) (by omega)) (skipBlanks_cons rfl _) ?_
    rw [readItems_blanks isBlank_newLine]
    exact hrows (by omega)

/-- **Members** are read with one call more than each of them. -/
theorem members_succ (h : Reads fuel) (level : Nat) (name : String) (v : JsonValue)
    (ms : List (String × JsonValue)) {trail rest : List Char}
    (hends : Ends (trail ++ '\x7d' :: rest)) (htrail : ∀ c ∈ trail, isBlank c)
    (hfuel : 2 * (rows level (JsonValue.renderMembers level ((name, v) :: ms))).length < fuel + 1) :
    readMembers (fuel + 1) (rows level (JsonValue.renderMembers level ((name, v) :: ms)) ++
      (trail ++ '\x7d' :: rest)) = (JsonValue.memberReadings ((name, v) :: ms), some rest) := by
  -- The blank after the colon belongs to the value.
  have hvalue : ∀ {after : List Char}, Ends after → 2 * (v.renderAt level).toList.length ≤ fuel →
      readValue fuel (' ' :: ((v.renderAt level).toList ++ after)) = (v.reading, some after) :=
    fun hafter hle =>
      (@readValue_blanks [' '] (List.forall_mem_singleton.mpr rfl) fuel _).trans (h.value level v hafter hle)
  cases ms with
  | nil =>
    simp only [JsonValue.renderMembers, rows_singleton, String.toList_append, List.append_assoc,
      List.length_append] at hfuel ⊢
    exact readMembers_last (hvalue hends (by omega)) (skipBlanks_append htrail _)
  | cons m ms =>
    obtain ⟨other, w⟩ := m
    have hrows := h.members level other w ms hends htrail
    simp only [JsonValue.renderMembers, rows_cons_cons, List.length_append, separator, List.length_cons,
      String.toList_append] at hfuel hrows
    simp only [JsonValue.renderMembers, rows_cons_cons, separator, List.append_assoc, List.cons_append,
      String.toList_append]
    refine readMembers_more (hvalue (ends_cons (by decide) _) (by omega)) (skipBlanks_cons rfl _) ?_
    rw [readMembers_blanks isBlank_newLine]
    exact hrows (by omega)

/-- No value is so short that no call would be needed. -/
theorem zero : Reads 0 where
  value level v _ _ hfuel := by
    obtain ⟨c, cs, hcs, -⟩ := renderAt_begins level v
    rw [hcs, List.length_cons] at hfuel
    omega
  items _ _ _ _ _ _ _ hfuel := absurd hfuel (Nat.not_lt_zero _)
  members _ _ _ _ _ _ _ _ hfuel := absurd hfuel (Nat.not_lt_zero _)

end Reads

/-- Every budget is enough for what is not longer than half of it. -/
theorem reads : ∀ fuel, Reads fuel
  | 0 => .zero
  | fuel + 1 => ⟨(reads fuel).value_succ, (reads fuel).items_succ, (reads fuel).members_succ⟩

/-- **A printed document** is read as the value it was printed from. -/
theorem ofText_render (v : JsonValue) : ofText v.render = (v.reading, true) := by
  have hread := @(reads (2 * v.render.toList.length + 2)).value 0 v [] (by simp [Ends])
    (Nat.le_add_right _ 2)
  rw [List.append_nil] at hread
  simp only [ofText]
  rw [JsonValue.render] at hread ⊢
  simp only [hread]
  rfl

end JsonReading

end Lode
