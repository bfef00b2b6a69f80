/-
# Archives are read back

An archive is written exactly if all its types have descriptors, and what is written is read as the same
archive (`read_write`).  The parts of the document are taken one by one: bytes, types, names out of a fixed
set, records, and maps.  Each part is read back from what it is written as, whatever stands around it, since
the document has been taken apart by then; that the text of the document is read as the document is shown
elsewhere.

Only types can fail to be written, and so a map is written exactly if all its members are
(`membersToJson_ok_iff`).  What an archive can hold is a hypothesis (`Archive.Held`): offsets and values are
words of eight bytes, and maps have increasing names.

What is read as data is more than what is written: a pair may have a plus sign in place of its first digit
(`Decode.hexData_eq_ok`).  The digits of types have no signs (`Decode.pairBytes_eq_ok`).

A map is rebuilt member by member.  The names are written in increasing order, so every member goes to the
end of what was read before (`Sorted.set_last`).
-/
import Lode.Archive.Reader
import Lode.Archive.Writer
import Lode.Proofs.Json
import Lode.Proofs.Sorted
import Lode.Proofs.Types.Descriptor

namespace Lode

open Sorted (IncreasingKeys)

/-! ## 1. Archives that can be held -/

namespace Archive

/-- The types of an archive. -/
def types (a : Archive) : List Ty := a.symbols.map (·.2.type) ++ a.constants.map (·.2.type)

/-- What the fields of an archive can hold: symbols and constants are maps, offsets are unsigned and
values signed integers of eight bytes. -/
structure Held (a : Archive) : Prop where
  symbols : IncreasingKeys a.symbols
  constants : IncreasingKeys a.constants
  offsets : ∀ entry ∈ a.symbols, ∀ r ∈ entry.2.relocations, r.offset < 0x10000000000000000
  values : ∀ entry ∈ a.constants,
    -0x8000000000000000 ≤ entry.2.value ∧ entry.2.value < 0x8000000000000000

end Archive

/-! ## 2. Bytes and names -/

namespace Decode

/-- The bytes of pairs of characters, each of two digits or of a plus sign and a digit. -/
inductive Pairs : List Char → List UInt8 → Prop
  | nil : Pairs [] []
  | digits {high low : Char} {a b : Nat} {cs : List Char} {bytes : List UInt8} :
      digitValue? 16 high = some a → digitValue? 16 low = some b → Pairs cs bytes →
      Pairs (high :: low :: cs) (UInt8.ofNat (a * 16 + b) :: bytes)
  | signed {low : Char} {b : Nat} {cs : List Char} {bytes : List UInt8} :
      digitValue? 16 low = some b → Pairs cs bytes → Pairs ('+' :: low :: cs) (UInt8.ofNat b :: bytes)

theorem readUnsigned?_signed {low : Char} {b : Nat} (hb : digitValue? 16 low = some b) :
    readUnsigned? 16 256 ['+', low] = some b := by
  have := lt_of_digitValue? hb
  simp [readUnsigned?, readNatural?, readDigits?, hb]
  omega

/-- The pairs that stand for a byte. -/
theorem readUnsigned?_pair {high low : Char} {n : Nat} (h : readUnsigned? 16 256 [high, low] = some n) :
    ∃ b, digitValue? 16 low = some b ∧
      ((∃ a, digitValue? 16 high = some a ∧ n = a * 16 + b) ∨ high = '+' ∧ n = b) := by
  by_cases hplus : high = '+'
  · subst hplus
    cases hb : digitValue? 16 low with
    | none => simp [readUnsigned?, readNatural?, readDigits?, hb] at h
    | some b =>
      rw [readUnsigned?_signed hb] at h
      exact ⟨b, rfl, .inr ⟨rfl, (Option.some.inj h).symm⟩⟩
  · cases ha : digitValue? 16 high with
    | none => simp [readUnsigned?, readNatural?, readDigits?, hplus, ha] at h
    | some a =>
      cases hb : digitValue? 16 low with
      | none => simp [readUnsigned?, readNatural?, readDigits?, hplus, ha, hb] at h
      | some b =>
        rw [readUnsigned?_digits ha hb] at h
        exact ⟨b, rfl, .inl ⟨a, rfl, (Option.some.inj h).symm⟩⟩

/-- A character of several bytes is no number. -/
theorem readUnsigned?_wide {c : Char} (h : 1 < c.utf8Size) : readUnsigned? 16 256 [c] = none := by
  have hplus : c ≠ '+' := by
    rintro rfl
    exact absurd h (by decide)
  cases hc : digitValue? 16 c with
  | none => simp [readUnsigned?, readNatural?, readDigits?, hplus, hc]
  | some a => exact absurd (utf8Size_of_toNat_lt (toNat_lt_of_digitValue? hc)) (by omega)

theorem splitBytes_pair {high low : Char} (hhigh : high.toNat < 0x80) (hlow : low.toNat < 0x80)
    (cs : List Char) : splitBytes 2 (high :: low :: cs) = some ([high, low], cs) := by
  simp [splitBytes, utf8Size_of_toNat_lt hhigh, utf8Size_of_toNat_lt hlow]

/-- Two bytes of a text are two characters of one byte or one of two. -/
theorem splitBytes_two {cs pair rest : List Char} (h : splitBytes 2 cs = some (pair, rest)) :
    (∃ high low, pair = [high, low] ∧ cs = high :: low :: rest) ∨ ∃ c, pair = [c] ∧ 1 < c.utf8Size := by
  obtain ⟨rfl, hlength⟩ := eq_append_of_splitBytes h
  match pair, hlength with
  | [c], hlength => exact .inr ⟨c, rfl, by simp only [byteLength_cons, byteLength_nil] at hlength; omega⟩
  | [high, low], _ => exact .inl ⟨high, low, rfl, rfl⟩
  | a :: b :: c :: _, hlength =>
    have := a.utf8Size_pos
    have := b.utf8Size_pos
    have := c.utf8Size_pos
    simp only [byteLength_cons] at hlength
    omega

/-- What is read as bytes is written in pairs. -/
theorem bytePairs_eq_ok : ∀ {fuel : Nat} {cs : List Char} {bytes : List UInt8},
    cs.length ≤ fuel → (bytePairs fuel cs = .ok bytes ↔ Pairs cs bytes)
  | _, [], bytes, _ => by
    rw [bytePairs]
    constructor
    · rintro ⟨⟩
      exact .nil
    · rintro ⟨⟩
      rfl
  | 0, _ :: _, _, h => absurd h (Nat.not_succ_le_zero _)
  | fuel + 1, c :: cs, bytes, h => by
    rw [bytePairs]
    constructor
    · intro hok
      cases hsplit : splitBytes 2 (c :: cs) with
      | none => simp [hsplit] at hok
      | some cut =>
        obtain ⟨pair, rest⟩ := cut
        cases hn : readUnsigned? 16 256 pair with
        | none => simp [hsplit, hn] at hok
        | some n =>
          simp only [hsplit, hn] at hok
          obtain ⟨bytes, hrest, hok⟩ := bind_eq_ok.mp hok
          obtain rfl := Except.ok.inj hok
          obtain ⟨high, low, rfl, hcs⟩ | ⟨c, rfl, hwide⟩ := splitBytes_two hsplit
          -- two bytes are two characters of one byte, or one of two, which is no digit
          · obtain ⟨rfl, rfl⟩ := List.cons.inj hcs
            have hpairs := (bytePairs_eq_ok (by simp only [List.length_cons] at h; omega)).mp hrest
            obtain ⟨b, hb, ⟨a, ha, rfl⟩ | ⟨rfl, rfl⟩⟩ := readUnsigned?_pair hn
            · exact .digits ha hb hpairs
            · exact .signed hb hpairs
          · rw [readUnsigned?_wide hwide] at hn
            cases hn
    · rintro (_ | ⟨ha, hb, hpairs⟩ | ⟨hb, hpairs⟩)
      · rw [splitBytes_pair (toNat_lt_of_digitValue? ha) (toNat_lt_of_digitValue? hb)]
        simp only [readUnsigned?_digits ha hb]
        rw [(bytePairs_eq_ok (by simp only [List.length_cons] at h; omega)).mpr hpairs]
        rfl
      · rw [splitBytes_pair (by decide) (toNat_lt_of_digitValue? hb)]
        simp only [readUnsigned?_signed hb]
        rw [(bytePairs_eq_ok (by simp only [List.length_cons] at h; omega)).mpr hpairs]
        rfl

/-- Pairs take two bytes of text for each byte. -/
theorem Pairs.byteLength {cs : List Char} {bytes : List UInt8} (h : Pairs cs bytes) :
    byteLength cs = 2 * bytes.length := by
  induction h with
  | nil => rfl
  | digits ha hb _ ih =>
    simp only [byteLength_cons, utf8Size_of_toNat_lt (toNat_lt_of_digitValue? ha),
      utf8Size_of_toNat_lt (toNat_lt_of_digitValue? hb), ih, List.length_cons]
    omega
  | signed hb _ ih =>
    simp only [byteLength_cons, utf8Size_of_toNat_lt (toNat_lt_of_digitValue? hb), ih, List.length_cons]
    have : '+'.utf8Size = 1 := by decide
    omega

/-- **The data of a symbol** is written in pairs of digits, in place of the first of which a plus sign
may stand. -/
theorem hexData_eq_ok {s : String} {bytes : List UInt8} : hexData s = .ok bytes ↔ Pairs s.toList bytes := by
  rw [hexData, ← bytePairs_eq_ok Nat.le.refl]
  by_cases heven : Lode.byteLength s.toList % 2 = 0
  · rw [if_neg (by omega)]
  · rw [if_pos heven]
    refine ⟨nofun, fun h => absurd ?_ heven⟩
    have := ((bytePairs_eq_ok Nat.le.refl).mp h).byteLength
    omega

/-- **Bytes** are read back from their digits. -/
theorem hexData_hexBytes (bytes : List UInt8) : hexData (hexBytes bytes) = .ok bytes := by
  rw [hexData_eq_ok, toList_hexBytes]
  induction bytes with
  | nil => exact .nil
  | cons b bytes ih =>
    have hpair := Pairs.digits (digitValue?_hexDigit (high_lt b)) (digitValue?_hexDigit (low_lt b)) ih
    rw [Nat.div_add_mod', UInt8.ofNat_toNat] at hpair
    exact hpair

/-- The digits of types are pairs without signs. -/
theorem pairs_of_pairBytes : ∀ {digits bytes : List UInt8} {cs : List Char},
    cs.flatMap String.utf8EncodeChar = digits → digits.length % 2 = 0 →
      Ty.pairBytes digits = .ok bytes → Pairs cs bytes ∧ '+' ∉ cs
  | [], _, cs, hcs, _, h => by
    obtain rfl := Except.ok.inj h
    cases cs with
    | nil => exact ⟨.nil, List.not_mem_nil⟩
    | cons c cs =>
      have := length_utf8EncodeChar_pos c
      have := congrArg List.length hcs
      simp only [List.flatMap_cons, List.length_append, List.length_nil] at this
      omega
  | [_], _, _, _, heven, _ => by simp at heven
  | high :: low :: digits, bytes, cs, hcs, heven, h => by
    obtain ⟨_, _, bs, hhigh, hlow, hrest, rfl⟩ := Ty.pairBytes_cons h
    obtain ⟨hhighlt, a, ha, rfl⟩ := Ty.digitOf_eq_ok hhigh
    obtain ⟨hlowlt, b, hb, rfl⟩ := Ty.digitOf_eq_ok hlow
    obtain ⟨c, tail, rfl, hc, rfl, htail⟩ := Ty.encoded_cons hcs hhighlt
    obtain ⟨d, cs, rfl, hd, rfl, hrestcs⟩ := Ty.encoded_cons htail.symm hlowlt
    obtain ⟨hpairs, hplus⟩ := pairs_of_pairBytes hrestcs.symm
      (by simp only [List.length_cons] at heven; omega) hrest
    rw [toNat_byteOfNat (by omega), Char.ofNat_toNat] at ha hb
    have hbyte : UInt8.ofNat a * 16 + UInt8.ofNat b = UInt8.ofNat (a * 16 + b) := by
      simp [UInt8.ofNat_add, UInt8.ofNat_mul]
    refine ⟨hbyte ▸ .digits ha hb hpairs, ?_⟩
    simp only [List.mem_cons, not_or]
    refine ⟨?_, ?_, hplus⟩
    · rintro rfl
      cases ha
    · rintro rfl
      cases hb

/-- Pairs without signs are read as digits of types. -/
theorem Pairs.pairBytes {cs : List Char} {bytes : List UInt8} (h : Pairs cs bytes) (hplus : '+' ∉ cs) :
    (cs.flatMap String.utf8EncodeChar).length % 2 = 0 ∧
      Ty.pairBytes (cs.flatMap String.utf8EncodeChar) = .ok bytes := by
  induction h with
  | nil => exact ⟨rfl, rfl⟩
  | @digits high low a b cs bytes ha hb _ ih =>
    simp only [List.mem_cons, not_or] at hplus
    obtain ⟨heven, hread⟩ := ih hplus.2.2
    have hbyte : UInt8.ofNat a * 16 + UInt8.ofNat b = UInt8.ofNat (a * 16 + b) := by
      simp [UInt8.ofNat_add, UInt8.ofNat_mul]
    simp only [List.flatMap_cons, utf8EncodeChar_one (toNat_lt_of_digitValue? ha),
      utf8EncodeChar_one (toNat_lt_of_digitValue? hb), List.cons_append, List.nil_append, Ty.pairBytes,
      Ty.digitOf_of_digitValue? ha, Ty.digitOf_of_digitValue? hb, hread, ok_bind, hbyte, List.length_cons]
    exact ⟨by omega, rfl⟩
  | signed => exact absurd List.mem_cons_self hplus

/-- **The digits of types** are read as those of data, except that they may not have a sign. -/
theorem pairBytes_eq_ok {s : String} {bytes : List UInt8} :
    (encodeUtf8 s).length % 2 = 0 ∧ Ty.pairBytes (encodeUtf8 s) = .ok bytes ↔
      hexData s = .ok bytes ∧ '+' ∉ s.toList := by
  rw [hexData_eq_ok]
  exact ⟨fun h => pairs_of_pairBytes rfl h.1 h.2, fun h => h.1.pairBytes h.2⟩

example : hexData "+1" = .ok [1] := rfl
example : hexData "aé0" = .error .cutCharacter := rfl

end Decode

theorem Section.ofName?_name (s : Section) : ofName? s.name = some s := by
  cases s <;> decide

theorem RelocationKind.ofName?_name (k : RelocationKind) : ofName? k.name = some k := by
  cases k <;> decide

/-! ## 3. Records -/

/-- **A relocation** is read back. -/
theorem Relocation.decode_toJson {r : Relocation} (h : r.offset < 0x10000000000000000) :
    decode r.toJson.reading = .ok r := by
  have hoffset : Decode.integer 0 0x10000000000000000 (.integer r.offset) = .ok r.offset := by
    rw [Decode.integer, if_pos]
    simp only [Bool.and_eq_true, decide_eq_true_eq]
    omega
  simp [decode, toJson, JsonValue.reading, JsonValue.memberReadings, Decode.record, Decode.byName, shape,
    hoffset, Decode.text, Decode.choice, RelocationKind.ofName?_name, Decode.required, ok_bind]

/-- Relocations are read back one after the other. -/
theorem Relocation.items_toJson : ∀ {rs : List Relocation},
    (∀ r ∈ rs, r.offset < 0x10000000000000000) →
    Decode.items decode (JsonValue.list (rs.map toJson)).reading = .ok rs
  | [], _ => rfl
  | r :: rs, h => by
    obtain ⟨hr, hrs⟩ := List.forall_mem_cons.mp h
    have ih := items_toJson hrs
    simp only [JsonValue.reading, Decode.items] at ih
    simp only [List.map_cons, JsonValue.reading, JsonValue.readings, Decode.items, List.mapM_cons, ih,
      decode_toJson hr, ok_bind]
    rfl

/-- A type is read back from its digits. -/
theorem Decode.type_text {t : Ty} {digits : String} (hsized : t.Sized) (h : t.toHex = .ok digits) :
    Decode.type (.text digits) = .ok t := by
  simp only [Decode.type, Decode.text, ok_bind, Ty.ofHex_toHex hsized h]
  rfl

/-- **A symbol** is read back. -/
theorem ObjectSymbol.decode_toJson {s : ObjectSymbol} {v : JsonValue}
    (hoffsets : ∀ r ∈ s.relocations, r.offset < 0x10000000000000000) (hsized : s.type.Sized)
    (h : s.toJson = .ok v) : decode v.reading = .ok s := by
  obtain ⟨digits, hdigits, h⟩ := bind_eq_ok.mp h
  obtain rfl := Except.ok.inj h
  have htype := Decode.type_text hsized hdigits
  have hrelocations := Relocation.items_toJson hoffsets
  simp only [JsonValue.reading] at hrelocations
  simp [decode, JsonValue.reading, JsonValue.memberReadings, Decode.record, Decode.byName, shape,
    Decode.text, Decode.choice, Section.ofName?_name, Decode.required, Decode.bytes,
    Decode.hexData_hexBytes, htype, hrelocations, ok_bind]

/-- **A constant** is read back. -/
theorem ObjectConstant.decode_toJson {c : ObjectConstant} {v : JsonValue}
    (hvalue : -0x8000000000000000 ≤ c.value ∧ c.value < 0x8000000000000000) (hsized : c.type.Sized)
    (h : c.toJson = .ok v) : decode v.reading = .ok c := by
  obtain ⟨digits, hdigits, h⟩ := bind_eq_ok.mp h
  obtain rfl := Except.ok.inj h
  have htype := Decode.type_text hsized hdigits
  have hread : Decode.integer (-0x8000000000000000) 0x8000000000000000 (.integer c.value) = .ok c.value := by
    rw [Decode.integer, if_pos]
    simpa using hvalue
  simp [decode, JsonValue.reading, JsonValue.memberReadings, Decode.record, Decode.byName, shape,
    Decode.required, htype, hread, ok_bind]

/-! ## 4. Maps -/

theorem JsonValue.reading_ne_unnamed (v : JsonValue) (r : JsonReading) : v.reading ≠ .unnamed r := by
  cases v <;> simp [reading]

/-- A key above all others goes to the end. -/
theorem Sorted.set_last {κ ν : Type} [Ord κ] [Std.OrientedOrd κ] {key : κ} (value : ν) :
    ∀ {entries : List (κ × ν)}, (∀ entry ∈ entries, compare entry.1 key = .lt) →
    set key value entries = entries ++ [(key, value)]
  | [], _ => rfl
  | (k, v) :: rest, h => by
    obtain ⟨hk, hrest⟩ := List.forall_mem_cons.mp h
    have ih := set_last value hrest
    rw [set] at ih
    rw [set, alter, Std.OrientedCmp.gt_of_lt hk]
    simp only [ih, List.cons_append]

namespace Archive

variable {α : Type} {toJson : α → Except DescriptorProblem JsonValue}

/-- A map is written exactly if all its members are. -/
theorem membersToJson_ok_iff {entries : List (String × α)} :
    (∃ v, membersToJson toJson entries = .ok v) ↔ ∀ entry ∈ entries, ∃ v, toJson entry.2 = .ok v := by
  have hmap : (∃ v, membersToJson toJson entries = .ok v) ↔
      ∃ ms, (entries.mapM fun entry => do return (entry.1, ← toJson entry.2)) = .ok ms := by
    simp only [membersToJson, bind_eq_ok, pure, Except.pure, Except.ok.injEq]
    exact ⟨fun ⟨_, ms, hms, _⟩ => ⟨ms, hms⟩, fun ⟨ms, hms⟩ => ⟨_, ms, hms, rfl⟩⟩
  rw [hmap, mapM_ok_iff]
  refine forall₂_congr fun entry _ => ?_
  simp only [bind_eq_ok, pure, Except.pure, Except.ok.injEq]
  exact ⟨fun ⟨_, v, hv, _⟩ => ⟨v, hv⟩, fun ⟨v, hv⟩ => ⟨_, v, hv, rfl⟩⟩

/-- Members in increasing order are read after what was read before. -/
theorem members_readings {decode : JsonReading → Decoded α} {entries : List (String × α)}
    {ms : List (String × JsonValue)}
    (h : List.Forall₂ (fun entry m => entry.1 = m.1 ∧ decode m.2.reading = .ok entry.2) entries ms) :
    ∀ {acc : List (String × α)}, IncreasingKeys (acc ++ entries) →
      Decode.members decode (JsonValue.memberReadings ms) acc = .ok (acc ++ entries) := by
  induction h with
  | nil =>
    intro acc _
    rw [JsonValue.memberReadings, Decode.members, List.append_nil]
  | @cons entry m entries ms hentry _ ih =>
    intro acc hinc
    obtain ⟨name, value⟩ := entry
    obtain ⟨_, v⟩ := m
    obtain ⟨rfl, hvalue⟩ := hentry
    have hbelow : ∀ entry ∈ acc, compare entry.1 name = .lt := by
      intro entry hentry
      rw [IncreasingKeys, Sorted.Increasing, List.map_append, List.pairwise_append] at hinc
      exact hinc.2.2 _ (List.mem_map_of_mem hentry) _ List.mem_cons_self
    rw [JsonValue.memberReadings, Decode.members, hvalue, ok_bind, Sorted.set_last value hbelow,
      ih (by simpa using hinc), List.append_assoc]
    · rfl
    · exact v.reading_ne_unnamed

/-- **A map** is read back if its members are. -/
theorem map_membersToJson {decode : JsonReading → Decoded α} {entries : List (String × α)}
    {v : JsonValue} (hinc : IncreasingKeys entries)
    (hdecode : ∀ entry ∈ entries, ∀ v, toJson entry.2 = .ok v → decode v.reading = .ok entry.2)
    (h : membersToJson toJson entries = .ok v) : Decode.map decode v.reading = .ok entries := by
  obtain ⟨ms, hms, hv⟩ := bind_eq_ok.mp h
  obtain rfl := Except.ok.inj hv
  refine members_readings ?_ hinc
  -- Every member was written under its own name.
  refine List.forall₂_iff_zip.mpr ⟨(forall₂_of_mapM hms).length_eq, fun {entry m} hmem => ?_⟩
  obtain ⟨v, hv, hm⟩ := bind_eq_ok.mp ((List.forall₂_iff_zip.mp (forall₂_of_mapM hms)).2 hmem)
  obtain rfl := Except.ok.inj hm
  exact ⟨rfl, hdecode entry (List.of_mem_zip hmem).1 v hv⟩

/-! ## 5. Archives -/

theorem symbol_toJson_ok_iff {s : ObjectSymbol} :
    (∃ v, s.toJson = .ok v) ↔ ∃ bytes, s.type.encode = .ok bytes := by
  rw [← Ty.toHex_ok_iff]
  simp only [ObjectSymbol.toJson, bind_eq_ok, pure, Except.pure, Except.ok.injEq]
  exact ⟨fun ⟨_, digits, h, _⟩ => ⟨digits, h⟩, fun ⟨digits, h⟩ => ⟨_, digits, h, rfl⟩⟩

theorem constant_toJson_ok_iff {c : ObjectConstant} :
    (∃ v, c.toJson = .ok v) ↔ ∃ bytes, c.type.encode = .ok bytes := by
  rw [← Ty.toHex_ok_iff]
  simp only [ObjectConstant.toJson, bind_eq_ok, pure, Except.pure, Except.ok.injEq]
  exact ⟨fun ⟨_, digits, h, _⟩ => ⟨digits, h⟩, fun ⟨digits, h⟩ => ⟨_, digits, h, rfl⟩⟩

/-- How an archive was written. -/
theorem write_eq_ok {a : Archive} {text : String} : a.write = .ok text ↔ ∃ symbols constants,
    membersToJson ObjectSymbol.toJson a.symbols = .ok symbols ∧
    membersToJson ObjectConstant.toJson a.constants = .ok constants ∧
    text = (JsonValue.object [("unit", .text a.unit), ("source_digest", .text a.digest),
      ("symbols", symbols), ("constants", constants)]).render := by
  have hwrite : a.write = .ok text ↔ ∃ v, a.toJson = .ok v ∧ text = v.render := by
    rw [write]
    cases a.toJson with
    | ok v => simp [eq_comm]
    | error e => simp
  rw [hwrite]
  simp only [Archive.toJson, bind_eq_ok, pure, Except.pure, Except.ok.injEq]
  constructor
  · rintro ⟨_, ⟨symbols, hsymbols, constants, hconstants, rfl⟩, rfl⟩
    exact ⟨symbols, constants, hsymbols, hconstants, rfl⟩
  · rintro ⟨symbols, constants, hsymbols, hconstants, rfl⟩
    exact ⟨_, ⟨symbols, hsymbols, constants, hconstants, rfl⟩, rfl⟩

/-- An archive is written exactly if all its types have descriptors. -/
theorem write_ok_iff {a : Archive} :
    (∃ text, a.write = .ok text) ↔ ∀ t ∈ a.types, ∃ bytes, t.encode = .ok bytes := by
  have hparts : (∃ text, a.write = .ok text) ↔
      (∃ v, membersToJson ObjectSymbol.toJson a.symbols = .ok v) ∧
        ∃ v, membersToJson ObjectConstant.toJson a.constants = .ok v := by
    simp only [write_eq_ok]
    constructor
    · rintro ⟨_, symbols, constants, hsymbols, hconstants, -⟩
      exact ⟨⟨symbols, hsymbols⟩, constants, hconstants⟩
    · rintro ⟨⟨symbols, hsymbols⟩, constants, hconstants⟩
      exact ⟨_, symbols, constants, hsymbols, hconstants, rfl⟩
  rw [hparts, membersToJson_ok_iff, membersToJson_ok_iff]
  simp only [symbol_toJson_ok_iff, constant_toJson_ok_iff, types, List.mem_append, List.mem_map, or_imp,
    forall_and, forall_exists_index, and_imp, forall_apply_eq_imp_iff₂]

theorem type_mem_of_symbol {a : Archive} {entry : String × ObjectSymbol} (h : entry ∈ a.symbols) :
    entry.2.type ∈ a.types :=
  List.mem_append_left _ (List.mem_map_of_mem h)

theorem type_mem_of_constant {a : Archive} {entry : String × ObjectConstant} (h : entry ∈ a.constants) :
    entry.2.type ∈ a.types :=
  List.mem_append_right _ (List.mem_map_of_mem h)

/-- The text of an archive is read as the archive. -/
theorem ofText_of_write {a : Archive} {text : String} (hheld : a.Held) (hsized : ∀ t ∈ a.types, t.Sized)
    (h : a.write = .ok text) : ofText text = .ok a := by
  obtain ⟨symbols, constants, hsymbols, hconstants, rfl⟩ := write_eq_ok.mp h
  have hreadSymbols := map_membersToJson hheld.symbols (fun entry hentry v =>
    ObjectSymbol.decode_toJson (hheld.offsets entry hentry) (hsized _ (type_mem_of_symbol hentry))) hsymbols
  have hreadConstants := map_membersToJson hheld.constants (fun entry hentry v =>
    ObjectConstant.decode_toJson (hheld.values entry hentry) (hsized _ (type_mem_of_constant hentry)))
      hconstants
  simp [ofText, JsonReading.ofText_render, decode, JsonValue.reading, JsonValue.memberReadings,
    JsonValue.reading_ne_unnamed, Decode.record, Decode.byName, shape, Decode.text, Decode.required,
    hreadSymbols, hreadConstants, ok_bind]

/-- **Archives survive writing and reading.**  An archive whose integers have one to four bytes is
written exactly if all its types have descriptors, and what is written is read as the same archive. -/
theorem read_write (a : Archive) (hheld : a.Held) (hsized : ∀ t ∈ a.types, t.Sized) :
    ((∃ text, a.write = .ok text) ↔ ∀ t ∈ a.types, ∃ bytes, t.encode = .ok bytes) ∧
      ∀ text, a.write = .ok text → read text = .ok a := by
  refine ⟨write_ok_iff, fun text h => ?_⟩
  rw [read, ofText_of_write hheld hsized h]
  rfl

theorem read_write_jump : ∃ text,
    (⟨"main", "0f", [("start", ⟨.text, [0x4c, 0, 0], .function .void [.ref (.int 2 true)],
      [⟨1, "start", .absolute16⟩]⟩)], [("limit", ⟨.int 1 false, -3⟩)]⟩ : Archive).write = .ok text ∧
    read text = .ok ⟨"main", "0f", [("start", ⟨.text, [0x4c, 0, 0], .function .void [.ref (.int 2 true)],
      [⟨1, "start", .absolute16⟩]⟩)], [("limit", ⟨.int 1 false, -3⟩)]⟩ := by
  obtain ⟨hok, hread⟩ := read_write ⟨"main", "0f", [("start", ⟨.text, [0x4c, 0, 0],
      .function .void [.ref (.int 2 true)], [⟨1, "start", .absolute16⟩]⟩)], [("limit", ⟨.int 1 false, -3⟩)]⟩
    ⟨by simp [IncreasingKeys, Sorted.Increasing], by simp [IncreasingKeys, Sorted.Increasing], by simp,
      by simp⟩ (by simp [types, Ty.Sized, Ty.AllSized])
  obtain ⟨text, htext⟩ := hok.mpr (by
    simp [types, Ty.encode_ok_iff, Ty.Short, Ty.AllShort])
  exact ⟨text, htext, hread text htext⟩

end Archive

end Lode
