/-
# Texts as bytes

Decoding is the inverse of encoding, in both directions: bytes hold a text exactly if they are its encoding
(`decodeUtf8_eq_ok`).  Both go character by character, so everything rests on one character: what
`decodeChar` takes off the front is the encoding of the character that it finds
(`eq_append_of_decodeChar`), and it finds the character of every encoding (`decodeChar_utf8EncodeChar`).

A decoder has to refuse three things besides bytes that are missing: encodings that are longer than they have
to be, surrogates, and numbers beyond the last character.  The first half shows that it refuses enough, as
nothing that it accepts is anything but an encoding, and the second that it does not refuse too much.  In
both, the cases are the four lengths of an encoding, and in each the bits of the bytes are those of the
number of the character.
-/
import Lode.Proofs.Except
import Lode.Text.Bytes
import Lode.Text.Utf8

namespace Lode

/-! ## 1. The bytes of a character -/

theorem toNat_charOfNat {n : Nat} (h : n < 0xd800 ∨ 0xdfff < n ∧ n < 0x110000) :
    (Char.ofNat n).toNat = n := by
  have hvalid : n.isValidChar := h
  rw [Char.ofNat, dif_pos hvalid]
  rfl

theorem Char.toNat_range (c : Char) : c.toNat < 0xd800 ∨ 0xdfff < c.toNat ∧ c.toNat < 0x110000 :=
  c.valid

section Encode

variable {c : Char}

theorem utf8EncodeChar_one (h : c.toNat < 0x80) : String.utf8EncodeChar c = [UInt8.ofNat c.toNat] :=
  if_pos (Nat.le_of_lt_succ h)

theorem utf8EncodeChar_two (hlow : 0x80 ≤ c.toNat) (hhigh : c.toNat < 0x800) :
    String.utf8EncodeChar c = [UInt8.ofNat (c.toNat / 64 + 192), UInt8.ofNat (c.toNat % 64 + 128)] := by
  have hv : c.val.toNat = c.toNat := rfl
  simp only [String.utf8EncodeChar, hv]
  rw [if_neg (by omega), if_pos (by omega), Nat.mod_eq_of_lt (a := c.toNat / 64) (by omega)]

theorem utf8EncodeChar_three (hlow : 0x800 ≤ c.toNat) (hhigh : c.toNat < 0x10000) :
    String.utf8EncodeChar c = [UInt8.ofNat (c.toNat / 4096 + 224),
      UInt8.ofNat (c.toNat / 64 % 64 + 128), UInt8.ofNat (c.toNat % 64 + 128)] := by
  have hv : c.val.toNat = c.toNat := rfl
  simp only [String.utf8EncodeChar, hv]
  rw [if_neg (by omega), if_neg (by omega), if_pos (by omega),
    Nat.mod_eq_of_lt (a := c.toNat / 4096) (by omega)]

/-- A character of four bytes. -/
theorem utf8EncodeChar_four (hlow : 0x10000 ≤ c.toNat) :
    String.utf8EncodeChar c = [UInt8.ofNat (c.toNat / 262144 + 240),
      UInt8.ofNat (c.toNat / 4096 % 64 + 128), UInt8.ofNat (c.toNat / 64 % 64 + 128),
      UInt8.ofNat (c.toNat % 64 + 128)] := by
  have hv : c.val.toNat = c.toNat := rfl
  have hrange := Char.toNat_range c
  simp only [String.utf8EncodeChar, hv]
  rw [if_neg (by omega), if_neg (by omega), if_neg (by omega),
    Nat.mod_eq_of_lt (a := c.toNat / 262144) (by omega)]

end Encode

/-! ## 2. Reading a character -/

theorem isContinuation_iff {b : UInt8} : isContinuation b = true ↔ 128 ≤ b.toNat ∧ b.toNat < 192 := by
  simp only [isContinuation, Bool.and_eq_true, decide_eq_true_eq, UInt8.le_iff_toNat_le,
    UInt8.reduceToNat]
  omega

/-- The second of three bytes keeps the code off the shorter forms and off the surrogates. -/
theorem isSecondOfThree_iff {first second : UInt8} (hfirst : 224 ≤ first.toNat ∧ first.toNat < 240) :
    isSecondOfThree first second = true ↔ 128 ≤ second.toNat ∧ second.toNat < 192 ∧
      32 ≤ first.toNat % 16 * 64 + second.toNat % 64 ∧
      (first.toNat % 16 * 64 + second.toNat % 64 < 0x360 ∨
        0x380 ≤ first.toNat % 16 * 64 + second.toNat % 64) := by
  simp only [isSecondOfThree, isContinuation, Bool.or_eq_true, Bool.and_eq_true, decide_eq_true_eq,
    beq_iff_eq, UInt8.le_iff_toNat_le, ← UInt8.toNat_inj, UInt8.reduceToNat]
  omega

/-- The second of four bytes keeps the code between the shorter forms and the last character. -/
theorem isSecondOfFour_iff {first second : UInt8} (hfirst : 240 ≤ first.toNat ∧ first.toNat < 245) :
    isSecondOfFour first second = true ↔ 128 ≤ second.toNat ∧ second.toNat < 192 ∧
      16 ≤ first.toNat % 8 * 64 + second.toNat % 64 ∧
      first.toNat % 8 * 64 + second.toNat % 64 < 0x110 := by
  simp only [isSecondOfFour, isContinuation, Bool.or_eq_true, Bool.and_eq_true, decide_eq_true_eq,
    beq_iff_eq, UInt8.le_iff_toNat_le, ← UInt8.toNat_inj, UInt8.reduceToNat]
  omega

theorem ofNat_eq_of_toNat {n : Nat} {b : UInt8} (h : n = b.toNat) : UInt8.ofNat n = b :=
  h ▸ UInt8.ofNat_toNat

/-- What was read is the encoding of the character that was found. -/
theorem eq_append_of_decodeChar {first : UInt8} {tail rest : List UInt8} {c : Char} {count : Nat}
    (h : decodeChar first tail = .ok (c, count, rest)) :
    first :: tail = String.utf8EncodeChar c ++ rest := by
  have hfirst := first.toNat_lt
  simp only [decodeChar, Bool.and_eq_true, decide_eq_true_eq, UInt8.lt_iff_toNat_lt,
    UInt8.le_iff_toNat_le, UInt8.reduceToNat, Bool.not_eq_true'] at h
  -- the first byte tells how many there are
  split at h
  · simp only [Except.ok.injEq, Prod.mk.injEq] at h
    obtain ⟨rfl, -, rfl⟩ := h
    have hcode := toNat_charOfNat (n := first.toNat) (by omega)
    rw [utf8EncodeChar_one (by omega), hcode, ofNat_eq_of_toNat rfl]
    rfl
  split at h
  · cases tail with
    | nil => cases h
    | cons b tail =>
      simp only [ite_else_error_eq_ok, Except.ok.injEq, Prod.mk.injEq, isContinuation_iff] at h
      obtain ⟨hb, rfl, -, rfl⟩ := h
      unfold continuationBits
      have hcode := toNat_charOfNat (n := first.toNat % 32 * 64 + b.toNat % 64) (by omega)
      rw [utf8EncodeChar_two (by omega) (by omega), hcode, ofNat_eq_of_toNat (b := first) (by omega),
        ofNat_eq_of_toNat (b := b) (by omega)]
      rfl
  split at h
  · cases tail with
    | nil => cases h
    | cons b tail =>
      obtain ⟨hb, h⟩ := ite_error_eq_ok.mp h
      cases tail with
      | nil => cases h
      | cons d tail =>
        simp only [ite_error_eq_ok, Except.ok.injEq, Prod.mk.injEq, Bool.not_eq_false,
          isContinuation_iff] at h
        obtain ⟨hd, rfl, -, rfl⟩ := h
        rw [Bool.not_eq_false, isSecondOfThree_iff (by omega)] at hb
        unfold continuationBits
        have hcode := toNat_charOfNat
          (n := (first.toNat % 16 * 64 + b.toNat % 64) * 64 + d.toNat % 64) (by omega)
        rw [utf8EncodeChar_three (by omega) (by omega), hcode, ofNat_eq_of_toNat (b := first) (by omega),
          ofNat_eq_of_toNat (b := b) (by omega), ofNat_eq_of_toNat (b := d) (by omega)]
        rfl
  split at h
  · cases tail with
    | nil => cases h
    | cons b tail =>
      obtain ⟨hb, h⟩ := ite_error_eq_ok.mp h
      cases tail with
      | nil => cases h
      | cons d tail =>
        obtain ⟨hd, h⟩ := ite_error_eq_ok.mp h
        cases tail with
        | nil => cases h
        | cons e tail =>
          simp only [ite_error_eq_ok, Except.ok.injEq, Prod.mk.injEq, Bool.not_eq_false,
            isContinuation_iff] at h
          obtain ⟨he, rfl, -, rfl⟩ := h
          rw [Bool.not_eq_false, isContinuation_iff] at hd
          rw [Bool.not_eq_false, isSecondOfFour_iff (by omega)] at hb
          unfold continuationBits
          have hcode := toNat_charOfNat (n := ((first.toNat % 8 * 64 + b.toNat % 64) * 64 +
            d.toNat % 64) * 64 + e.toNat % 64) (by omega)
          rw [utf8EncodeChar_four (by omega), hcode, ofNat_eq_of_toNat (b := first) (by omega),
            ofNat_eq_of_toNat (b := b) (by omega), ofNat_eq_of_toNat (b := d) (by omega),
            ofNat_eq_of_toNat (b := e) (by omega)]
          rfl
  · cases h

theorem toNat_byteOfNat {n : Nat} (h : n < 256) : (UInt8.ofNat n).toNat = n := by
  simpa using h

/-- The encoding of a character is read back. -/
theorem decodeChar_utf8EncodeChar (c : Char) (rest : List UInt8) :
    ∃ first tail, String.utf8EncodeChar c ++ rest = first :: tail ∧
      decodeChar first tail = .ok (c, (String.utf8EncodeChar c).length, rest) := by
  have hrange := Char.toNat_range c
  have hc : Char.ofNat c.toNat = c := Char.ofNat_toNat c
  by_cases hone : c.toNat < 0x80
  · rw [utf8EncodeChar_one hone]
    simp only [List.cons_append, List.nil_append]
    refine ⟨_, _, rfl, ?_⟩
    have hfirst := toNat_byteOfNat (n := c.toNat) (by omega)
    simp only [decodeChar, UInt8.lt_iff_toNat_lt, UInt8.reduceToNat, hfirst, if_pos hone, hc]
    rfl
  by_cases htwo : c.toNat < 0x800
  · rw [utf8EncodeChar_two (by omega) htwo]
    simp only [List.cons_append, List.nil_append]
    refine ⟨_, _, rfl, ?_⟩
    have hfirst := toNat_byteOfNat (n := c.toNat / 64 + 192) (by omega)
    have hsecond := toNat_byteOfNat (n := c.toNat % 64 + 128) (by omega)
    simp only [decodeChar, Bool.and_eq_true, decide_eq_true_eq, UInt8.lt_iff_toNat_lt,
      UInt8.le_iff_toNat_le, UInt8.reduceToNat, isContinuation_iff, continuationBits, hfirst, hsecond]
    rw [if_neg (by omega), if_pos (by omega), if_pos (by omega),
      show (c.toNat / 64 + 192) % 32 * 64 + (c.toNat % 64 + 128) % 64 = c.toNat by omega, hc]
    rfl
  by_cases hthree : c.toNat < 0x10000
  · rw [utf8EncodeChar_three (by omega) hthree]
    simp only [List.cons_append, List.nil_append]
    refine ⟨_, _, rfl, ?_⟩
    have hfirst := toNat_byteOfNat (n := c.toNat / 4096 + 224) (by omega)
    have hsecond := toNat_byteOfNat (n := c.toNat / 64 % 64 + 128) (by omega)
    have hthird := toNat_byteOfNat (n := c.toNat % 64 + 128) (by omega)
    have hok := (@isSecondOfThree_iff (UInt8.ofNat (c.toNat / 4096 + 224))
      (UInt8.ofNat (c.toNat / 64 % 64 + 128)) (by omega)).mpr (by omega)
    have hcont := (isContinuation_iff (b := UInt8.ofNat (c.toNat % 64 + 128))).mpr (by omega)
    simp only [decodeChar, Bool.and_eq_true, decide_eq_true_eq, UInt8.lt_iff_toNat_lt,
      UInt8.le_iff_toNat_le, UInt8.reduceToNat, hok, hcont, continuationBits, hfirst, hsecond, hthird]
    rw [if_neg (by omega), if_neg (by omega), if_pos (by omega)]
    simp only [Bool.not_true, Bool.false_eq_true, if_false]
    rw [show ((c.toNat / 4096 + 224) % 16 * 64 + (c.toNat / 64 % 64 + 128) % 64) * 64 +
      (c.toNat % 64 + 128) % 64 = c.toNat by omega, hc]
    rfl
  · rw [utf8EncodeChar_four (by omega)]
    simp only [List.cons_append, List.nil_append]
    refine ⟨_, _, rfl, ?_⟩
    have hfirst := toNat_byteOfNat (n := c.toNat / 262144 + 240) (by omega)
    have hsecond := toNat_byteOfNat (n := c.toNat / 4096 % 64 + 128) (by omega)
    have hthird := toNat_byteOfNat (n := c.toNat / 64 % 64 + 128) (by omega)
    have hfourth := toNat_byteOfNat (n := c.toNat % 64 + 128) (by omega)
    have hok := (@isSecondOfFour_iff (UInt8.ofNat (c.toNat / 262144 + 240))
      (UInt8.ofNat (c.toNat / 4096 % 64 + 128)) (by omega)).mpr (by omega)
    have hcont := (isContinuation_iff (b := UInt8.ofNat (c.toNat / 64 % 64 + 128))).mpr (by omega)
    have hcont' := (isContinuation_iff (b := UInt8.ofNat (c.toNat % 64 + 128))).mpr (by omega)
    simp only [decodeChar, Bool.and_eq_true, decide_eq_true_eq, UInt8.lt_iff_toNat_lt,
      UInt8.le_iff_toNat_le, UInt8.reduceToNat, hok, hcont, hcont', continuationBits, hfirst, hsecond,
      hthird, hfourth]
    rw [if_neg (by omega), if_neg (by omega), if_neg (by omega), if_pos (by omega)]
    simp only [Bool.not_true, Bool.false_eq_true, if_false]
    rw [show (((c.toNat / 262144 + 240) % 8 * 64 + (c.toNat / 4096 % 64 + 128) % 64) * 64 +
      (c.toNat / 64 % 64 + 128) % 64) * 64 + (c.toNat % 64 + 128) % 64 = c.toNat by omega, hc]
    rfl

/-! ## 3. Texts -/

theorem length_encodeUtf8 (text : String) : (encodeUtf8 text).length = text.utf8ByteSize := by
  rw [← String.size_toByteArray, ← String.utf8Encode_toList, List.utf8Encode, List.size_toByteArray]
  rfl

/-- The length of a text in bytes. -/
theorem byteLength_toList (text : String) : byteLength text.toList = text.utf8ByteSize := by
  rw [← length_encodeUtf8, encodeUtf8]
  induction text.toList with
  | nil => rfl
  | cons c cs ih =>
    rw [byteLength_cons, ih, List.flatMap_cons, List.length_append, String.length_utf8EncodeChar]

/-- The first byte of a character of several bytes is no byte of one. -/
theorem utf8EncodeChar_wide {c : Char} (h : 0x80 ≤ c.toNat) :
    ∃ first later, String.utf8EncodeChar c = first :: later ∧ 0x80 ≤ first.toNat := by
  have hrange := Char.toNat_range c
  by_cases htwo : c.toNat < 0x800
  · exact ⟨_, _, utf8EncodeChar_two h htwo, by rw [toNat_byteOfNat (by omega)]; omega⟩
  · by_cases hthree : c.toNat < 0x10000
    · exact ⟨_, _, utf8EncodeChar_three (by omega) hthree, by rw [toNat_byteOfNat (by omega)]; omega⟩
    · exact ⟨_, _, utf8EncodeChar_four (by omega), by rw [toNat_byteOfNat (by omega)]; omega⟩

theorem utf8Size_of_toNat_lt {c : Char} (h : c.toNat < 0x80) : c.utf8Size = 1 := by
  rw [← String.length_utf8EncodeChar, utf8EncodeChar_one h]
  rfl

theorem length_utf8EncodeChar_pos (c : Char) : 0 < (String.utf8EncodeChar c).length := by
  rw [String.length_utf8EncodeChar]
  exact Char.utf8Size_pos c

/-- **What was read** are the encodings of the characters that were found. -/
theorem eq_flatMap_of_decodeCharsFrom : ∀ {fuel index : Nat} {bytes : List UInt8} {cs : List Char},
    decodeCharsFrom fuel index bytes = .ok cs → bytes = cs.flatMap String.utf8EncodeChar
  | _, _, [], cs, h => by
    obtain rfl : [] = cs := by simpa [decodeCharsFrom] using h
    rfl
  | 0, index, _ :: _, cs, h => by cases h
  | fuel + 1, index, first :: tail, cs, h => by
    rw [decodeCharsFrom] at h
    cases hchar : decodeChar first tail with
    | error broken =>
      rw [hchar] at h
      cases h
    | ok found =>
      obtain ⟨c, count, rest⟩ := found
      rw [hchar] at h
      obtain ⟨cs', hrest, rfl⟩ := map_eq_ok.mp h
      rw [List.flatMap_cons, ← eq_flatMap_of_decodeCharsFrom hrest]
      exact eq_append_of_decodeChar hchar

/-- **The encodings of characters** are read back. -/
theorem decodeCharsFrom_flatMap : ∀ (cs : List Char) {fuel : Nat} (index : Nat),
    (cs.flatMap String.utf8EncodeChar).length ≤ fuel →
    decodeCharsFrom fuel index (cs.flatMap String.utf8EncodeChar) = .ok cs
  | [], fuel, index, _ => by cases fuel <;> rfl
  | c :: cs, fuel, index, hfuel => by
    have hpos := length_utf8EncodeChar_pos c
    rw [List.flatMap_cons, List.length_append] at hfuel
    obtain ⟨first, tail, hbytes, hchar⟩ :=
      decodeChar_utf8EncodeChar c (cs.flatMap String.utf8EncodeChar)
    rw [List.flatMap_cons, hbytes]
    cases fuel with
    | zero => omega
    | succ fuel =>
      rw [decodeCharsFrom, hchar]
      exact map_eq_ok.mpr ⟨cs, decodeCharsFrom_flatMap cs _ (by omega), rfl⟩

/-- **Bytes hold a text exactly if they are its encoding.** -/
theorem decodeUtf8_eq_ok {bytes : List UInt8} {text : String} :
    decodeUtf8 bytes = .ok text ↔ bytes = encodeUtf8 text := by
  constructor
  · intro h
    obtain ⟨cs, hcs, rfl⟩ := map_eq_ok.mp h
    rw [encodeUtf8, String.toList_ofList]
    exact eq_flatMap_of_decodeCharsFrom hcs
  · rintro rfl
    exact map_eq_ok.mpr ⟨text.toList, decodeCharsFrom_flatMap _ 0 (Nat.le_refl _), String.ofList_toList⟩

end Lode
