/-
# Numbers in digits

A byte is written as two hexadecimal digits, and both are read back.  Digits are characters of one byte, so
a text of digits is as long in bytes as in characters; this matters because some readers of digits go by
bytes and others by characters, and on digits they have to agree.

The decimal digits of a number are read back as the number, and begin with a zero only if the number is
zero.  The second is what keeps a number apart from the other ways in which literals can begin.

Reading digits in a base is one function for all bases, which multiplies what it has read so far and adds
the next digit. It agrees with the function of the standard library on decimal digits
(`readDigits?_of_isDigit`), whose inverse is known there.
-/
import Lode.Proofs.Text.Utf8
import Lode.Text.Hex
import Lode.Text.Number

namespace Lode

/-! ## 1. Bytes in hexadecimal digits -/

theorem hexDigit_toNat_lt {n : Nat} (h : n < 16) : (hexDigit n).toNat < 0x80 := by
  revert n
  decide

theorem digitValue?_hexDigit {n : Nat} (h : n < 16) : digitValue? 16 (hexDigit n) = some n := by
  revert n
  decide

/-- What a digit says of its value and of its character. -/
theorem digitValue?_eq_some {base n : Nat} {c : Char} (h : digitValue? base c = some n) :
    n < base ∧ c.toNat < 0x80 := by
  have hle : ∀ last : Char, last.toNat < 0x80 → c ≤ last → c.toNat < 0x80 :=
    fun _ hlast hc => Nat.lt_of_le_of_lt hc hlast
  rw [digitValue?] at h
  obtain ⟨hlt, hn⟩ := Option.ite_none_right_eq_some.mp h
  refine ⟨Option.some.inj hn ▸ hlt, ?_⟩
  by_cases hdigit : '0' ≤ c ∧ c ≤ '9'
  · exact hle '9' (by decide) hdigit.2
  · by_cases hlower : 'a' ≤ c ∧ c ≤ 'f'
    · exact hle 'f' (by decide) hlower.2
    · by_cases hupper : 'A' ≤ c ∧ c ≤ 'F'
      · exact hle 'F' (by decide) hupper.2
      · simp [hdigit, hlower, hupper] at hlt

theorem lt_of_digitValue? {base n : Nat} {c : Char} (h : digitValue? base c = some n) : n < base :=
  (digitValue?_eq_some h).1

/-- Digits are characters of one byte. -/
theorem toNat_lt_of_digitValue? {base n : Nat} {c : Char} (h : digitValue? base c = some n) :
    c.toNat < 0x80 :=
  (digitValue?_eq_some h).2

/-- Two digits are read as a number below 256. -/
theorem readUnsigned?_digits {high low : Char} {a b : Nat} (ha : digitValue? 16 high = some a)
    (hb : digitValue? 16 low = some b) : readUnsigned? 16 256 [high, low] = some (a * 16 + b) := by
  have hplus : high ≠ '+' := by
    rintro rfl
    cases ha
  have := lt_of_digitValue? ha
  have := lt_of_digitValue? hb
  simp [readUnsigned?, readNatural?, readDigits?, hplus, ha, hb]
  omega

/-- The digits of a byte, the high one first. -/
def byteDigits (b : UInt8) : List Char := [hexDigit (b.toNat / 16), hexDigit (b.toNat % 16)]

theorem high_lt (b : UInt8) : b.toNat / 16 < 16 := by
  have := b.toNat_lt
  omega

theorem low_lt (b : UInt8) : b.toNat % 16 < 16 := Nat.mod_lt _ (by decide)

theorem toList_hexBytes (bytes : List UInt8) : (hexBytes bytes).toList = bytes.flatMap byteDigits := by
  rw [hexBytes, String.toList_join, List.flatMap_map]
  exact List.flatMap_congr fun b _ => String.toList_ofList

theorem utf8EncodeChar_hexDigit {n : Nat} (h : n < 16) :
    String.utf8EncodeChar (hexDigit n) = [UInt8.ofNat (hexDigit n).toNat] :=
  utf8EncodeChar_one (hexDigit_toNat_lt h)

/-- The digits of bytes, as bytes of a text. -/
theorem encodeUtf8_hexBytes (bytes : List UInt8) : encodeUtf8 (hexBytes bytes) =
    bytes.flatMap fun b => (byteDigits b).map fun c => UInt8.ofNat c.toNat := by
  rw [encodeUtf8, toList_hexBytes, List.flatMap_assoc]
  refine List.flatMap_congr fun b _ => ?_
  simp only [byteDigits, List.flatMap_cons, List.flatMap_nil, utf8EncodeChar_hexDigit (high_lt b),
    utf8EncodeChar_hexDigit (low_lt b)]
  rfl

/-! ## 2. Decimal numbers -/

theorem isDigit_iff {c : Char} : c.isDigit = true ↔ 48 ≤ c.toNat ∧ c.toNat ≤ 57 := by
  rw [Char.isDigit, Bool.and_eq_true, decide_eq_true_eq, decide_eq_true_eq]
  exact Iff.rfl

theorem digitValue?_of_isDigit {c : Char} (h : c.isDigit) : digitValue? 10 c = some (c.toNat - 48) := by
  have hdigit : '0' ≤ c ∧ c ≤ '9' := isDigit_iff.mp h
  obtain ⟨hlow, hhigh⟩ := isDigit_iff.mp h
  simp only [digitValue?]
  rw [if_pos hdigit, if_pos (by omega)]

/-- Decimal digits are read as their number. -/
theorem readDigits?_of_isDigit : ∀ {cs : List Char} (acc : Nat), (∀ c ∈ cs, c.isDigit) →
    readDigits? 10 cs acc = some (Nat.ofDigitChars 10 cs acc)
  | [], _, _ => rfl
  | c :: cs, acc, h => by
    obtain ⟨hc, hcs⟩ := List.forall_mem_cons.mp h
    rw [readDigits?, digitValue?_of_isDigit hc]
    simp only
    rw [readDigits?_of_isDigit _ hcs, Nat.mul_comm acc]
    rfl

theorem isDigit_of_mem_decimal {n : Nat} {c : Char} (h : c ∈ Nat.toDigits 10 n) : c.isDigit :=
  Nat.isDigit_of_mem_toDigits (by decide) (by decide) h

theorem exists_decimal (n : Nat) : ∃ c cs, Nat.toDigits 10 n = c :: cs ∧ c.isDigit := by
  cases hcs : Nat.toDigits 10 n with
  | nil => exact absurd hcs Nat.toDigits_ne_nil
  | cons c cs => exact ⟨c, cs, rfl, isDigit_of_mem_decimal (hcs ▸ List.mem_cons_self)⟩

/-- **The decimal digits** of a number are read back. -/
theorem readDigits?_decimal (n : Nat) : readDigits? 10 (Nat.toDigits 10 n) 0 = some n := by
  rw [readDigits?_of_isDigit 0 fun _ => isDigit_of_mem_decimal,
    Nat.ofDigitChars_toDigits (by decide) (by decide)]

theorem digitChar_ne_zero : ∀ n : Nat, n < 10 → 0 < n → n.digitChar ≠ '0' := by decide

/-- Only zero begins with a zero. -/
theorem head_decimal (n : Nat) (hpos : 0 < n) : ∃ c cs, Nat.toDigits 10 n = c :: cs ∧ c ≠ '0' := by
  induction n using Nat.strongRecOn with
  | _ n ih =>
    rw [Nat.toDigits_eq_if (by decide)]
    split
    · rename_i hlt
      exact ⟨_, [], rfl, digitChar_ne_zero n hlt hpos⟩
    · obtain ⟨c, cs, hcs, hc⟩ := ih (n / 10) (by omega) (by omega)
      exact ⟨c, cs ++ [(n % 10).digitChar], by rw [hcs]; rfl, hc⟩

end Lode
