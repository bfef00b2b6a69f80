/-
# Bytes as text

The UTF-8 encoding of texts and its inverse.  Decoding says where a list of bytes stops being text:
at the first byte that fits nowhere, with the number of bytes of the broken character, or with none
if the bytes end inside a character.
-/
import Lode.Error

namespace Lode

/-- The bytes of a text. -/
def encodeUtf8 (text : String) : List UInt8 := text.toList.flatMap String.utf8EncodeChar

/-- A byte that continues a character. -/
def isContinuation (b : UInt8) : Bool := 0x80 ≤ b && b ≤ 0xbf

/-- The six bits of a continuing byte. -/
def continuationBits (b : UInt8) : Nat := b.toNat % 64

/-- Whether the second byte of a character of three bytes may follow the first. -/
def isSecondOfThree (first second : UInt8) : Bool :=
  (first == 0xe0 && 0xa0 ≤ second && second ≤ 0xbf) ||
  (0xe1 ≤ first && first ≤ 0xec && isContinuation second) ||
  (first == 0xed && 0x80 ≤ second && second ≤ 0x9f) ||
  (0xee ≤ first && first ≤ 0xef && isContinuation second)

/-- Whether the second byte of a character of four bytes may follow the first. -/
def isSecondOfFour (first second : UInt8) : Bool :=
  (first == 0xf0 && 0x90 ≤ second && second ≤ 0xbf) ||
  (0xf1 ≤ first && first ≤ 0xf3 && isContinuation second) ||
  (first == 0xf4 && 0x80 ≤ second && second ≤ 0x8f)

/-- The first character of a list of bytes, the number of its bytes, and the bytes after it. -/
def decodeChar (first : UInt8) (rest : List UInt8) : Except (Option Nat) (Char × Nat × List UInt8) :=
  if first < 0x80 then .ok (Char.ofNat first.toNat, 1, rest)
  else if 0xc2 ≤ first && first ≤ 0xdf then
    match rest with
    | [] => .error none
    | b :: rest =>
      if isContinuation b then
        .ok (Char.ofNat (first.toNat % 32 * 64 + continuationBits b), 2, rest)
      else .error (some 1)
  else if 0xe0 ≤ first && first ≤ 0xef then
    match rest with
    | [] => .error none
    | b :: rest =>
      if !isSecondOfThree first b then .error (some 1)
      else
        match rest with
        | [] => .error none
        | c :: rest =>
          if !isContinuation c then .error (some 2)
          else .ok (Char.ofNat ((first.toNat % 16 * 64 + continuationBits b) * 64
            + continuationBits c), 3, rest)
  else if 0xf0 ≤ first && first ≤ 0xf4 then
    match rest with
    | [] => .error none
    | b :: rest =>
      if !isSecondOfFour first b then .error (some 1)
      else
        match rest with
        | [] => .error none
        | c :: rest =>
          if !isContinuation c then .error (some 2)
          else
            match rest with
            | [] => .error none
            | d :: rest =>
              if !isContinuation d then .error (some 3)
              else .ok (Char.ofNat (((first.toNat % 8 * 64 + continuationBits b) * 64
                + continuationBits c) * 64 + continuationBits d), 4, rest)
  else .error (some 1)

/-- The characters of bytes of which the first has the given index.  Every character takes at least
one byte, so the number of bytes is budget enough. -/
def decodeCharsFrom : Nat → Nat → List UInt8 → Except EncodingFault (List Char)
  | _, _, [] => .ok []
  | 0, index, _ :: _ => .error ⟨index, none⟩
  | fuel + 1, index, first :: rest =>
    match decodeChar first rest with
    | .error broken => .error ⟨index, broken⟩
    | .ok (c, count, rest) => (decodeCharsFrom fuel (index + count) rest).map (c :: ·)

/-- The text of a list of bytes. -/
def decodeUtf8 (bytes : List UInt8) : Except EncodingFault String :=
  (decodeCharsFrom bytes.length 0 bytes).map String.ofList

end Lode
