/-
# Type descriptors

The binary form of types in archives.  A byte says which kind of type it is; integers then have
their width with the sign in the top bit, functions their result and a counted list of parameters,
and phantom types a counted name.  Lists and names of more than 255 cannot be written.

Texts hold descriptors as hexadecimal digits of either case.
-/
import Lode.Text.Utf8

namespace Lode.Ty

/-! ## 1. Writing -/

/-- A count in one byte. -/
def countByte (count : Nat) (problem : DescriptorProblem) : Except DescriptorProblem UInt8 :=
  if count < 256 then .ok (UInt8.ofNat count) else .error problem

mutual

/-- The descriptor of a type. -/
def encode : Ty → Except DescriptorProblem (List UInt8)
  | int width signed => .ok [0x01, UInt8.ofNat width ||| (if signed then 0x80 else 0)]
  | ref target => do return 0x02 :: (← encode target)
  | function result params => do
    let front ← encode result
    let count ← countByte params.length (.tooManyArguments params.length)
    let back ← encodeAll params
    return 0x03 :: front ++ count :: back
  | void => .ok [0x04]
  | phantom name => do
    let bytes := encodeUtf8 name
    let count ← countByte bytes.length (.nameTooLong bytes.length)
    return 0x05 :: count :: bytes

/-- The descriptors of a list of types. -/
def encodeAll : List Ty → Except DescriptorProblem (List UInt8)
  | [] => .ok []
  | t :: ts => do
    let front ← encode t
    let back ← encodeAll ts
    return front ++ back

end

/-- The digits of a descriptor. -/
def toHex (t : Ty) : Except DescriptorProblem String := t.encode.map hexBytes

/-! ## 2. Reading -/

/-- One byte and the bytes after it. -/
def takeByte : List UInt8 → Except DescriptorProblem (UInt8 × List UInt8)
  | [] => .error .truncated
  | b :: bs => .ok (b, bs)

/-- A number of values in a row. -/
def decodeMany {α : Type} (decodeOne : List UInt8 → Except DescriptorProblem (α × List UInt8)) :
    Nat → List UInt8 → Except DescriptorProblem (List α × List UInt8)
  | 0, bs => .ok ([], bs)
  | count + 1, bs => do
    let (a, bs) ← decodeOne bs
    let (as, bs) ← decodeMany decodeOne count bs
    return (a :: as, bs)

/-- A type at the front of a list of bytes, at most `fuel` types deep. -/
def decodeWithin : Nat → List UInt8 → Except DescriptorProblem (Ty × List UInt8)
  | 0, _ => .error .truncated
  | fuel + 1, bs => do
    let (tag, bs) ← takeByte bs
    if tag = 0x01 then
      let (b, bs) ← takeByte bs
      let width := b.toNat % 128
      if width < 1 || 4 < width then throw (.integerWidth width)
      return (int width (decide (128 ≤ b.toNat)), bs)
    else if tag = 0x02 then
      let (target, bs) ← decodeWithin fuel bs
      return (ref target, bs)
    else if tag = 0x03 then
      let (result, bs) ← decodeWithin fuel bs
      let (count, bs) ← takeByte bs
      let (params, bs) ← decodeMany (decodeWithin fuel) count.toNat bs
      return (function result params, bs)
    else if tag = 0x04 then return (void, bs)
    else if tag = 0x05 then
      let (count, bs) ← takeByte bs
      if bs.length < count.toNat then throw .truncatedName
      let name ← (decodeUtf8 (bs.take count.toNat)).mapError .nameEncoding
      return (phantom name, bs.drop count.toNat)
    else throw (.unknownTag tag)

/-- The type of a descriptor.  Every nested type takes a byte. -/
def decode (bytes : List UInt8) : Except DescriptorProblem Ty := do
  match ← decodeWithin (bytes.length + 1) bytes with
  | (t, []) => return t
  | (_, rest) => throw (.trailing rest.length)

/-- The value of a digit. -/
def digitOf (b : UInt8) : Except DescriptorProblem UInt8 :=
  match digitValue? 16 (Char.ofNat b.toNat) with
  | some d => .ok (UInt8.ofNat d)
  | none => .error (.invalidDigit b)

/-- The bytes of pairs of digits. -/
def pairBytes : List UInt8 → Except DescriptorProblem (List UInt8)
  | high :: low :: rest => do
    let h ← digitOf high
    let l ← digitOf low
    let bytes ← pairBytes rest
    return (h * 16 + l) :: bytes
  | _ => .ok []

/-- The type of a text of digits. -/
def ofHex (text : String) : Except DescriptorProblem Ty := do
  let digits := encodeUtf8 text
  if digits.length % 2 ≠ 0 then throw .oddLength
  decode (← pairBytes digits)

end Lode.Ty
