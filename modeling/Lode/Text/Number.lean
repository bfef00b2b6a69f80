/-
# Reading numbers

An integer in a base is an optional sign and at least one digit.  Readers of bounded integers refuse
what lies outside their range.
-/
import Lode.Text.Hex
import Lode.Word

namespace Lode

/-- The value of a row of digits, added to what was read before. -/
def readDigits? (base : Nat) : List Char → Nat → Option Nat
  | [], acc => some acc
  | c :: cs, acc =>
    match digitValue? base c with
    | some d => readDigits? base cs (acc * base + d)
    | none => none

/-- The value of at least one digit. -/
def readNatural? (base : Nat) (cs : List Char) : Option Nat :=
  if cs.isEmpty then none else readDigits? base cs 0

/-- An unsigned integer below `bound`, perhaps with a plus sign. -/
def readUnsigned? (base bound : Nat) (cs : List Char) : Option Nat :=
  let digits := match cs with
    | '+' :: rest => rest
    | _ => cs
  (readNatural? base digits).filter (· < bound)

/-- A signed integer of eight bytes. -/
def readWord64? (base : Nat) (cs : List Char) : Option Int :=
  let value : Option Int := match cs with
    | '-' :: rest => (readNatural? base rest).map fun n => -(n : Int)
    | '+' :: rest => (readNatural? base rest).map Int.ofNat
    | _ => (readNatural? base cs).map Int.ofNat
  value.bind checkWord64

/-- A number literal: decimal, hexadecimal after `0x` or `$`, or binary after `0b`. -/
def readLiteral? (text : String) : Option Int :=
  match text.toList with
  | '0' :: 'x' :: digits => readWord64? 16 digits
  | '$' :: digits => readWord64? 16 digits
  | '0' :: 'b' :: digits => readWord64? 2 digits
  | digits => readWord64? 10 digits

end Lode
