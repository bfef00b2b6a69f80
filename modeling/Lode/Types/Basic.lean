/-
# Types

The types of values: integers of one to four bytes, addresses of values, functions, nothing, and
types that exist only while compiling.  This file says how large values are, which integers a type
holds, and which values may stand where another type is expected.
-/
import Lode.Word

namespace Lode

/-- A type of values. -/
inductive Ty where
  /-- An integer of `width` bytes. -/
  | int (width : Nat) (signed : Bool)
  /-- The address, of two bytes, of a value. -/
  | ref (target : Ty)
  /-- A function with its result and its parameters. -/
  | function (result : Ty) (params : List Ty)
  | void
  /-- A type without storage. -/
  | phantom (name : String)
deriving Repr

namespace Ty

/-- An unsigned byte. -/
def u8 : Ty := int 1 false

/-- An unsigned word of two bytes. -/
def u16 : Ty := int 2 false

instance : Inhabited Ty := ⟨void⟩

/-! ## 1. Equality -/

mutual

/-- Equality of types. -/
def beq : Ty → Ty → Bool
  | int w s, int w' s' => w == w' && s == s'
  | ref t, ref t' => beq t t'
  | function r ps, function r' ps' => beq r r' && beqAll ps ps'
  | void, void => true
  | phantom n, phantom n' => n == n'
  | _, _ => false

/-- Equality of lists of types. -/
def beqAll : List Ty → List Ty → Bool
  | [], [] => true
  | t :: ts, t' :: ts' => beq t t' && beqAll ts ts'
  | _, _ => false

end

mutual

theorem beq_iff : ∀ s t : Ty, beq s t = true ↔ s = t
  | int w s, t => by cases t <;> simp [beq]
  | ref s, t => by cases t <;> simp [beq, beq_iff s]
  | function r ps, t => by cases t <;> simp [beq, beq_iff r, beqAll_iff ps]
  | void, t => by cases t <;> simp [beq]
  | phantom n, t => by cases t <;> simp [beq]

theorem beqAll_iff : ∀ ss ts : List Ty, beqAll ss ts = true ↔ ss = ts
  | [], ts => by cases ts <;> simp [beqAll]
  | s :: ss, ts => by cases ts <;> simp [beqAll, beq_iff s, beqAll_iff ss]

end

instance : DecidableEq Ty := fun s t => decidable_of_iff _ (beq_iff s t)

/-! ## 2. Names -/

/-- The integer type of a width in bits. -/
def ofBits? (signed : Bool) : String → Option Ty
  | "8" => some (int 1 signed)
  | "16" => some (int 2 signed)
  | "24" => some (int 3 signed)
  | "32" => some (int 4 signed)
  | _ => none

/-- The type of a source name. -/
def ofName? (name : String) : Option Ty :=
  match name.toList with
  | 'u' :: bits => ofBits? false (String.ofList bits)
  | 'i' :: bits => ofBits? true (String.ofList bits)
  | _ => if name == "void" then some void else none

mutual

/-- A type as diagnostics show it. -/
def text : Ty → String
  | int width signed => (if signed then "i" else "u") ++ toString (width * 8)
  | ref target => "&" ++ text target
  | function result params => "fun(" ++ ", ".intercalate (texts params) ++ ") -> " ++ text result
  | void => "void"
  | phantom name => "phantom " ++ name

/-- The texts of a list of types. -/
def texts : List Ty → List String
  | [] => []
  | t :: ts => text t :: texts ts

end

/-! ## 3. Storage and ranges -/

/-- The size of a value in bytes. -/
def width : Ty → Nat
  | int width _ => width
  | ref _ | function _ _ => 2
  | void | phantom _ => 0

/-- What an address points to. -/
def target? : Ty → Option Ty
  | ref target => some target
  | _ => none

/-- An integer type. -/
def isInt : Ty → Bool
  | int _ _ => true
  | _ => false

/-- Whether an integer can be written as a value of the type.  An address is any unsigned word of
two bytes; functions and types without storage hold no integer. -/
def fits : Ty → Int → Bool
  | int width signed, value =>
    if signed then
      -(powerOfTwo (8 * width - 1) : Int) ≤ value && value < powerOfTwo (8 * width - 1)
    else
      0 ≤ value && value < powerOfTwo (8 * width)
  | ref _, value => 0 ≤ value && value ≤ 0xffff
  | _, _ => false

/-- Whether a value of the second type may be stored where the first is expected: integers widen
within the same signedness, all else must be equal. -/
def canAssignFrom : Ty → Ty → Bool
  | int width signed, int width' signed' => signed == signed' && width' ≤ width
  | s, t => s == t

/-- The smallest integer type that holds a literal, and the largest one if none does. -/
def ofLiteral (value : Int) : Ty :=
  let signed := decide (value < 0)
  (([1, 2, 3, 4].map (int · signed)).find? (·.fits value)).getD (int 4 signed)

end Ty

end Lode
