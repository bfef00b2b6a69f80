/-
# Instructions and their code

Compiled code is made of instructions, each of an opcode and an operand.  The operand is a byte, an address,
or the memory of a symbol, which is not known yet: it leaves a hole of zero bytes and a relocation that
covers exactly this hole.

`Instruction.codeOf` lays instructions out one after the other.  In such code every relocation covers the
operand of one instruction (`relocation_covers`), and the relocations follow each other without overlap
(`relocations_apart`).

Only the opcodes that are emitted occur in an instruction, each with the form of operand that goes with it,
so instructions that a processor would read otherwise than they were written cannot be made.  Laying out
goes along with joining code (`codeOf_append`): the relocations of the second part are shifted by the length
of the first one, and joining is associative with nothing as its unit, which is all that later modules use
of it.
-/
import Lode.Pass.Assembly

namespace Lode

/-! ## 1. Instructions -/

namespace Machine

/-- The form of an operand. -/
inductive OperandForm where
  | implied | immediate | zeroPage | absolute
deriving DecidableEq, Repr

/-- What an instruction works on. -/
inductive Operand where
  | implied
  | immediate (byte : UInt8)
  | zeroPage (address : UInt8)
  | absolute (low high : UInt8)
  /-- The memory of a symbol, in the zero page or anywhere. -/
  | symbol (name : String) (low : Bool)
deriving DecidableEq, Repr

namespace Operand

/-- The form of an operand. -/
def form : Operand → OperandForm
  | implied => .implied
  | immediate _ => .immediate
  | zeroPage _ => .zeroPage
  | absolute _ _ => .absolute
  | symbol _ true => .zeroPage
  | symbol _ false => .absolute

/-- How the address of a symbol is written. -/
def kind (low : Bool) : RelocationKind := if low then .zeroPage8 else .absolute16

/-- The bytes of an operand, zeros where an address is to come. -/
def bytes : Operand → List UInt8
  | implied => []
  | immediate byte => [byte]
  | zeroPage address => [address]
  | absolute low high => [low, high]
  | symbol _ low => List.replicate (kind low).size 0

/-- The hole that an operand leaves behind the opcode. -/
def hole? : Operand → Option Relocation
  | symbol name low => some ⟨1, name, kind low⟩
  | _ => none

end Operand

/-- The opcodes that are emitted, with the forms of their operands. -/
def emittedOpcodes : List (UInt8 × OperandForm) :=
  [(0xa9, .immediate), (0xa5, .zeroPage), (0xad, .absolute),
    (0x85, .zeroPage), (0x8d, .absolute),
    (0x69, .immediate), (0x65, .zeroPage), (0x6d, .absolute),
    (0xe9, .immediate), (0xe5, .zeroPage), (0xed, .absolute),
    (Opcodes.clc, .implied), (Opcodes.sec, .implied), (Opcodes.jsr, .absolute),
    (Opcodes.rts, .implied)]

/-- An instruction of the emitted ones. -/
structure Instruction where
  opcode : UInt8
  operand : Operand
  emitted : (opcode, operand.form) ∈ emittedOpcodes

end Machine

/-! ## 2. Code -/

namespace MachineCode

/-- No code. -/
def empty : MachineCode := ⟨[], []⟩

@[simp] theorem empty_append (c : MachineCode) : empty.append c = c := by
  simp [append, empty, Relocation.shifted]

@[simp] theorem append_empty (c : MachineCode) : c.append empty = c := by
  simp [append, empty]

theorem append_assoc (a b c : MachineCode) : (a.append b).append c = a.append (b.append c) := by
  simp [append, Relocation.shifted, Function.comp_def, Nat.add_comm, Nat.add_left_comm]

end MachineCode

namespace Machine.Instruction

/-- The code of an instruction. -/
def code (i : Instruction) : MachineCode := ⟨i.opcode :: i.operand.bytes, i.operand.hole?.toList⟩

/-- The code of instructions one after the other. -/
def codeOf : List Instruction → MachineCode
  | [] => .empty
  | i :: rest => i.code.append (codeOf rest)

@[simp] theorem codeOf_nil : codeOf [] = .empty := rfl

theorem codeOf_singleton (i : Instruction) : codeOf [i] = i.code := MachineCode.append_empty _

/-- **Code is joined** as instructions are. -/
theorem codeOf_append : ∀ front back : List Instruction,
    codeOf (front ++ back) = (codeOf front).append (codeOf back)
  | [], back => (MachineCode.empty_append _).symm
  | i :: front, back => by
    rw [List.cons_append, codeOf, codeOf, codeOf_append front back, MachineCode.append_assoc]

/-! ## 3. Relocations -/

/-- A relocation of code covers exactly the operand of one of its instructions, and the operand is
made of zero bytes. -/
def Covers (instructions : List Instruction) (r : Relocation) : Prop :=
  ∃ front i back, instructions = front ++ i :: back ∧ r.offset = (codeOf front).bytes.length + 1 ∧
    i.operand.bytes = List.replicate r.kind.size 0

/-- A hole stands behind the opcode and is made of zeros. -/
theorem hole?_eq {operand : Operand} {r : Relocation} (h : operand.hole? = some r) :
    r.offset = 1 ∧ operand.bytes = List.replicate r.kind.size 0 := by
  cases operand with
  | symbol name low =>
    obtain rfl := Option.some.inj h
    exact ⟨rfl, rfl⟩
  | _ => cases h

/-- **Every relocation covers an operand.** -/
theorem relocation_covers : ∀ {instructions : List Instruction} {r : Relocation},
    r ∈ (codeOf instructions).relocations → Covers instructions r
  | [], r, h => by simp [MachineCode.empty] at h
  | i :: rest, r, h => by
    rcases List.mem_append.mp h with h | h
    · obtain ⟨hoffset, hbytes⟩ := hole?_eq (Option.mem_toList.mp h)
      exact ⟨[], i, rest, rfl, by simp [hoffset, MachineCode.empty], hbytes⟩
    · obtain ⟨r', hr', rfl⟩ := List.mem_map.mp h
      obtain ⟨front, j, back, rfl, hoffset, hbytes⟩ := relocation_covers hr'
      refine ⟨i :: front, j, back, rfl, ?_, hbytes⟩
      simp only [Relocation.shifted, hoffset, codeOf, MachineCode.append, List.length_append]
      omega

/-- What a relocation covers lies inside the code, and is zero. -/
theorem Covers.inside {instructions : List Instruction} {r : Relocation}
    (h : Covers instructions r) : r.offset + r.kind.size ≤ (codeOf instructions).bytes.length ∧
      ((codeOf instructions).bytes.drop r.offset).take r.kind.size =
        List.replicate r.kind.size 0 := by
  obtain ⟨front, i, back, rfl, hoffset, hbytes⟩ := h
  have hsplit : (codeOf (front ++ i :: back)).bytes =
      ((codeOf front).bytes ++ [i.opcode]) ++
        (List.replicate r.kind.size 0 ++ (codeOf back).bytes) := by
    rw [codeOf_append, codeOf, ← hbytes]
    simp [MachineCode.append, code]
  have hlength : ((codeOf front).bytes ++ [i.opcode]).length = r.offset := by
    simp [hoffset]
  rw [hsplit]
  constructor
  · simp only [List.length_append, List.length_replicate] at hlength ⊢
    omega
  · rw [← hlength, List.drop_left, List.take_left' (List.length_replicate ..)]

/-- **Relocations do not overlap.** -/
theorem relocations_apart : ∀ instructions : List Instruction,
    (codeOf instructions).relocations.Pairwise fun r r' => r.offset + r.kind.size ≤ r'.offset
  | [] => .nil
  | i :: rest => by
    refine List.pairwise_append.mpr ⟨?_, ?_, fun r hr r' hr' => ?_⟩
    · cases hhole : i.operand.hole? <;> simp [code, hhole]
    · refine List.pairwise_map.mpr ((relocations_apart rest).imp fun hle => ?_)
      simp only [Relocation.shifted]
      omega
    · obtain ⟨hoffset, hbytes⟩ := hole?_eq (Option.mem_toList.mp hr)
      obtain ⟨r'', _, rfl⟩ := List.mem_map.mp hr'
      have hlength := congrArg List.length hbytes
      simp only [List.length_replicate] at hlength
      simp only [Relocation.shifted, code, List.length_cons, hlength, hoffset]
      omega

end Machine.Instruction

end Lode
