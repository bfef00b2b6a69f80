/-
# Running code

A processor with an accumulator and a carry, of which the instructions that are emitted for values are
modelled, calls apart.  Memory has a cell for every symbol and one for every address: where an operand is a
hole, it stands for the cell of its symbol.  So code can be run before it is linked, and what it does then
does not depend on where its symbols will be placed.

Code is run as bytes: at a place in the code there is an opcode, which tells the form of its operand, and
behind it the operand or a hole (`step`).  Nothing is known there of instructions.  Code that is made of
instructions runs them one after the other, up to the first return (`run_codeOf`), because each of them is
found where the one before it ended, with just its own operand and hole (`operandAt_codeOf`, `step_codeOf`).
Jumps into the middle of an instruction do not come up, since the code for values has no jumps.

A sum sets the carry if it is no byte, and a difference is a sum with the complement; with the carry
prepared as it should be, both are what they are called modulo 256 (`sumWith_false`, `sumWith_true`).
-/
import Lode.Proofs.Machine.Code
import Lode.Proofs.Program.Basic

namespace Lode.Machine

open Program (Place)

/-! ## 1. Operations -/

/-- The bytes in memory cells. -/
abbrev Memory := Place → UInt8

/-- The memory with another byte in a cell. -/
def Memory.set (memory : Memory) (place : Place) (byte : UInt8) : Memory :=
  Function.update memory place byte

/-- What instructions work on, the place in the code apart. -/
structure State where
  accumulator : UInt8
  carry : Bool
  memory : Memory

/-- What an instruction does with its operand. -/
inductive Operation where
  | load | store | add | subtract | clearCarry | setCarry | ret
deriving DecidableEq, Repr

/-- What an operand stands for. -/
inductive Source where
  | nothing
  | byte (byte : UInt8)
  | cell (place : Place)
deriving DecidableEq, Repr

/-- A sum with the carry, which is set if the sum is no byte. -/
def sumWith (carry : Bool) (a b : UInt8) : UInt8 × Bool :=
  let total := a.toNat + b.toNat + carry.toNat
  (UInt8.ofNat total, decide (256 ≤ total))

/-- The byte that an operand stands for. -/
def Source.read? (memory : Memory) : Source → Option UInt8
  | nothing => none
  | byte b => some b
  | cell place => some (memory place)

/-- What an operation makes of a state.  A subtraction adds the complement. -/
def Operation.apply (source : Source) (s : State) : Operation → Option State
  | load => (source.read? s.memory).map fun b => { s with accumulator := b }
  | store =>
    match source with
    | .cell place => some { s with memory := s.memory.set place s.accumulator }
    | _ => none
  | add => (source.read? s.memory).map fun b =>
    let sum := sumWith s.carry s.accumulator b
    { s with accumulator := sum.1, carry := sum.2 }
  | subtract => (source.read? s.memory).map fun b =>
    let sum := sumWith s.carry s.accumulator (~~~b)
    { s with accumulator := sum.1, carry := sum.2 }
  | clearCarry => some { s with carry := false }
  | setCarry => some { s with carry := true }
  | ret => none

theorem sumWith_false (a b : UInt8) : (sumWith false a b).1 = a + b := by
  simp [sumWith, UInt8.ofNat_add]

/-- A sum with the complement and a carry is a difference. -/
theorem sumWith_true (a b : UInt8) : (sumWith true a (~~~b)).1 = a - b := by
  have ha := a.toNat_lt
  have hb := b.toNat_lt
  rw [← UInt8.toNat_inj]
  simp only [sumWith, UInt8.toNat_ofNat', UInt8.toNat_sub, UInt8.toNat_not, UInt8.size, Bool.toNat_true]
  omega

/-! ## 2. Steps -/

/-- The opcodes with their operations and the forms of their operands. -/
def operations : List (UInt8 × Operation × OperandForm) :=
  [(0xa9, .load, .immediate), (0xa5, .load, .zeroPage), (0xad, .load, .absolute),
    (0x85, .store, .zeroPage), (0x8d, .store, .absolute),
    (0x69, .add, .immediate), (0x65, .add, .zeroPage), (0x6d, .add, .absolute),
    (0xe9, .subtract, .immediate), (0xe5, .subtract, .zeroPage), (0xed, .subtract, .absolute),
    (0x18, .clearCarry, .implied), (0x38, .setCarry, .implied), (0x60, .ret, .implied)]

/-- The number of bytes of an operand. -/
def OperandForm.size : OperandForm → Nat
  | implied => 0
  | immediate | zeroPage => 1
  | absolute => 2

/-- The operand behind the opcode at a place of code: the cell of a symbol, where there is a hole for it, and
else what the bytes say. -/
def operandAt (code : MachineCode) (pc : Nat) (form : OperandForm) : Option Source :=
  match form, code.relocations.find? (·.offset == pc + 1) with
  | .implied, _ => some .nothing
  | .immediate, _ => code.bytes[pc + 1]?.map .byte
  | _, some hole => some (.cell (.symbol hole.symbol))
  | .zeroPage, none => code.bytes[pc + 1]?.map fun low => .cell (.address low.toNat)
  | .absolute, none => do
    let low ← code.bytes[pc + 1]?
    let high ← code.bytes[pc + 2]?
    return .cell (.address (low.toNat + 256 * high.toNat))

/-- What comes of a step: the processor goes on at another place, or it returns. -/
inductive Progress where
  | running (pc : Nat) (s : State)
  | returned (s : State)

/-- A step of the processor. -/
def step (code : MachineCode) (pc : Nat) (s : State) : Option Progress := do
  let opcode ← code.bytes[pc]?
  let (operation, form) ← operations.lookup opcode
  match operation with
  | .ret => return .returned s
  | operation =>
    let source ← operandAt code pc form
    let s' ← operation.apply source s
    return .running (pc + 1 + form.size) s'

/-- The state at the first return, after at most `fuel` steps. -/
def run (code : MachineCode) : Nat → Nat → State → Option State
  | 0, _, _ => none
  | fuel + 1, pc, s =>
    match step code pc s with
    | some (.running pc' s') => run code fuel pc' s'
    | some (.returned s') => some s'
    | none => none

/-! ## 3. Instructions in code -/

/-- What an operand stands for. -/
def Operand.source : Operand → Source
  | implied => .nothing
  | immediate byte => .byte byte
  | zeroPage address => .cell (.address address.toNat)
  | absolute low high => .cell (.address (low.toNat + 256 * high.toNat))
  | symbol name _ => .cell (.symbol name)

/-- An access to the memory at an address, by the form of operands that is for the zero page or by the other one. -/
structure Access where
  address : Int
  zeroPage : Bool
deriving DecidableEq, Repr

/-- The access of an operand that is an address. -/
def Operand.access? : Operand → Option Access
  | zeroPage address => some ⟨address.toNat, true⟩
  | absolute low high => some ⟨low.toNat + 256 * high.toNat, false⟩
  | _ => none

theorem Operand.length_bytes (operand : Operand) : operand.bytes.length = operand.form.size := by
  cases operand with
  | symbol name low => cases low <;> rfl
  | _ => rfl

namespace Instruction

/-- What the instruction makes of a state, returns apart. -/
def execute (i : Instruction) (s : State) : Option State :=
  (operations.lookup i.opcode).bind fun entry => entry.1.apply i.operand.source s

/-- What instructions make of a state, one after the other. -/
def executeAll (instructions : List Instruction) (s : State) : Option State :=
  instructions.foldlM (fun s i => i.execute s) s

theorem executeAll_append (front back : List Instruction) (s : State) :
    executeAll (front ++ back) s = (executeAll front s).bind (executeAll back) :=
  List.foldlM_append

section Inside

variable (front back : List Instruction) (i : Instruction)

theorem bytes_codeOf : (codeOf (front ++ i :: back)).bytes =
    (codeOf front).bytes ++ (i.opcode :: i.operand.bytes ++ (codeOf back).bytes) := by
  rw [codeOf_append, codeOf]
  simp [MachineCode.append, code]

/-- The hole of an operand is found behind its opcode. -/
theorem find?_hole : ((codeOf (front ++ i :: back)).relocations.find? fun r =>
    r.offset == (codeOf front).bytes.length + 1) =
      i.operand.hole?.map (·.shifted (codeOf front).bytes.length) := by
  have hfront : (codeOf front).relocations.find?
      (fun r => r.offset == (codeOf front).bytes.length + 1) = none := by
    refine List.find?_eq_none.mpr fun r hr hoffset => ?_
    have hinside := (relocation_covers hr).inside.1
    have hoffset : r.offset = (codeOf front).bytes.length + 1 := by simpa using hoffset
    omega
  have hback : ((codeOf back).relocations.map (·.shifted i.code.bytes.length)).find?
      (fun r => (r.shifted (codeOf front).bytes.length).offset == (codeOf front).bytes.length + 1) = none := by
    refine List.find?_eq_none.mpr fun r hr hoffset => ?_
    obtain ⟨r', hr', rfl⟩ := List.mem_map.mp hr
    obtain ⟨_, _, _, -, hr', -⟩ := relocation_covers hr'
    simp only [Relocation.shifted, hr', code, List.length_cons, beq_iff_eq] at hoffset
    omega
  rw [codeOf_append, codeOf]
  simp only [MachineCode.append, List.find?_append, hfront, Option.none_or, List.find?_map, List.map_append,
    Function.comp_def]
  simp only [List.find?_map, Function.comp_def] at hback
  rw [hback, Option.map_none, Option.or_none]
  cases hhole : i.operand.hole? with
  | none => simp [code, hhole]
  | some r => simp [code, hhole, Relocation.shifted, (hole?_eq hhole).1, Nat.add_comm]

/-- **The operand of an instruction** is found behind its opcode. -/
theorem operandAt_codeOf : operandAt (codeOf (front ++ i :: back)) (codeOf front).bytes.length
    i.operand.form = some i.operand.source := by
  unfold operandAt
  rw [find?_hole, bytes_codeOf]
  cases i.operand with
  | symbol name low => cases low <;> rfl
  | _ => simp [Operand.form, Operand.hole?, Operand.bytes, Operand.source]

/-- **One instruction** is executed. -/
theorem step_codeOf {operation : Operation} {s s' : State} (hne : operation ≠ .ret)
    (hoperation : operations.lookup i.opcode = some (operation, i.operand.form))
    (h : operation.apply i.operand.source s = some s') :
    step (codeOf (front ++ i :: back)) (codeOf front).bytes.length s =
      some (.running (codeOf (front ++ [i])).bytes.length s') := by
  have hopcode : (codeOf (front ++ i :: back)).bytes[(codeOf front).bytes.length]? = some i.opcode := by
    rw [bytes_codeOf]
    simp
  have hlength : (codeOf (front ++ [i])).bytes.length =
      (codeOf front).bytes.length + 1 + i.operand.form.size := by
    rw [bytes_codeOf, ← Operand.length_bytes]
    simp [MachineCode.empty]
    omega
  rw [step, hopcode, Option.bind_eq_bind, Option.bind_some, hoperation, Option.bind_eq_bind, Option.bind_some,
    hlength]
  cases operation with
  | ret => exact absurd rfl hne
  | _ => simp [operandAt_codeOf, h]

end Inside

/-- The opcode of an emitted instruction tells the form of its operand. -/
theorem form_eq {i : Instruction} {operation : Operation} {form : OperandForm}
    (h : operations.lookup i.opcode = some (operation, form)) : form = i.operand.form := by
  have hforms : ∀ entry ∈ emittedOpcodes, ∀ found ∈ operations.lookup entry.1, found.2 = entry.2 := by decide
  exact hforms _ i.emitted _ h

/-- An opcode that is executed is not a return. -/
theorem exists_operation {i : Instruction} {s s' : State} (h : i.execute s = some s') :
    ∃ operation, operation ≠ .ret ∧ operations.lookup i.opcode = some (operation, i.operand.form) ∧
      operation.apply i.operand.source s = some s' := by
  obtain ⟨⟨operation, form⟩, hfound, happly⟩ := Option.bind_eq_some_iff.mp h
  obtain rfl := form_eq hfound
  refine ⟨operation, ?_, hfound, happly⟩
  rintro rfl
  cases happly

/-- **Code of instructions** runs them up to the first return, whatever comes after it. -/
theorem run_codeOf (final : Instruction) (hfinal : final.opcode = Opcodes.rts) (back : List Instruction) :
    ∀ {instructions : List Instruction} (front : List Instruction) {s s' : State},
    executeAll instructions s = some s' →
    run (codeOf (front ++ instructions ++ final :: back)) (instructions.length + 1)
      (codeOf front).bytes.length s = some s'
  | [], front, s, s', h => by
    obtain rfl := Option.some.inj h
    have hopcode : (codeOf (front ++ final :: back)).bytes[(codeOf front).bytes.length]? = some 0x60 := by
      rw [bytes_codeOf, hfinal]
      simp [Opcodes.rts]
    have hstep : step (codeOf (front ++ final :: back)) (codeOf front).bytes.length s = some (.returned s) := by
      rw [step, hopcode]
      rfl
    rw [List.append_nil, run, hstep]
  | i :: rest, front, s, s', h => by
    obtain ⟨s1, hi, hrest⟩ := Option.bind_eq_some_iff.mp h
    obtain ⟨operation, hne, hoperation, happly⟩ := exists_operation hi
    have hstep := step_codeOf front (rest ++ final :: back) i hne hoperation happly
    have hrun := run_codeOf final hfinal back (front ++ [i]) hrest
    rw [List.append_assoc front, List.singleton_append] at hrun
    rw [List.append_assoc, List.cons_append, List.length_cons, run, hstep]
    simpa using hrun

/-- A sum of bytes. -/
example (memory : Memory) : (run ⟨[0xa9, 200, 0x18, 0x69, 100, 0x60], []⟩ 4 0 ⟨0, false, memory⟩).map
    (·.accumulator) = some 44 := by cbv

end Instruction

end Lode.Machine
