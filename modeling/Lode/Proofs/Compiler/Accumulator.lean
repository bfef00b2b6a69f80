/-
# The code of an expression

The instructions that load an expression are assembled one by one, and their code is joined.  From any state
of the processor, this code leaves the value of the expression in the accumulator, modulo 256, and memory as
it was (`loadExpression_computes`).

The code has holes for the addresses of symbols.  Before they are filled, a symbol is a memory cell of its
own.  When they are filled, what is left are the bytes of other instructions, which name the addresses
(`Machine.Instruction.patched_codeOf`) and read there what the first ones read in the cells of symbols.  So
both cases are one: an instruction may stand for another one if it reads, in some view of the memory, what
that one reads, and the code of an expression computes it in every such view (`Loads.computes_code`).

What is assembled is a tree, and the code is joined by walking over it.  That the walk finds the
instructions which the expression was lowered to, in their order, is said for every statement of which
nothing but code is left (`assemblesAll_of_gives`).

A function returns and an expression does not, so code is run here from its first byte to its end
(`through`).  The number of its bytes is enough fuel, as no instruction is shorter than a byte.
-/
import Lode.Proofs.Compiler.Emission
import Lode.Proofs.Link.Image
import Lode.Proofs.Pass.Merging

namespace Lode

open Program
open Machine (Memory)

/-! ## 1. Code that runs to its end -/

namespace Machine

/-- The state at the end of code, after at most `fuel` steps. -/
def runThrough (code : MachineCode) : Nat → Nat → State → Option State
  | 0, pc, s => if pc = code.bytes.length then some s else none
  | fuel + 1, pc, s =>
    if pc = code.bytes.length then some s
    else
      match step code pc s with
      | some (.running pc' s') => runThrough code fuel pc' s'
      | _ => none

/-- What code makes of a state from its first byte to its end.  No instruction is shorter than a byte. -/
def through (code : MachineCode) (s : State) : Option State := runThrough code code.bytes.length 0 s

namespace Instruction

/-- Instructions in code are executed one after the other, up to the end of the code. -/
theorem runThrough_codeOf : ∀ {instructions : List Instruction} (front : List Instruction) {fuel : Nat}
    {s s' : State}, instructions.length ≤ fuel → executeAll instructions s = some s' →
    runThrough (codeOf (front ++ instructions)) fuel (codeOf front).bytes.length s = some s'
  | [], front, fuel, s, s', _, h => by
    obtain rfl := Option.some.inj h
    rw [List.append_nil]
    cases fuel <;> simp [runThrough]
  | i :: rest, front, 0, _, _, hfuel, _ => absurd hfuel (by simp)
  | i :: rest, front, fuel + 1, s, s', hfuel, h => by
    obtain ⟨s1, hi, hrest⟩ := Option.bind_eq_some_iff.mp h
    obtain ⟨operation, hne, hoperation, happly⟩ := exists_operation hi
    have hinside : (codeOf front).bytes.length ≠ (codeOf (front ++ i :: rest)).bytes.length := by
      rw [bytes_codeOf]
      simp
    have hrun := runThrough_codeOf (front ++ [i]) (Nat.le_of_succ_le_succ hfuel) hrest
    rw [List.append_assoc, List.singleton_append] at hrun
    rw [runThrough, if_neg hinside, step_codeOf front rest i hne hoperation happly]
    exact hrun

/-- There are no more instructions than bytes. -/
theorem length_le : ∀ instructions : List Instruction, instructions.length ≤ (codeOf instructions).bytes.length
  | [] => Nat.le_refl 0
  | i :: rest => by
    have ih := length_le rest
    simp only [codeOf, MachineCode.append, code, List.length_append, List.length_cons]
    omega

/-- **Code of instructions** executes them and comes to its end. -/
theorem through_codeOf {instructions : List Instruction} {s s' : State} (h : executeAll instructions s = some s') :
    through (codeOf instructions) s = some s' :=
  runThrough_codeOf [] (length_le instructions) h

end Instruction

/-! ## 2. Filled holes -/

variable (addresses : List (String × UInt16))

/-- The address of a symbol. -/
def addressOf (name : String) : UInt16 := (Sorted.find? name addresses).getD 0

/-- An operand with the address of its symbol, if it is one. -/
def Operand.linked : Operand → Operand
  | symbol name true => zeroPage (lowByte (addressOf addresses name).toNat)
  | symbol name false => absolute (lowByte (addressOf addresses name).toNat)
      (lowByte (((addressOf addresses name).toNat : Int) / 256))
  | operand => operand

theorem Operand.form_linked (operand : Operand) : (operand.linked addresses).form = operand.form := by
  cases operand with
  | symbol name low => cases low <;> rfl
  | _ => rfl

/-- The same instruction with an address. -/
def Instruction.linked (i : Instruction) : Instruction :=
  ⟨i.opcode, i.operand.linked addresses, by rw [Operand.form_linked]; exact i.emitted⟩

/-- The memory in which symbols stand at their addresses. -/
def Memory.linked (memory : Memory) : Memory
  | .symbol name => memory (.address (addressOf addresses name).toNat)
  | .address address => memory (.address address)

/-- An operand with an address reads in memory what the one with the symbol reads in the cell of the symbol. -/
theorem Operand.read?_linked (operand : Operand)
    (hlow : ∀ name, operand = .symbol name true → (addressOf addresses name).toNat ≤ 0xff) (memory : Memory) :
    (operand.linked addresses).source.read? memory = operand.source.read? (memory.linked addresses) := by
  cases operand with
  | symbol name low =>
    have hword := (addressOf addresses name).toNat_lt
    cases low with
    | true =>
      have hbyte := hlow name rfl
      have haddress : ((addressOf addresses name).toNat : Int) % 256 = (addressOf addresses name).toNat := by omega
      simp only [linked, source, Source.read?, Memory.linked, toNat_lowByte, haddress]
    | false =>
      have haddress : ((addressOf addresses name).toNat : Int) % 256 +
          256 * ((addressOf addresses name).toNat / 256 % 256) = (addressOf addresses name).toNat := by omega
      simp only [linked, source, Source.read?, Memory.linked, toNat_lowByte, haddress]
  | _ => rfl

end Machine

namespace Link

variable {address? : String → Option UInt16}

theorem patch_append (front data : List UInt8) (r : Relocation) :
    patch address? (front ++ data) (r.shifted front.length) = front ++ patch address? data r := by
  simp [patch, overwrite, Relocation.shifted, Nat.add_comm r.offset, Nat.add_assoc, List.take_length_add_append]

/-- Holes behind other bytes. -/
theorem foldl_patch_append (front : List UInt8) : ∀ (rs : List Relocation) (data : List UInt8),
    (rs.map (·.shifted front.length)).foldl (patch address?) (front ++ data) =
      front ++ rs.foldl (patch address?) data
  | [], _ => rfl
  | r :: rs, data => by
    rw [List.map_cons, List.foldl_cons, patch_append, foldl_patch_append front rs, List.foldl_cons]

end Link

namespace Machine.Instruction

variable {addresses : List (String × UInt16)}

/-- The hole of an instruction is filled with the address of its symbol. -/
theorem patched_code (i : Instruction) (back : List UInt8) :
    i.code.relocations.foldl (Link.patch (Sorted.find? · addresses)) (i.code.bytes ++ back) =
      (i.linked addresses).code.bytes ++ back := by
  obtain ⟨opcode, operand, emitted⟩ := i
  cases operand with
  | symbol name low => cases low <;> rfl
  | _ => rfl

theorem relocations_linked (i : Instruction) : (i.linked addresses).code.relocations = [] := by
  obtain ⟨opcode, operand, emitted⟩ := i
  cases operand with
  | symbol name low => cases low <;> rfl
  | _ => rfl

theorem length_linked (i : Instruction) : (i.linked addresses).code.bytes.length = i.code.bytes.length := by
  simp [code, linked, Operand.length_bytes, Operand.form_linked]

/-- **Code with its holes filled** is the code of instructions with addresses. -/
theorem patched_codeOf : ∀ instructions : List Instruction,
    codeOf (instructions.map (linked addresses)) =
      ⟨(codeOf instructions).relocations.foldl (Link.patch (Sorted.find? · addresses)) (codeOf instructions).bytes, []⟩
  | [] => rfl
  | i :: rest => by
    rw [List.map_cons, codeOf, patched_codeOf rest]
    simp only [codeOf, MachineCode.append, relocations_linked, List.foldl_append, patched_code, List.map_nil,
      List.append_nil]
    -- The first instruction keeps its length, so the holes behind it stay where they are.
    rw [← @length_linked addresses i, Link.foldl_patch_append]

/-- A hole of an instruction is one of the code. -/
theorem exists_relocation {instructions : List Instruction} {i : Instruction} (hi : i ∈ instructions)
    {r : Relocation} (hr : i.operand.hole? = some r) :
    ∃ count, r.shifted count ∈ (codeOf instructions).relocations := by
  obtain ⟨front, back, rfl⟩ := List.append_of_mem hi
  refine ⟨(codeOf front).bytes.length, ?_⟩
  rw [codeOf_append]
  refine List.mem_append_right _ (List.mem_map_of_mem (List.mem_append_left _ ?_))
  exact Option.mem_toList.mpr hr

/-- In code whose holes can be filled, instructions with addresses stand for those with symbols. -/
theorem stands_linked {instructions : List Instruction} {size : Nat}
    (hfillable : ∀ r ∈ (codeOf instructions).relocations, Link.Fillable (Sorted.find? · addresses) size r) :
    ∀ i ∈ instructions, i.Stands (Memory.linked addresses) (i.linked addresses) := by
  intro i hi
  refine ⟨rfl, Operand.read?_linked addresses i.operand ?_⟩
  intro name hoperand
  have hhole : i.operand.hole? = some ⟨1, name, .zeroPage8⟩ := by
    rw [hoperand]
    rfl
  obtain ⟨count, hr⟩ := exists_relocation hi hhole
  obtain ⟨target, htarget, -, hpage⟩ := hfillable _ hr
  have haddress : addressOf addresses name = target := congrArg (Option.getD · 0) htarget
  rw [haddress]
  exact hpage rfl

end Machine.Instruction

/-! ## 3. Assembled instructions -/

namespace Assemble

/-- Assembling a tree succeeds, and leaves another one. -/
def Gives (n piece : Node) : Prop := ∃ verdict, rules.run n = .ok verdict ∧ verdict.apply n = some piece

/-- An assembled statement. -/
theorem Gives.assemble {s : Stmt} {piece : Node} (h : Gives s.node piece)
    (hvisit : s.mapUp visitor = liftM (assemble s)) : ∃ s', assemble s = .ok s' ∧ piece = s'.node := by
  obtain ⟨verdict, hrun, hpiece⟩ := h
  have hleft := rules_apply (visits.walk_stmt s _ s.node.size_le_walkBudget)
  rw [hrun, hvisit, Walk.outcome_lift] at hleft
  obtain ⟨s', hs', hsame⟩ := map_eq_ok.mp hleft.symm
  change s'.node = (verdict.apply s.node).getD s.node at hsame
  rw [hpiece, Option.getD_some] at hsame
  exact ⟨s', hs', hsame.symm⟩

/-- What is left of a statement is the code of its instructions. -/
def GivesCode (s : Stmt) : Prop := ∀ {piece : Node}, Gives s.node piece →
  ∃ block, Assembles s block ∧ MachineCode.ofNode piece = Machine.Instruction.codeOf block

theorem givesCode_load (operand : Expr) (width : Nat) (span : Span) : GivesCode (.load operand width span) := by
  intro piece h
  obtain ⟨s', hs', rfl⟩ := h.assemble (pure_bind operand _)
  obtain ⟨rfl, i, huses, rfl⟩ := transferred_ok Opcodes.emitted_lda hs'
  exact ⟨[i], .load huses, (Machine.Instruction.codeOf_singleton i).symm⟩

theorem givesCode_arith (op : String) (operand : Expr) (width : Nat) (span : Span) :
    GivesCode (.arith op operand width span) := by
  intro piece h
  obtain ⟨s', hs', rfl⟩ := h.assemble (pure_bind operand _)
  obtain ⟨rfl, block, hblock, rfl⟩ := computed_ok hs'
  exact ⟨block, hblock, rfl⟩

/-- Statements that are assembled one by one, with their code joined. -/
theorem assemblesAll_of_gives {stmts : List Stmt} {pieces : List Node}
    (h : List.Forall₂ (fun s => Gives s.node) stmts pieces) (hstmts : ∀ s ∈ stmts, GivesCode s) :
    ∃ instructions, AssemblesAll stmts instructions ∧
      MachineCode.join (pieces.map .ofNode) = Machine.Instruction.codeOf instructions := by
  induction h with
  | nil => exact ⟨[], .nil, rfl⟩
  | cons hpiece _ ih =>
    obtain ⟨hs, hrest⟩ := List.forall_mem_cons.mp hstmts
    obtain ⟨block, hblock, hcode⟩ := hs hpiece
    obtain ⟨instructions, hinstructions, hjoin⟩ := ih hrest
    refine ⟨block ++ instructions, .cons hblock hinstructions, ?_⟩
    rw [List.map_cons, MachineCode.join_cons, hcode, hjoin, Machine.Instruction.codeOf_append]

end Assemble

/-! ## 4. The code of an expression -/

/-- Code that leaves the value of an expression in the accumulator, modulo 256, and memory as it is, from any
state of the processor.  The cells in the expression are those of what is seen of the memory. -/
def Computes (code : MachineCode) (view : Memory → Memory) (e : Expr) : Prop :=
  ∀ s : Machine.State, ∃ value s', e.result? s.accumulator (view s.memory) = some value ∧
    Machine.through code s = some s' ∧ (s'.accumulator.toNat : Int) = value % 256 ∧ s'.memory = s.memory

/-- Instructions that may stand for those of an expression compute it. -/
theorem Loads.computes_code {width : Nat} {e : Expr} {front : List Stmt} (h : Loads width e front)
    {view : Memory → Memory} {stand : Machine.Instruction → Machine.Instruction}
    {loads : List Machine.Instruction} (hloads : AssemblesAll front loads) (hstored : e.Stored)
    (hstand : ∀ i ∈ loads, i.Stands view (stand i)) :
    Computes (Machine.Instruction.codeOf (loads.map stand)) view e := by
  intro s
  obtain ⟨value, carry, hvalue, hexecute⟩ := h.computes hloads hstored hstand s
  exact ⟨value, _, hvalue, Machine.Instruction.through_codeOf hexecute, toNat_lowByte value, rfl⟩

/-- **The code of an expression** computes it.  If its instructions can be loaded into the accumulator, and all of
them are assembled, then their code leaves the value of the expression there, modulo 256, and memory as it is.  It
does so with every symbol as a memory cell of its own, and also when its holes were filled with the addresses of
symbols, with these cells for the symbols. -/
theorem loadExpression_computes {e : Expr} {instructions pieces : List Node} (hstored : e.Stored)
    (hload : loadExpression e.node 1 = .ok instructions)
    (hpieces : List.Forall₂ Assemble.Gives instructions pieces) :
    let code := MachineCode.join (pieces.map .ofNode)
    Computes code id e ∧ ∀ {addresses : List (String × UInt16)} {name : String} {bytes : List UInt8},
      code.relocations.foldlM (Link.fill addresses name) code.bytes = .ok bytes →
        Computes ⟨bytes, []⟩ (Memory.linked addresses) e := by
  intro code
  rw [loadExpression_eq] at hload
  obtain ⟨stmts, hstmts, rfl⟩ := map_eq_ok.mp hload
  have hloads := loads_of_load hstmts
  obtain ⟨loads, hassembles, hcode⟩ := Assemble.assemblesAll_of_gives (List.forall₂_map_left_iff.mp hpieces)
    (hloads.forall_mem Assemble.givesCode_load Assemble.givesCode_arith)
  rw [show code = _ from hcode]
  constructor
  · have hstands : ∀ i ∈ loads, i.Stands id (id i) := fun _ _ => ⟨rfl, fun _ => rfl⟩
    have hcomputes := hloads.computes_code hassembles hstored hstands
    rwa [List.map_id] at hcomputes
  · intro addresses name bytes hfill
    obtain ⟨hfillable, rfl⟩ := Link.foldlM_fill_eq_ok.mp hfill
    rw [← Machine.Instruction.patched_codeOf]
    exact hloads.computes_code hassembles hstored (Machine.Instruction.stands_linked hfillable)

/-- What was returned, less a variable, and the byte at an address of the zero page. -/
theorem loadExpression_computes_returned :
    let e : Expr := .binop "+" (.binop "-" (.returned .u8 .nowhere) (.cell (.symbol "u.x") false .u8 .nowhere)
      none .nowhere) (.cell (.address 2) true .u8 .nowhere) none .nowhere
    let code : MachineCode := ⟨[0x38, 0xed, 0, 0, 0x18, 0x65, 2], [⟨2, "u.x", .absolute16⟩]⟩
    e.Stored ∧ ∃ instructions pieces, loadExpression e.node 1 = .ok instructions ∧
      List.Forall₂ Assemble.Gives instructions pieces ∧ MachineCode.join (pieces.map .ofNode) = code ∧
      code.relocations.foldlM (Link.fill [("u.x", 0x0810)] "u.f") code.bytes =
        .ok [0x38, 0xed, 0x10, 0x08, 0x18, 0x65, 2] ∧
      Computes code id e ∧
      Computes ⟨[0x38, 0xed, 0x10, 0x08, 0x18, 0x65, 2], []⟩ (Memory.linked [("u.x", 0x0810)]) e := by
  intro e code
  let subtraction : Stmt := .arith "-" (.cell (.symbol "u.x") false .u8 .nowhere) 1 .nowhere
  let addition : Stmt := .arith "+" (.cell (.address 2) true .u8 .nowhere) 1 .nowhere
  let pieces := [(⟨[0x38, 0xed, 0, 0], [⟨2, "u.x", .absolute16⟩]⟩ : MachineCode).node .nowhere,
    (⟨[0x18, 0x65, 2], []⟩ : MachineCode).node .nowhere]
  have hstored : e.Stored := ⟨⟨trivial, trivial⟩, ⟨by decide, by decide⟩, rfl⟩
  have hload : loadExpression e.node 1 = .ok [subtraction.node, addition.node] := rfl
  have hpieces : List.Forall₂ Assemble.Gives [subtraction.node, addition.node] pieces :=
    .cons ⟨.replace _, rfl, rfl⟩ (.cons ⟨.replace _, rfl, rfl⟩ .nil)
  have hfill : code.relocations.foldlM (Link.fill [("u.x", 0x0810)] "u.f") code.bytes =
      .ok [0x38, 0xed, 0x10, 0x08, 0x18, 0x65, 2] := rfl
  obtain ⟨hcomputes, hlinked⟩ := loadExpression_computes hstored hload hpieces
  exact ⟨hstored, _, _, hload, hpieces, rfl, hfill, hcomputes, hlinked hfill⟩

end Lode
