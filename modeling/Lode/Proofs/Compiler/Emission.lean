/-
# Code of statements

The statements of a function whose variables are allocated become instructions one after the other: an
assignment loads its value and stores it, a return loads its value and returns (`Emits`).  All the code of a
body that has no calls consists of these instructions, and of a return behind them if there was none at the
end (`Emitted.emits`).

Several passes do this, each lowering one kind of statement and leaving the others.  None of these makes
code yet (`step_plain`, for each of them): all of it comes from the last pass, which assembles one statement
after the other.  So the code of a body is that of the statements that it was lowered to, in their order
(`Emitted.assembles`).

Loading an expression leaves its value in the accumulator, modulo 256, and memory as it was
(`Loads.computes`).  This does not depend on where the instructions find the symbols: others may stand for
them that read the same.  The value is an integer without bounds, and only its byte is computed, since sums
and differences of bytes are the bytes of sums and differences (`operatorByte_lowByte`).

With calls or without, the instructions of a body access the addresses that its statements do, in their
order (`Emitted.accesses`).
-/
import Lode.Proofs.Compiler.Run
import Lode.Proofs.Machine.Processor
import Lode.Proofs.Pass.Scoping
import Lode.Proofs.Program.Refinement

namespace Lode

open Program
open Machine (Access Memory Operand Source)
open Assemble (Assembles Uses)

/-! ## 1. Assembled statements -/

/-- The instructions of statements that are assembled one after the other. -/
inductive AssemblesAll : List Stmt → List Machine.Instruction → Prop
  | nil : AssemblesAll [] []
  | cons {s : Stmt} {rest : List Stmt} {block instructions : List Machine.Instruction} : Assembles s block →
      AssemblesAll rest instructions → AssemblesAll (s :: rest) (block ++ instructions)

namespace AssemblesAll

/-- Statements are assembled part by part. -/
theorem of_append {front back : List Stmt} {instructions : List Machine.Instruction}
    (h : AssemblesAll (front ++ back) instructions) : ∃ first second, instructions = first ++ second ∧
      AssemblesAll front first ∧ AssemblesAll back second := by
  induction front generalizing instructions with
  | nil => exact ⟨[], instructions, rfl, .nil, h⟩
  | cons s rest ih =>
    cases h with
    | @cons _ _ block _ hs hrest =>
      obtain ⟨first, second, rfl, hfirst, hsecond⟩ := ih hrest
      exact ⟨block ++ first, second, (List.append_assoc _ _ _).symm, .cons hs hfirst, hsecond⟩

theorem singleton {s : Stmt} {instructions : List Machine.Instruction} (h : AssemblesAll [s] instructions) :
    Assembles s instructions := by
  cases h with
  | cons hs hrest =>
    cases hrest
    rwa [List.append_nil]

end AssemblesAll

/-- Whether a statement is code. -/
def Program.Stmt.isCode : Stmt → Bool
  | .code _ _ => true
  | _ => false

theorem Program.Stmt.isCode_of_isAction {s : Stmt} (h : s.isAction = true) : s.isCode = false := by
  cases s with
  | code _ _ => cases h
  | _ => rfl

mutual

/-- The statements of a call are not code yet. -/
theorem Program.Expr.callStmts_isCode : ∀ e : Expr, ∀ s ∈ e.callStmts, s.isCode = false
  | .call _ args (some b) _ _ => List.forall_mem_append.mpr
    ⟨Args.passStmts_isCode args b.parameters, List.forall_mem_singleton.mpr rfl⟩
  | .call _ _ none _ _ | .number _ _ _ | .string _ _ _ | .ident _ _ _ _ | .member _ _ _ | .intrinsic _ _ _
  | .binop _ _ _ _ _ | .neg _ _ _ | .deref _ _ _ | .paren _ _ | .cell _ _ _ _ | .immediate _ _ _
  | .returned _ _ => List.forall_mem_nil _

theorem Program.Args.passStmts_isCode : ∀ (args : Args) (params : List (String × Ty)),
    ∀ s ∈ args.passStmts params, s.isCode = false
  | .nil, _ | .cons _ _ _, [] => List.forall_mem_nil _
  | .cons arg rest _, _ :: params => List.forall_mem_append.mpr
    ⟨Expr.callStmts_isCode arg, List.forall_mem_cons.mpr ⟨rfl, Args.passStmts_isCode rest params⟩⟩

end

/-- Statements of which nothing but code is left are assembled. -/
theorem Assemble.assemblesAll : ∀ {stmts : List Stmt} {body : Stmts}, (∀ s ∈ stmts, s.isCode = false) →
    Expanded (Expands.Step assemble fun _ => .ok none) stmts body.toList →
    (∀ s ∈ body.toList, ∃ c place, s = .code c place) →
    ∃ instructions, AssemblesAll stmts instructions ∧
      FlattenSymbol.codeIn body = Machine.Instruction.codeOf instructions
  | [], body, _, h, _ => by
    refine ⟨[], .nil, ?_⟩
    cases body with
    | nil => rfl
    | cons _ _ _ => cases h
  | s :: rest, body, hplain, h, hcode => by
    have hsplit : Expanded (Expands.Step assemble fun _ => .ok none) ([s] ++ rest) body.toList := h
    obtain ⟨front, back, hlist, hfront, hback⟩ := hsplit.of_append
    obtain ⟨s', hs', hsame⟩ := bind_eq_ok.mp hfront.singleton
    obtain rfl := Except.ok.inj hsame
    cases body with
    | nil => cases hlist
    | cons first more span =>
      obtain ⟨rfl, rfl⟩ := List.cons.inj hlist
      obtain ⟨⟨c, place, rfl⟩, hmore⟩ := List.forall_mem_cons.mp hcode
      obtain ⟨hs, hrest⟩ := List.forall_mem_cons.mp hplain
      obtain ⟨instructions, hinstructions, hcodeIn⟩ := Assemble.assemblesAll hrest hback hmore
      rcases assemble_ok hs' with ⟨block, _, hblock, heq⟩ | ⟨rfl, -⟩
      · obtain ⟨rfl, -⟩ := Stmt.code.inj heq
        refine ⟨block ++ instructions, .cons hblock hinstructions, ?_⟩
        rw [FlattenSymbol.codeIn, hcodeIn, Machine.Instruction.codeOf_append]
      · cases hs

/-! ## 2. Instructions of statements -/

/-- The instructions of statements whose variables are allocated. -/
inductive Emits : List Stmt → List Machine.Instruction → Prop
  | nil : Emits [] []
  | set {place : Place} {zeroPage : Bool} {target : Ty} {at_ span : Span} {rvalue : Expr} {type : Option Ty}
      {rest front : List Stmt} {width : Nat} {loads instructions : List Machine.Instruction}
      {store : Machine.Instruction} :
      Loads width rvalue front → AssemblesAll front loads → Uses .sta (.cell place zeroPage target at_) store →
      Emits rest instructions →
      Emits (.set (.cell place zeroPage target at_) rvalue type span :: rest) (loads ++ store :: instructions)
  | ret {type : Option Ty} {span : Span} {rest : List Stmt} {instructions : List Machine.Instruction} :
      Emits rest instructions → Emits (.ret none type span :: rest) (Assemble.rts :: instructions)
  | value {e : Expr} {type : Option Ty} {span : Span} {rest front : List Stmt} {width : Nat}
      {loads instructions : List Machine.Instruction} : Loads width e front → AssemblesAll front loads →
      Emits rest instructions →
      Emits (.ret (some e) type span :: rest) (loads ++ Assemble.rts :: instructions)

/-- What holds of loads and of operations on operands holds of all that an expression is lowered to. -/
theorem Loads.forall_mem {P : Stmt → Prop} (hload : ∀ operand width span, P (.load operand width span))
    (harith : ∀ op operand width span, P (.arith op operand width span)) {width : Nat} {e : Expr}
    {stmts : List Stmt} (h : Loads width e stmts) : ∀ s ∈ stmts, P s := by
  induction h with
  | operand _ _ => exact List.forall_mem_singleton.mpr (hload _ _ _)
  | returned => exact List.forall_mem_nil P
  | binop _ _ _ _ ih => exact List.forall_mem_append.mpr ⟨ih, List.forall_mem_singleton.mpr (harith _ _ _ _)⟩

/-- Statements that all stay are a list that stays. -/
theorem Program.Expanded.eq_self {Step : Stmt → List Stmt → Prop} {stmts stmts' : List Stmt}
    (hstep : ∀ s ∈ stmts, ∀ front, Step s front → front = [s]) (h : Expanded Step stmts stmts') :
    stmts' = stmts := by
  induction h with
  | nil => rfl
  | cons hs _ ih =>
    obtain ⟨hhead, htail⟩ := List.forall_mem_cons.mp hstep
    rw [hhead _ hs, ih htail]
    rfl

/-- **Instructions of statements.** -/
theorem AssemblesAll.emits : ∀ {body assigned lowered : List Stmt} {instructions : List Machine.Instruction},
    (∀ s ∈ body, s.isAction = true) → Expanded LowerAssignment.Step body assigned →
    Expanded LowerFunctions.Step assigned lowered → AssemblesAll lowered instructions →
    Emits body instructions
  | [], _, _, _, _, hassign, hlower, h => by
    cases hassign
    cases hlower
    cases h
    exact .nil
  | s :: rest, assigned, lowered, instructions, haction, hassign, hlower, h => by
    obtain ⟨hs, hrest⟩ := List.forall_mem_cons.mp haction
    cases hassign with
    | @cons _ here _ more hstep hassign =>
      -- the statement has a part of what each pass left
      obtain ⟨lowered1, lowered2, rfl, hlower1, hlower2⟩ := hlower.of_append
      obtain ⟨first, second, rfl, hfirst, hsecond⟩ := h.of_append
      have ih := AssemblesAll.emits hrest hassign hlower2 hsecond
      cases s with
      | set lvalue rvalue type span =>
        cases LowerAssignment.lowers hstep with
        | other hne => exact absurd rfl (hne _ _ _ _)
        | set _ hloads =>
          -- an assignment is lowered at once, so the pass for returns leaves it
          have hsame := hlower1.eq_self (List.forall_mem_append.mpr
            ⟨hloads.forall_mem (fun _ _ _ _ hl => (Except.ok.inj hl).symm)
              (fun _ _ _ _ _ hl => (Except.ok.inj hl).symm),
              List.forall_mem_singleton.mpr fun _ hl => (Except.ok.inj hl).symm⟩)
          subst hsame
          obtain ⟨loads, stores, rfl, hfront, hstore⟩ := hfirst.of_append
          cases hstore.singleton with
          | store huses =>
            rw [List.append_assoc]
            exact .set hloads hfront huses ih
      | ret value type span =>
        -- a return waits for the second pass
        obtain rfl := Except.ok.inj hstep
        cases LowerFunctions.lowers hlower1.singleton with
        | other hne => exact absurd rfl (hne _ _ _)
        | ret =>
          cases hfirst.singleton
          exact .ret ih
        | value hloads =>
          obtain ⟨loads, returns, rfl, hfront, hreturn⟩ := hfirst.of_append
          cases hreturn.singleton
          rw [List.append_assoc]
          exact .value hloads hfront ih
      | expr e =>
        -- a call is no code, so it is not assembled
        obtain rfl := Except.ok.inj hstep
        have hsame := hlower1.eq_self (List.forall_mem_singleton.mpr fun _ hl => (Except.ok.inj hl).symm)
        subst hsame
        cases hfirst.singleton
      | _ => cases hs

/-- Lowering an assignment makes no code yet. -/
theorem LowerAssignment.step_plain {s : Stmt} {front : List Stmt} (h : Step s front) (hs : s.isCode = false) :
    ∀ s' ∈ front, s'.isCode = false := by
  cases lowers h with
  | set _ hloads =>
    exact List.forall_mem_append.mpr ⟨hloads.forall_mem (fun _ _ _ => rfl) (fun _ _ _ _ => rfl),
      List.forall_mem_singleton.mpr rfl⟩
  | other _ => exact List.forall_mem_singleton.mpr hs

/-- Lowering a return makes no code yet. -/
theorem LowerFunctions.step_plain {s : Stmt} {front : List Stmt} (h : Step s front) (hs : s.isCode = false) :
    ∀ s' ∈ front, s'.isCode = false := by
  cases lowers h with
  | ret => exact List.forall_mem_singleton.mpr rfl
  | value hloads =>
    exact List.forall_mem_append.mpr ⟨hloads.forall_mem (fun _ _ _ => rfl) (fun _ _ _ _ => rfl),
      List.forall_mem_singleton.mpr rfl⟩
  | other _ => exact List.forall_mem_singleton.mpr hs

/-- Instructions that end in a return, the last one maybe behind those of the statements. -/
def Closes (instructions tail : List Machine.Instruction) : Prop :=
  tail = [Assemble.rts] ∨ tail = [] ∧ ∃ front, instructions = front ++ [Assemble.rts]

/-- The code of a closed body is that of its statements, with a return behind it if there is none. -/
theorem LowerFunctions.closed_assembles {span : Span} {stmts : List Stmt} {all : List Machine.Instruction}
    (h : AssemblesAll (closed span stmts) all) : ∃ instructions tail, all = instructions ++ tail ∧
      AssemblesAll stmts instructions ∧ Closes instructions tail := by
  rw [closed] at h
  split at h
  · rename_i hlast
    refine ⟨all, [], (List.append_nil _).symm, h, .inr ⟨rfl, ?_⟩⟩
    cases hend : stmts.getLast? with
    | none => simp [hend] at hlast
    | some last =>
      obtain ⟨front, rfl⟩ := List.getLast?_eq_some_iff.mp hend
      rw [hend] at hlast
      cases last with
      | rts place =>
        obtain ⟨first, second, rfl, -, hsecond⟩ := h.of_append
        cases hsecond.singleton
        exact ⟨first, rfl⟩
      | _ => cases hlast
  · obtain ⟨instructions, tail, rfl, hstmts, htail⟩ := h.of_append
    cases htail.singleton
    exact ⟨instructions, _, rfl, hstmts, .inl rfl⟩

/-- Lowering a call makes no code yet. -/
theorem LowerCalls.step_plain {s : Stmt} {front : List Stmt} (h : Lowered s front) (hs : s.isCode = false) :
    ∀ s' ∈ front, s'.isCode = false := by
  rw [h.1]
  cases s with
  | set lvalue rvalue type span =>
    exact List.forall_mem_append.mpr ⟨rvalue.callStmts_isCode, List.forall_mem_singleton.mpr rfl⟩
  | ret value type span =>
    cases value with
    | none => exact List.forall_mem_singleton.mpr rfl
    | some e => exact List.forall_mem_append.mpr ⟨e.callStmts_isCode, List.forall_mem_singleton.mpr rfl⟩
  | expr e =>
    cases e with
    | call _ _ _ _ _ => exact Expr.callStmts_isCode _
    | _ => exact List.forall_mem_singleton.mpr rfl
  | _ => exact List.forall_mem_singleton.mpr hs

/-- **The code of a body** is that of the statements that it is lowered to. -/
theorem Emitted.assembles {body body' : Stmts} (h : Emitted body body')
    (hplain : ∀ s ∈ body.toList, s.isCode = false)
    (hcode : ∀ s ∈ body'.toList, ∃ c place, s = .code c place) :
    ∃ called assigned stmts span instructions, Expanded LowerCalls.Lowered body.toList called ∧
      Expanded LowerAssignment.Step called assigned ∧ Expanded LowerFunctions.Step assigned stmts ∧
      AssemblesAll (LowerFunctions.closed span stmts) instructions ∧
      FlattenSymbol.codeIn body' = Machine.Instruction.codeOf instructions := by
  cases h with
  | @intro called assigned _ _ hcalled hassigned hreturning hassembled =>
    obtain ⟨stmts, span, hlowered, hclosed⟩ := hreturning
    have hcalled' : ∀ s ∈ called.toList, s.isCode = false :=
      hcalled.forall_mem (P := fun s => s.isCode = false) (Q := fun s => s.isCode = false)
        LowerCalls.step_plain hplain
    have hassigned' : ∀ s ∈ assigned.toList, s.isCode = false :=
      hassigned.forall_mem (P := fun s => s.isCode = false) (Q := fun s => s.isCode = false)
        LowerAssignment.step_plain hcalled'
    have hstmts : ∀ s ∈ stmts, s.isCode = false :=
      hlowered.forall_mem (P := fun s => s.isCode = false) (Q := fun s => s.isCode = false)
        LowerFunctions.step_plain hassigned'
    have hclosed' : ∀ s ∈ LowerFunctions.closed span stmts, s.isCode = false := by
      rw [LowerFunctions.closed]
      split
      · exact hstmts
      · exact List.forall_mem_append.mpr ⟨hstmts, List.forall_mem_singleton.mpr rfl⟩
    rw [Assemble.Assembled, hclosed] at hassembled
    obtain ⟨instructions, hall, hcodeIn⟩ := Assemble.assemblesAll hclosed' hassembled hcode
    exact ⟨_, _, stmts, span, instructions, hcalled, hassigned, hlowered, hall, hcodeIn⟩

/-- **The code of a body** without calls is that of its statements. -/
theorem Emitted.emits {body body' : Stmts} (h : Emitted body body') (haction : ∀ s ∈ body.toList, s.isAction = true)
    (hcalls : ∀ s ∈ body.toList, s.calls = [s]) (hcode : ∀ s ∈ body'.toList, ∃ c place, s = .code c place) :
    ∃ instructions tail, Emits body.toList instructions ∧ Closes instructions tail ∧
      FlattenSymbol.codeIn body' = Machine.Instruction.codeOf (instructions ++ tail) := by
  obtain ⟨called, assigned, stmts, span, all, hcalled, hassigned, hlowered, hall, hcodeIn⟩ :=
    h.assembles (fun s hs => Stmt.isCode_of_isAction (haction s hs)) hcode
  obtain rfl := Expanded.eq_self (fun s hs front hstep => hstep.1.trans (hcalls s hs)) hcalled
  obtain ⟨instructions, tail, rfl, hinstructions, hcloses⟩ := LowerFunctions.closed_assembles hall
  exact ⟨instructions, tail, hinstructions.emits haction hassigned hlowered, hcloses, hcodeIn⟩

/-! ## 3. Values -/

/-- The value of an expression whose storage is allocated, an integer without bounds.  Memory cells have the
values of their bytes, and what was returned is the byte in the accumulator. -/
def Program.Expr.result? (accumulator : UInt8) (memory : Memory) : Expr → Option Int
  | .number value _ _ | .immediate value _ _ => some value
  | .cell place _ _ _ => some (memory place).toNat
  | .returned _ _ => some accumulator.toNat
  | .binop op lhs rhs _ _ => (lhs.result? accumulator memory).bind fun l =>
      (rhs.result? accumulator memory).bind fun r => operatorValue op l r
  | _ => none

/-- Memory cells in an expression are those of symbols, or at addresses, the low ones in the zero page. -/
def Program.Expr.Stored : Expr → Prop
  | .cell (.address address) zeroPage _ _ => IsAddress address ∧ zeroPage = decide (address ≤ 0xff)
  | .binop _ lhs rhs _ _ => lhs.Stored ∧ rhs.Stored
  | _ => True

/-- Direct expressions have stored cells only. -/
theorem Program.Expr.Direct.stored {e : Expr} (h : e.Direct) : e.Stored := by
  cases e with
  | cell place _ _ _ =>
    cases place with
    | symbol _ => trivial
    | address _ => exact h
  | binop _ _ _ _ _ => exact ⟨stored h.1, stored h.2⟩
  | _ => trivial

theorem lowByte_toNat (b : UInt8) : lowByte b.toNat = b := by
  have hlt := b.toNat_lt
  refine UInt8.toNat_inj.mp (Int.ofNat_inj.mp ?_)
  rw [toNat_lowByte]
  omega

/-- Bytes are computed as values are. -/
theorem operatorByte_lowByte {op : String} {l r value : Int} (h : operatorValue op l r = some value) :
    operatorByte op (lowByte l) (lowByte r) = some (lowByte value) := by
  rw [lowByte_eq, lowByte_eq, lowByte_eq]
  exact operatorByte_ofInt h

/-- If nothing was returned, the byte of an expression is that of its value. -/
theorem Program.Expr.byte?_of_result? (c : Context) {accumulator : UInt8} {memory : Memory} {e : Expr} {value : Int}
    (hdirect : e.Direct) (h : e.result? accumulator memory = some value) :
    e.byte? c memory = some (lowByte value) := by
  cases e with
  | number _ _ _ | immediate _ _ _ =>
    obtain rfl := Option.some.inj h
    exact congrArg some (lowByte_eq _).symm
  | cell _ _ _ _ =>
    obtain rfl := Option.some.inj h
    rw [lowByte_toNat]
    rfl
  | binop _ _ _ _ _ =>
    obtain ⟨l, hl, h⟩ := Option.bind_eq_some_iff.mp h
    obtain ⟨r, hr, h⟩ := Option.bind_eq_some_iff.mp h
    rw [byte?, byte?_of_result? c hdirect.1 hl, byte?_of_result? c hdirect.2 hr]
    exact operatorByte_lowByte h
  | returned _ _ => cases hdirect
  | _ => cases h

/-! ## 4. Loading -/

open Machine.Instruction (executeAll executeAll_append)

/-- The opcodes of an operation, for all forms of operands. -/
def Opcodes.Perform (opcodes : Opcodes) (operation : Machine.Operation) : Prop :=
  ∀ form opcode, opcodes.forForm form = some opcode →
    Machine.operations.lookup opcode = some (operation, form)

theorem Opcodes.perform_lda : lda.Perform .load := by
  rintro form _ h
  cases form <;> cases h <;> rfl

theorem Opcodes.perform_sta : sta.Perform .store := by
  rintro form _ h
  cases form <;> cases h <;> rfl

theorem Opcodes.perform_adc : adc.Perform .add := by
  rintro form _ h
  cases form <;> cases h <;> rfl

theorem Opcodes.perform_sbc : sbc.Perform .subtract := by
  rintro form _ h
  cases form <;> cases h <;> rfl

/-- An instruction that may stand for another one: it has the same opcode, and reads in memory what the other
one reads in what is seen of the memory. -/
structure Machine.Instruction.Stands (view : Memory → Memory) (i j : Machine.Instruction) : Prop where
  opcode : j.opcode = i.opcode
  read? : ∀ memory, j.operand.source.read? memory = i.operand.source.read? (view memory)

namespace Assemble.Uses

variable {opcodes : Opcodes} {i j : Machine.Instruction}

/-- An instruction on a memory cell works on this cell. -/
theorem source {place : Place} {zeroPage : Bool} {type : Ty} {span : Span}
    (h : Uses opcodes (.cell place zeroPage type span) i) (hstored : (Expr.cell place zeroPage type span).Stored) :
    i.operand.source = .cell place := by
  have hoperand := h.operand
  cases place with
  | symbol name =>
    rw [← Option.some.inj hoperand]
    rfl
  | address address =>
    obtain ⟨⟨hlow, hhigh⟩, rfl⟩ := hstored
    by_cases hzero : address ≤ 0xff
    · rw [decide_eq_true hzero] at hoperand
      rw [← Option.some.inj hoperand, Operand.source, toNat_lowByte, Int.emod_eq_of_lt hlow (by omega)]
    · rw [decide_eq_false hzero] at hoperand
      have hsum : address % 256 + 256 * (address / 256 % 256) = address := by omega
      rw [← Option.some.inj hoperand, Operand.source, toNat_lowByte, toNat_lowByte, hsum]

/-- An instruction reads the byte of its operand. -/
theorem read? {e : Expr} (h : Uses opcodes e i) (hstored : e.Stored) (accumulator : UInt8) (memory : Memory) :
    ∃ value, e.result? accumulator memory = some value ∧
      i.operand.source.read? memory = some (lowByte value) := by
  have hoperand := h.operand
  cases e with
  | immediate value type span =>
    refine ⟨value, rfl, ?_⟩
    rw [← Option.some.inj hoperand]
    rfl
  | cell place zeroPage type span =>
    refine ⟨(memory place).toNat, rfl, ?_⟩
    rw [h.source hstored, lowByte_toNat]
    rfl
  | _ => cases hoperand

/-- An opcode is executed, whatever its operand is. -/
theorem execute_of_opcode {operation : Machine.Operation} {e : Expr} (h : Uses opcodes e i)
    (hperform : opcodes.Perform operation) (hj : j.opcode = i.opcode) (s : Machine.State) :
    j.execute s = operation.apply j.operand.source s := by
  rw [Machine.Instruction.execute, hj, hperform _ _ h.opcode]
  rfl

theorem execute {operation : Machine.Operation} {e : Expr} (h : Uses opcodes e i)
    (hperform : opcodes.Perform operation) (s : Machine.State) :
    i.execute s = operation.apply i.operand.source s :=
  h.execute_of_opcode hperform rfl s

end Assemble.Uses

theorem Assemble.execute_clc {i : Machine.Instruction} (s : Machine.State) (h : i.opcode = Assemble.clc.opcode) :
    i.execute s = some { s with carry := false } := by
  rw [Machine.Instruction.execute, h]
  rfl

theorem Assemble.execute_sec {i : Machine.Instruction} (s : Machine.State) (h : i.opcode = Assemble.sec.opcode) :
    i.execute s = some { s with carry := true } := by
  rw [Machine.Instruction.execute, h]
  rfl

/-- With a clear carry, an addition gives the sum. -/
theorem Machine.Operation.apply_add {source : Source} {memory : Memory} (l : Int) {r : Int}
    (h : source.read? memory = some (lowByte r)) : ∃ carry,
      add.apply source ⟨lowByte l, false, memory⟩ = some ⟨lowByte (l + r), carry, memory⟩ := by
  have hsum : lowByte l + lowByte r = lowByte (l + r) :=
    Option.some.inj (operatorByte_lowByte (show operatorValue "+" l r = some (l + r) from rfl))
  refine ⟨(Machine.sumWith false (lowByte l) (lowByte r)).2, ?_⟩
  rw [apply, h, Option.map_some, ← hsum, ← Machine.sumWith_false]

/-- With a set carry, a subtraction gives the difference. -/
theorem Machine.Operation.apply_subtract {source : Source} {memory : Memory} (l : Int) {r : Int}
    (h : source.read? memory = some (lowByte r)) : ∃ carry,
      subtract.apply source ⟨lowByte l, true, memory⟩ = some ⟨lowByte (l - r), carry, memory⟩ := by
  have hdifference : lowByte l - lowByte r = lowByte (l - r) :=
    Option.some.inj (operatorByte_lowByte (show operatorValue "-" l r = some (l - r) from rfl))
  refine ⟨(Machine.sumWith true (lowByte l) (~~~lowByte r)).2, ?_⟩
  rw [apply, h, Option.map_some, ← hdifference, ← Machine.sumWith_true]

section Loading

variable {view : Memory → Memory} {stand : Machine.Instruction → Machine.Instruction}
  {loads : List Machine.Instruction}

/-- A load brings the value of its operand into the accumulator. -/
theorem Assemble.Assembles.load_computes {operand : Expr} {width : Nat} {span : Span}
    (h : Assembles (.load operand width span) loads) (hstored : operand.Stored)
    (hstand : ∀ i ∈ loads, i.Stands view (stand i)) (s : Machine.State) : ∃ value,
      operand.result? s.accumulator (view s.memory) = some value ∧
      executeAll (loads.map stand) s = some { s with accumulator := lowByte value } := by
  cases h with
  | @load _ _ i huses =>
    have hi : i.Stands view (stand i) := hstand i List.mem_cons_self
    obtain ⟨value, hvalue, hread⟩ := huses.read? hstored s.accumulator (view s.memory)
    refine ⟨value, hvalue, ?_⟩
    have hexecute := huses.execute_of_opcode Opcodes.perform_lda hi.opcode s
    rw [Machine.Operation.apply, hi.read?, hread, Option.map_some] at hexecute
    simp [executeAll, hexecute]

/-- An instruction that prepares the carry, and one that works on an operand with this carry. -/
theorem Assemble.Uses.prepared_computes {opcodes : Opcodes} {operation : Machine.Operation} {operand : Expr}
    {prepare i : Machine.Instruction} {prepared : Bool} {combine : Int → Int → Int} (h : Uses opcodes operand i)
    (hperform : opcodes.Perform operation) (hprepare : ∀ {j : Machine.Instruction} (s : Machine.State),
      j.opcode = prepare.opcode → j.execute s = some { s with carry := prepared })
    (happly : ∀ {source : Source} {memory : Memory} (l : Int) {r : Int}, source.read? memory = some (lowByte r) →
      ∃ carry, operation.apply source ⟨lowByte l, prepared, memory⟩ = some ⟨lowByte (combine l r), carry, memory⟩)
    (hstored : operand.Stored) (hstand : ∀ j ∈ [prepare, i], j.Stands view (stand j)) (accumulator : UInt8)
    (l : Int) (carry : Bool) (memory : Memory) : ∃ r carry', operand.result? accumulator (view memory) = some r ∧
      executeAll ([prepare, i].map stand) ⟨lowByte l, carry, memory⟩ =
        some ⟨lowByte (combine l r), carry', memory⟩ := by
  obtain ⟨hfirst, hsecond⟩ := List.forall_mem_cons.mp hstand
  have hi : i.Stands view (stand i) := hsecond i List.mem_cons_self
  obtain ⟨r, hr, hread⟩ := h.read? hstored accumulator (view memory)
  obtain ⟨carry', hcombine⟩ := happly l ((hi.read? memory).trans hread)
  have hset := hprepare ⟨lowByte l, carry, memory⟩ hfirst.opcode
  have hexecute := (h.execute_of_opcode hperform hi.opcode _).trans hcombine
  exact ⟨r, carry', hr, by simp [executeAll, hset, hexecute]⟩

/-- An addition or a subtraction of an operand, whatever the carry was before. -/
theorem Assemble.Assembles.arith_computes {op : String} {operand : Expr} {width : Nat} {span : Span}
    (h : Assembles (.arith op operand width span) loads) (hstored : operand.Stored)
    (hstand : ∀ i ∈ loads, i.Stands view (stand i)) (accumulator : UInt8) (l : Int) (carry : Bool)
    (memory : Memory) : ∃ r value carry', operand.result? accumulator (view memory) = some r ∧
      operatorValue op l r = some value ∧
      executeAll (loads.map stand) ⟨lowByte l, carry, memory⟩ = some ⟨lowByte value, carry', memory⟩ := by
  cases h with
  | add huses =>
    obtain ⟨r, carry', hr, hexecute⟩ := huses.prepared_computes Opcodes.perform_adc Assemble.execute_clc
      Machine.Operation.apply_add hstored hstand accumulator l carry memory
    exact ⟨r, l + r, carry', hr, rfl, hexecute⟩
  | sub huses =>
    obtain ⟨r, carry', hr, hexecute⟩ := huses.prepared_computes Opcodes.perform_sbc Assemble.execute_sec
      Machine.Operation.apply_subtract hstored hstand accumulator l carry memory
    exact ⟨r, l - r, carry', hr, rfl, hexecute⟩

/-- **Loading an expression** leaves its value in the accumulator, and memory as it is. -/
theorem Loads.computes {width : Nat} {e : Expr} {front : List Stmt} (h : Loads width e front) :
    ∀ {loads : List Machine.Instruction}, AssemblesAll front loads → e.Stored →
      (∀ i ∈ loads, i.Stands view (stand i)) → ∀ s : Machine.State, ∃ value carry,
      e.result? s.accumulator (view s.memory) = some value ∧
      executeAll (loads.map stand) s = some ⟨lowByte value, carry, s.memory⟩ := by
  induction h with
  | operand _ _ =>
    intro loads hloads hstored hstand s
    obtain ⟨value, hvalue, hload⟩ := hloads.singleton.load_computes hstored hstand s
    exact ⟨value, s.carry, hvalue, hload⟩
  | returned =>
    intro loads hloads _ _ s
    cases hloads
    refine ⟨s.accumulator.toNat, s.carry, rfl, ?_⟩
    rw [lowByte_toNat]
    rfl
  | @binop op lhs rhs type span front _ _ _ _ ih =>
    intro loads hloads hstored hstand s
    obtain ⟨first, second, rfl, hfirst, hsecond⟩ := hloads.of_append
    obtain ⟨hstandFirst, hstandSecond⟩ := List.forall_mem_append.mp hstand
    obtain ⟨l, carry, hl, hlhs⟩ := ih hfirst hstored.1 hstandFirst s
    obtain ⟨r, value, carry', hr, hvalue, harith⟩ :=
      hsecond.singleton.arith_computes hstored.2 hstandSecond s.accumulator l carry s.memory
    refine ⟨value, carry', ?_, ?_⟩
    · rw [Expr.result?, hl, Option.bind_some, hr, Option.bind_some, hvalue]
    · rw [List.map_append, executeAll_append, hlhs, Option.bind_some, harith]

end Loading

/-- If nothing was returned, its byte is left. -/
theorem Loads.accumulates (c : Context) {width : Nat} {e : Expr} {front : List Stmt} (h : Loads width e front)
    {loads : List Machine.Instruction} (hloads : AssemblesAll front loads) (hdirect : e.Direct)
    (s : Machine.State) :
    ∃ b carry, e.byte? c s.memory = some b ∧ executeAll loads s = some ⟨b, carry, s.memory⟩ := by
  have hstands : ∀ i ∈ loads, i.Stands id (id i) := fun _ _ => ⟨rfl, fun _ => rfl⟩
  obtain ⟨value, carry, hvalue, hexecute⟩ := h.computes hloads hdirect.stored hstands s
  rw [List.map_id] at hexecute
  exact ⟨_, carry, Expr.byte?_of_result? c hdirect hvalue, hexecute⟩

/-! ## 5. Accesses -/

namespace Program

/-- The addresses that a statement accesses, in the order of its instructions. -/
def Stmt.accesses : Stmt → List Access
  | .decl d => d.value.accesses
  | .set lvalue rvalue _ _ => rvalue.accesses ++ lvalue.accesses
  | .ret (some e) _ _ | .expr e => e.accesses
  | .load operand _ _ | .store operand _ _ | .arith _ operand _ _ => operand.accesses
  | _ => []

end Program

namespace LowerCalls

mutual

/-- **A call** accesses what the statements in its place access. -/
theorem callStmts_accesses : ∀ {e : Expr}, e.CallsChecked → (∀ b ∈ e.bindings, b.Counted) →
    e.callStmts.flatMap Stmt.accesses ++ e.outcome.accesses = e.accesses
  | .call target args callee type span, h, hcounted => by
    obtain ⟨hcall, hargs⟩ := h
    obtain ⟨htarget, hrest⟩ := List.forall_mem_append.mp hcounted
    cases hcall with
    | @intro name b own place result params _ hkind htype hcount =>
      have hlength := (htarget b (List.mem_singleton_self b) hkind result params htype).symm
      rw [Expr.callStmts, List.flatMap_append, passStmts_accesses hargs hrest (hcount.trans hlength), Expr.accesses]
      exact (List.append_nil _).trans (List.append_nil _)
  | .number _ _ _, _, _ | .string _ _ _, _, _ | .ident _ _ _ _, _, _ | .member _ _ _, _, _ | .intrinsic _ _ _, _, _
  | .binop _ _ _ _ _, _, _ | .neg _ _ _, _, _ | .deref _ _ _, _, _ | .paren _ _, _, _ | .cell _ _ _ _, _, _
  | .immediate _ _ _, _, _ | .returned _ _, _, _ => rfl

/-- The statements that pass arguments access what the arguments do. -/
theorem passStmts_accesses : ∀ {args : Args} {params : List (String × Ty)}, args.CallsChecked →
    (∀ b ∈ args.bindings, b.Counted) → args.toList.length = params.length →
    (args.passStmts params).flatMap Stmt.accesses = args.accesses
  | .nil, _, _, _, _ => rfl
  | .cons _ _ _, [], _, _, hlength => by cases hlength
  | .cons arg rest _, param :: params, h, hcounted, hlength => by
    obtain ⟨harg, hrest⟩ := List.forall_mem_append.mp hcounted
    have hset : (passed arg param).accesses = arg.outcome.accesses := List.append_nil _
    rw [Args.passStmts, List.flatMap_append, List.flatMap_cons, hset,
      passStmts_accesses h.2 hrest (Nat.succ.inj hlength), Args.accesses, ← callStmts_accesses h.1 harg,
      List.append_assoc]

end

/-- The statements in place of one access what it accesses. -/
theorem calls_accesses {s : Stmt} (h : ∀ e ∈ s.parts, e.CallsChecked ∧ ∀ b ∈ e.bindings, b.Counted) :
    s.calls.flatMap Stmt.accesses = s.accesses := by
  have hparts : ∀ e ∈ s.parts, e.callStmts.flatMap Stmt.accesses ++ e.outcome.accesses = e.accesses :=
    fun e he => callStmts_accesses (h e he).1 (h e he).2
  cases s with
  | expr e =>
    have he := hparts e (List.mem_singleton_self e)
    cases e with
    | call target args callee type span =>
      cases (h _ (List.mem_singleton_self _)).1.1 with
      | intro _ _ _ => exact (List.append_nil _).symm.trans he
    | _ => exact List.append_nil _
  | set lvalue rvalue type span =>
    have hr := hparts rvalue (by simp [Stmt.parts, Stmt.exprs])
    rw [Stmt.calls, List.flatMap_append, List.flatMap_singleton, Stmt.accesses, Stmt.accesses, ← hr,
      List.append_assoc]
  | ret value type span =>
    cases value with
    | none => rfl
    | some e =>
      have he := hparts e (List.mem_singleton_self e)
      rw [Stmt.calls, List.flatMap_append, List.flatMap_singleton, Stmt.accesses, Stmt.accesses, ← he]
  | _ => exact List.append_nil _

end LowerCalls

/-- What is loaded is accessed. -/
theorem Loads.accesses {width : Nat} {e : Expr} {stmts : List Stmt} (h : Loads width e stmts) :
    stmts.flatMap Stmt.accesses = e.accesses := by
  induction h with
  | operand _ _ => exact List.append_nil _
  | returned => rfl
  | binop _ _ _ _ ih =>
    rw [List.flatMap_append, ih, Expr.accesses]
    exact congrArg _ (List.append_nil _)

/-- **Lowering an assignment** keeps what it accesses. -/
theorem LowerAssignment.step_accesses {s : Stmt} {front : List Stmt} (h : Step s front) :
    front.flatMap Stmt.accesses = s.accesses := by
  cases lowers h with
  | set _ hloads =>
    rw [List.flatMap_append, hloads.accesses, List.flatMap_singleton]
    rfl
  | other _ => exact List.append_nil _

/-- **Lowering a return** keeps what it accesses. -/
theorem LowerFunctions.step_accesses {s : Stmt} {front : List Stmt} (h : Step s front) :
    front.flatMap Stmt.accesses = s.accesses := by
  cases lowers h with
  | ret => rfl
  | value hloads =>
    rw [List.flatMap_append, hloads.accesses]
    exact List.append_nil _
  | other _ => exact List.append_nil _

/-- Closing a body adds no access. -/
theorem LowerFunctions.closed_accesses (span : Span) (stmts : List Stmt) :
    (closed span stmts).flatMap Stmt.accesses = stmts.flatMap Stmt.accesses := by
  rw [closed]
  split
  · rfl
  · rw [List.flatMap_append]
    exact List.append_nil _

/-- The access of an operand, by what it stands for. -/
theorem Machine.Operand.access?_of_source {operand : Operand} {address : Int}
    (h : operand.source = .cell (.address address)) :
    operand.access? = some ⟨address, decide (operand.form = .zeroPage)⟩ := by
  cases operand <;> cases h <;> rfl

/-- An instruction accesses the address of its operand. -/
theorem Assemble.Uses.access? {opcodes : Opcodes} {e : Expr} {i : Machine.Instruction} (h : Uses opcodes e i)
    (hdirect : ∀ a ∈ e.accesses, IsDirect a) : i.operand.access?.toList = e.accesses := by
  have hoperand := h.operand
  cases e with
  | cell place zeroPage type span =>
    cases place with
    | symbol name =>
      rw [← Option.some.inj hoperand]
      rfl
    | address address =>
      have hform : decide (i.operand.form = .zeroPage) = zeroPage := by
        cases zeroPage <;> rw [← Option.some.inj hoperand] <;> rfl
      rw [Machine.Operand.access?_of_source (h.source (hdirect _ (List.mem_singleton_self _))), hform]
      rfl
  | immediate value type span =>
    rw [← Option.some.inj hoperand]
    rfl
  | _ => cases hoperand

/-- **Instructions** access what their statements do. -/
theorem AssemblesAll.accesses {stmts : List Stmt} {instructions : List Machine.Instruction}
    (h : AssemblesAll stmts instructions) (hdirect : ∀ a ∈ stmts.flatMap Stmt.accesses, IsDirect a) :
    instructions.filterMap (·.operand.access?) = stmts.flatMap Stmt.accesses := by
  induction h with
  | nil => rfl
  | cons hs _ ih =>
    rw [List.flatMap_cons] at hdirect ⊢
    obtain ⟨hhere, hrest⟩ := List.forall_mem_append.mp hdirect
    rw [List.filterMap_append, ih hrest]
    refine congrArg (· ++ _) ?_
    cases hs with
    | load huses | store huses =>
      rw [Stmt.accesses, ← huses.access? hhere, filterMap_cons_toList]
      exact List.append_nil _
    | add huses | sub huses =>
      rw [Stmt.accesses, ← huses.access? hhere, List.filterMap_cons_none rfl, filterMap_cons_toList]
      exact List.append_nil _
    | jump | rts => rfl

/-- **The code of a body** accesses what its statements do, in their order. -/
theorem Emitted.accesses {body body' : Stmts} (h : Emitted body body')
    (hplain : ∀ s ∈ body.toList, s.isCode = false)
    (hparts : ∀ s ∈ body.toList, ∀ e ∈ s.parts, e.CallsChecked ∧ ∀ b ∈ e.bindings, b.Counted)
    (hdirect : ∀ a ∈ body.toList.flatMap Stmt.accesses, IsDirect a)
    (hcode : ∀ s ∈ body'.toList, ∃ c place, s = .code c place) :
    ∃ instructions, FlattenSymbol.codeIn body' = Machine.Instruction.codeOf instructions ∧
      instructions.filterMap (·.operand.access?) = body.toList.flatMap Stmt.accesses := by
  obtain ⟨called, assigned, stmts, span, instructions, hcalled, hassigned, hlowered, hall, hcodeIn⟩ :=
    h.assembles hplain hcode
  have hkept : (LowerFunctions.closed span stmts).flatMap Stmt.accesses = body.toList.flatMap Stmt.accesses := by
    have hcalled := hcalled.flatMap_eq (fun hstep hs => by rw [hstep.1, LowerCalls.calls_accesses hs]) hparts
    have hassigned := hassigned.flatMap_eq (P := fun _ => True)
      (fun hstep _ => LowerAssignment.step_accesses hstep) fun _ _ => trivial
    have hlowered := hlowered.flatMap_eq (P := fun _ => True)
      (fun hstep _ => LowerFunctions.step_accesses hstep) fun _ _ => trivial
    rw [LowerFunctions.closed_accesses, hlowered, hassigned, hcalled]
  exact ⟨instructions, hcodeIn, hkept ▸ hall.accesses (hkept ▸ hdirect)⟩

end Lode
