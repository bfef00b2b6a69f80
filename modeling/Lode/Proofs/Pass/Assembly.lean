/-
# Assembled programs

Instructions become code, and the code of a function becomes one piece.  The pass is a list of rules, one
for every kind of instruction, each a pattern over the node and a replacement; here it is a function on
statements (`assemble`), and the rules are shown to do the same (`apply_stmt`).  A rule that asks for an
operation of one byte matches first and then fails on any other width, so its error is that of the width and
not the missing match (`match_wide`).

What the pass leaves is then described once more, without the error cases (`Assembles`): by the instructions
that a statement is assembled to, with their operands in the form that the processor knows.  An opcode is
chosen by the form of the operand, and all opcodes that are chosen are among those that the compiler emits
(`Opcodes.Emitted`), which is what lets the code of a function be taken apart into instructions again.

The code has a hole for every address that is not known yet.  A hole is for the symbol of its operand, and
takes one byte if this is in the zero page and two otherwise, so the code of a linked statement is linked
(`Assembles.linked`).  A bound program stays bound, and every function ends in a return (`bound`).
-/
import Lode.Proofs.Pass.Lowering

namespace Lode

namespace Opcodes

open Machine

/-- The opcode for a form of operands. -/
def forForm (opcodes : Opcodes) : OperandForm → Option UInt8
  | .immediate => opcodes.immediate
  | .zeroPage => some opcodes.zeroPage
  | .absolute => some opcodes.absolute
  | .implied => none

/-- All opcodes are among the emitted ones. -/
def Emitted (opcodes : Opcodes) : Prop :=
  ∀ {form : OperandForm} {opcode : UInt8}, opcodes.forForm form = some opcode →
    (opcode, form) ∈ emittedOpcodes

theorem emitted_lda : lda.Emitted := by
  rintro form _ h
  cases form <;> cases h <;> decide

theorem emitted_sta : sta.Emitted := by
  rintro form _ h
  cases form <;> cases h <;> decide

theorem emitted_adc : adc.Emitted := by
  rintro form _ h
  cases form <;> cases h <;> decide

theorem emitted_sbc : sbc.Emitted := by
  rintro form _ h
  cases form <;> cases h <;> decide

end Opcodes

/-- The operand that an expression is. -/
def Program.Expr.operand? : Program.Expr → Option Machine.Operand
  | .immediate value _ _ => some (.immediate (lowByte value))
  | .cell (.symbol name) zeroPage _ _ => some (.symbol name zeroPage)
  | .cell (.address address) true _ _ => some (.zeroPage (lowByte address))
  | .cell (.address address) false _ _ =>
    some (.absolute (lowByte address) (lowByte (address / 256)))
  | _ => none

namespace Assemble

open Program
open Machine
open Walk (Mirrors)

/-! ## 1. Instructions -/

/-- An operation is one of a byte. -/
def checkByte (width : Nat) : Except Error Unit :=
  if width = 1 then .ok () else .error ⟨.assembly (.unsupportedWidth (Value.int width).text), none⟩

/-- The code of a load or a store. -/
def transferred (opcodes : Opcodes) (operand : Expr) (width : Nat) (span : Span) : Except Error Stmt :=
  Except.mapError (·.locate span) do
    checkByte width
    let code ← encode opcodes operand.node
    return .code code span

theorem match_other {n : Node} {tag : Tag} (htag : n.tag ≠ tag) (attributes : List (String × Pattern))
    (b : Bindings) : (Pattern.tagged tag attributes).match? (.node n) b = .ok none := by
  simp [Pattern.tagged, Pattern.match?, htag]

/-- A pattern for a byte fails on any other width instead of not matching. -/
theorem match_wide {n : Node} {tag : Tag} {width : Nat} (htag : n.tag = tag)
    (hget : n.get? "width" = some (.int width)) (hwidth : width ≠ 1)
    (attributes : List (String × Pattern)) (b : Bindings) :
    (Pattern.tagged tag (byteWide :: attributes)).match? (.node n) b =
      .error ⟨.assembly (.unsupportedWidth (Value.int width).text), none⟩ := by
  have hne : ¬ (Value.int width = Value.int 1) := by
    rw [Value.int.injEq]
    omega
  simp [Pattern.tagged, FieldPatterns.ofList, Pattern.match?, FieldPatterns.match?, htag, hget, byteWide,
    hne, bind, Except.bind, throw, throwThe, MonadExceptOf.throw]

/-- The rules do to a load what `transferred` says. -/
theorem apply_load (operand : Expr) (width : Nat) (span : Span) :
    rules.apply (Stmt.load operand width span).node =
      (fun s => .replace s.node) <$> transferred .lda operand width span := by
  by_cases hwidth : width = 1
  · subst hwidth
    have hrule : rules.apply (Stmt.load operand 1 span).node = Except.mapError (·.locate span)
        (encode .lda operand.node >>= fun code => .ok (.replace (code.node span))) := rfl
    rw [hrule, transferred]
    cases encode .lda operand.node <;> rfl
  · have htag : (Stmt.load operand width span).node.tag = .load := rfl
    simp only [RuleSet.apply, rules, RuleSet.applyRules, transfer, match_wide htag rfl hwidth,
      transferred, checkByte, if_neg hwidth]
    rfl

/-- The rules do to a store what `transferred` says. -/
theorem apply_store (operand : Expr) (width : Nat) (span : Span) :
    rules.apply (Stmt.store operand width span).node =
      (fun s => .replace s.node) <$> transferred .sta operand width span := by
  by_cases hwidth : width = 1
  · subst hwidth
    have hrule : rules.apply (Stmt.store operand 1 span).node = Except.mapError (·.locate span)
        (encode .sta operand.node >>= fun code => .ok (.replace (code.node span))) := rfl
    rw [hrule, transferred]
    cases encode .sta operand.node <;> rfl
  · have htag : (Stmt.store operand width span).node.tag = .store := rfl
    have hother : (Stmt.store operand width span).node.tag ≠ .load := Tag.noConfusion
    simp only [RuleSet.apply, rules, RuleSet.applyRules, transfer, match_other hother, ok_bind,
      match_wide htag rfl hwidth, transferred, checkByte, if_neg hwidth]
    rfl

/-- The instruction that prepares the carry, and the opcodes of the operation. -/
def operation (op : String) (span : Span) : Except Error (UInt8 × Opcodes) :=
  match op with
  | "+" => .ok (Opcodes.clc, Opcodes.adc)
  | "-" => .ok (Opcodes.sec, Opcodes.sbc)
  | op => .error ((AssemblyProblem.noInstruction op).atSpan span)

/-- The code of an addition or a subtraction. -/
def computed (op : String) (operand : Expr) (width : Nat) (span : Span) : Except Error Stmt :=
  Except.mapError (·.locate span) do
    checkByte width
    let (carry, opcodes) ← operation op span
    let code ← encode opcodes operand.node
    return .code (MachineCode.append ⟨[carry], []⟩ code) span

/-- The rules do to an addition or a subtraction what `computed` says. -/
theorem apply_arith (op : String) (operand : Expr) (width : Nat) (span : Span) :
    rules.apply (Stmt.arith op operand width span).node =
      (fun s => .replace s.node) <$> computed op operand width span := by
  by_cases hwidth : width = 1
  · subst hwidth
    have hrule : rules.apply (Stmt.arith op operand 1 span).node = Except.mapError (·.locate span)
        (operation op span >>= fun carried => encode carried.2 operand.node >>= fun code =>
          .ok (.replace ((MachineCode.append ⟨[carried.1], []⟩ code).node span))) := by
      by_cases hplus : op = "+"
      · subst hplus
        rfl
      by_cases hminus : op = "-"
      · subst hminus
        rfl
      have hop : operation op span = .error ((AssemblyProblem.noInstruction op).atSpan span) := by
        unfold operation
        split <;> simp_all
      rw [hop]
      have hrest : rules.apply (Stmt.arith op operand 1 span).node = Except.mapError (·.locate span) (do
          let (carry, opcodes) ← match op with
            | "+" => pure (Opcodes.clc, Opcodes.adc)
            | "-" => pure (Opcodes.sec, Opcodes.sbc)
            | op => throw ((AssemblyProblem.noInstruction op).atSpan span)
          let code ← encode opcodes operand.node
          return .replace ((MachineCode.append ⟨[carry], []⟩ code).node span)) := rfl
      rw [hrest]
      split <;> simp_all
      rfl
    rw [hrule, computed]
    cases operation op span with
    | error e => rfl
    | ok carried =>
      obtain ⟨carry, opcodes⟩ := carried
      change Except.mapError _ (encode opcodes operand.node >>= _) = _ <$> Except.mapError _ (do
        let code ← encode opcodes operand.node
        return Stmt.code (MachineCode.append ⟨[carry], []⟩ code) span)
      cases encode opcodes operand.node <;> rfl
  · have htag : (Stmt.arith op operand width span).node.tag = .arith := rfl
    have hload : (Stmt.arith op operand width span).node.tag ≠ .load := Tag.noConfusion
    have hstore : (Stmt.arith op operand width span).node.tag ≠ .store := Tag.noConfusion
    simp only [RuleSet.apply, rules, RuleSet.applyRules, transfer, arithmetic, match_other hload,
      match_other hstore, ok_bind, match_wide htag rfl hwidth, computed, checkByte, if_neg hwidth]
    rfl

/-- Code in place of an instruction. -/
def assemble : Stmt → Except Error Stmt
  | .load operand width span => transferred .lda operand width span
  | .store operand width span => transferred .sta operand width span
  | .arith op operand width span => computed op operand width span
  | .jump symbol span => .ok (.code ⟨[Opcodes.jsr, 0, 0], [⟨1, symbol, .absolute16⟩]⟩ span)
  | .rts span => .ok (.code ⟨[Opcodes.rts], []⟩ span)
  | s => .ok s

/-- **The rules are the function**: every statement that can be there is assembled, left or refused alike.
-/
theorem apply_stmt (s : Stmt) (h : s.isPlain = true) :
    (fun verdict => verdict.apply s.node) <$> rules.apply s.node =
      (fun s' => some s'.node) <$> assemble s := by
  cases s with
  | decl _ | expr _ | scope _ _ _ _ => cases h
  | load operand width span =>
    rw [apply_load, assemble, Functor.map_map]
    rfl
  | store operand width span =>
    rw [apply_store, assemble, Functor.map_map]
    rfl
  | arith op operand width span =>
    rw [apply_arith, assemble, Functor.map_map]
    rfl
  | _ => rfl

/-- What the pass does to the parts of a program. -/
def visitor : Visitor Unit where
  stmt s := liftM (assemble s)

theorem visitsParts : VisitsParts id rules.hooks visitor where
  pass part _ := by cases part <;> rfl
  enterScope _ _ _ _ := .of_eq rfl
  enterFunction _ := .of_eq rfl
  enterUnit _ := .of_eq rfl
  exit part := by
    refine .of_eq ?_
    cases part with
    | type t => cases t <;> rfl
    | stmt s h =>
      refine Walk.ext fun t => ?_
      change (settle rules.hooks.exit s.node).outcome t = _
      simp only [settle, Walk.outcome_map, Visitor.exit, visitor, Walk.outcome_lift]
      exact congrArg (·, t) (apply_stmt s h)
    | _ => rfl

theorem rewrites : Rewrites id rules.hooks (pure : Expr → Walk Unit Expr) :=
  .of_keep fun ⟨tag, _, _⟩ htag => by cases tag <;> cases htag <;> exact ⟨rfl, rfl⟩

/-- **The pass is the visitor.** -/
theorem visits : Visits id rules.hooks visitor :=
  .ascending visitsParts rewrites (funext fun e => (Expr.mapUp_pure e).symm)

theorem runPass (unit : String) (p : Program) :
    Compiler.runPass unit p.node pass = Program.node <$> ((p.mapUp visitor).outcome ()).1 :=
  runPass_of_rules (fun _ => rfl) visits rfl p

/-- Every statement is replaced by one. -/
theorem expands : Expands visitor assemble (fun _ => .ok none) where
  type := rfl
  expr := rfl
  stmt _ := rfl
  call _ := rfl
  data _ := rfl
  cell _ _ _ := rfl
  enterFunction := rfl
  item := rfl
  itemCell := rfl
  enterUnit := rfl
  exitUnit := rfl

/-! ## 2. What instructions are assembled to -/

/-- An instruction with the opcode for its operand, which is that of an expression. -/
structure Uses (opcodes : Opcodes) (e : Expr) (i : Machine.Instruction) : Prop where
  operand : e.operand? = some i.operand
  opcode : opcodes.forForm i.operand.form = some i.opcode

/-- The instruction that prepares an addition. -/
def clc : Machine.Instruction := ⟨Opcodes.clc, .implied, by decide⟩

/-- The instruction that prepares a subtraction. -/
def sec : Machine.Instruction := ⟨Opcodes.sec, .implied, by decide⟩

/-- The instruction that returns. -/
def rts : Machine.Instruction := ⟨Opcodes.rts, .implied, by decide⟩

/-- The instruction that calls a function. -/
def jsr (symbol : String) : Machine.Instruction :=
  ⟨Opcodes.jsr, .symbol symbol false, show (Opcodes.jsr, OperandForm.absolute) ∈ emittedOpcodes by decide⟩

/-- The instructions that a statement is assembled to. -/
inductive Assembles : Stmt → List Machine.Instruction → Prop
  | load {operand : Expr} {span : Span} {i : Machine.Instruction} : Uses .lda operand i →
      Assembles (.load operand 1 span) [i]
  | store {operand : Expr} {span : Span} {i : Machine.Instruction} : Uses .sta operand i →
      Assembles (.store operand 1 span) [i]
  | add {operand : Expr} {span : Span} {i : Machine.Instruction} : Uses .adc operand i →
      Assembles (.arith "+" operand 1 span) [clc, i]
  | sub {operand : Expr} {span : Span} {i : Machine.Instruction} : Uses .sbc operand i →
      Assembles (.arith "-" operand 1 span) [sec, i]
  | jump {symbol : String} {span : Span} : Assembles (.jump symbol span) [jsr symbol]
  | rts {span : Span} : Assembles (.rts span) [rts]

/-- An operand that is encoded has a form, and the opcode is the one for this form. -/
theorem encode_ok {opcodes : Opcodes} (hemitted : opcodes.Emitted) {e : Expr} {code : MachineCode}
    (h : encode opcodes e.node = .ok code) : ∃ i, Uses opcodes e i ∧ code = i.code := by
  have huses : ∀ (operand : Operand) (opcode : UInt8), e.operand? = some operand →
      opcodes.forForm operand.form = some opcode → code = ⟨opcode :: operand.bytes, operand.hole?.toList⟩ →
      ∃ i, Uses opcodes e i ∧ code = i.code := fun operand opcode hoperand hopcode hcode =>
    ⟨⟨opcode, operand, hemitted hopcode⟩, ⟨hoperand, hopcode⟩, hcode⟩
  cases e with
  | immediate value type span =>
    rw [encode, show (Expr.immediate value type span).node.tag = .immediateStorage from rfl] at h
    cases hopcode : opcodes.immediate with
    | none =>
      simp only [hopcode] at h
      cases h
    | some opcode =>
      simp only [hopcode] at h
      exact huses (.immediate (lowByte value)) opcode rfl hopcode (Except.ok.inj h).symm
  | cell place zeroPage type span =>
    cases place with
    | symbol name =>
      cases zeroPage with
      | true => exact huses (.symbol name true) _ rfl rfl (Except.ok.inj h).symm
      | false => exact huses (.symbol name false) _ rfl rfl (Except.ok.inj h).symm
    | address address =>
      cases zeroPage with
      | true => exact huses (.zeroPage (lowByte address)) _ rfl rfl (Except.ok.inj h).symm
      | false =>
        exact huses (.absolute (lowByte address) (lowByte (address / 256))) _ rfl rfl
          (Except.ok.inj h).symm
  | _ => cases h

theorem mapError_eq_ok {ε ε' α : Type} {f : ε → ε'} {x : Except ε α} {a : α}
    (h : x.mapError f = .ok a) : x = .ok a := by
  cases x with
  | error e => cases h
  | ok b => exact congrArg _ (Except.ok.inj h)

theorem checkByte_ok {width : Nat} {u : Unit} (h : checkByte width = .ok u) : width = 1 := by
  unfold checkByte at h
  split at h
  · assumption
  · cases h

theorem transferred_ok {opcodes : Opcodes} (hemitted : opcodes.Emitted) {operand : Expr} {width : Nat}
    {span : Span} {s : Stmt} (h : transferred opcodes operand width span = .ok s) :
    width = 1 ∧ ∃ i, Uses opcodes operand i ∧ s = .code i.code span := by
  obtain ⟨_, hbyte, h⟩ := bind_eq_ok.mp (mapError_eq_ok h)
  obtain ⟨code, hcode, h⟩ := bind_eq_ok.mp h
  obtain ⟨i, huses, rfl⟩ := encode_ok hemitted hcode
  exact ⟨checkByte_ok hbyte, i, huses, (Except.ok.inj h).symm⟩

/-- An addition or a subtraction is assembled to two: one prepares the carry, one computes. -/
theorem computed_ok {op : String} {operand : Expr} {width : Nat} {span : Span} {s : Stmt}
    (h : computed op operand width span = .ok s) : width = 1 ∧
      ∃ instructions, Assembles (.arith op operand 1 span) instructions ∧
        s = .code (Machine.Instruction.codeOf instructions) span := by
  obtain ⟨_, hbyte, h⟩ := bind_eq_ok.mp (mapError_eq_ok h)
  obtain ⟨⟨carry, opcodes⟩, hoperation, h⟩ := bind_eq_ok.mp h
  obtain ⟨code, hcode, h⟩ := bind_eq_ok.mp h
  obtain rfl := Except.ok.inj h
  refine ⟨checkByte_ok hbyte, ?_⟩
  unfold operation at hoperation
  split at hoperation
  · cases hoperation
    obtain ⟨i, huses, rfl⟩ := encode_ok Opcodes.emitted_adc hcode
    exact ⟨_, .add huses, by rw [Machine.Instruction.codeOf, Machine.Instruction.codeOf_singleton]; rfl⟩
  · cases hoperation
    obtain ⟨i, huses, rfl⟩ := encode_ok Opcodes.emitted_sbc hcode
    exact ⟨_, .sub huses, by rw [Machine.Instruction.codeOf, Machine.Instruction.codeOf_singleton]; rfl⟩
  · cases hoperation

/-- **Assembled statements.**  An instruction becomes its code; nothing else changes. -/
theorem assemble_ok {s s' : Stmt} (h : assemble s = .ok s') :
    (∃ instructions span, Assembles s instructions ∧
      s' = .code (Machine.Instruction.codeOf instructions) span) ∨
    (s' = s ∧ ∀ instructions, ¬ Assembles s instructions) := by
  cases s with
  | load operand width span =>
    obtain ⟨rfl, i, huses, rfl⟩ := transferred_ok Opcodes.emitted_lda h
    exact .inl ⟨[i], span, .load huses, by rw [Machine.Instruction.codeOf_singleton]⟩
  | store operand width span =>
    obtain ⟨rfl, i, huses, rfl⟩ := transferred_ok Opcodes.emitted_sta h
    exact .inl ⟨[i], span, .store huses, by rw [Machine.Instruction.codeOf_singleton]⟩
  | arith op operand width span =>
    obtain ⟨rfl, instructions, hassembles, rfl⟩ := computed_ok h
    exact .inl ⟨instructions, span, hassembles, rfl⟩
  | jump symbol span => exact .inl ⟨_, span, .jump, (Except.ok.inj h).symm⟩
  | rts span => exact .inl ⟨_, span, .rts, (Except.ok.inj h).symm⟩
  | _ => exact .inr ⟨(Except.ok.inj h).symm, fun _ h => by cases h⟩

/-! ## 3. Symbols in code -/

/-- The hole of an instruction is for the variable of its operand, and is as wide as its section asks for.
-/
theorem hole_linked {S : Symbols} {e : Expr} {opcodes : Opcodes} {i : Machine.Instruction}
    (h : Uses opcodes e i) (hl : e.Linked S) (hwidth : e.HasWidth 1) :
    ∀ r ∈ i.code.relocations, HoleLinked S r := by
  have hoperand := h.operand
  intro r hr
  change r ∈ i.operand.hole?.toList at hr
  rw [Option.mem_toList] at hr
  cases e with
  | immediate value type span =>
    obtain hoperand := Option.some.inj hoperand
    rw [← hoperand] at hr
    cases hr
  | cell place zeroPage type span =>
    cases place with
    | symbol name =>
      obtain hoperand := Option.some.inj hoperand
      rw [← hoperand] at hr
      obtain rfl := Option.some.inj hr
      obtain ⟨section_, type', hvar, hzero, htype⟩ := hl
      cases zeroPage with
      | true =>
        obtain rfl := hzero.mp rfl
        obtain rfl := htype rfl
        exact ⟨type', hvar, by rw [show type'.width = 1 from hwidth]; decide⟩
      | false =>
        exact .inr ⟨section_, type', hvar, fun hzp => Bool.false_ne_true (hzero.mpr hzp)⟩
    | address address =>
      cases zeroPage <;>
      · obtain hoperand := Option.some.inj hoperand
        rw [← hoperand] at hr
        cases hr
  | _ => cases hoperand

/-- The code of a linked instruction is linked. -/
theorem Assembles.linked {S : Symbols} {s : Stmt} {instructions : List Machine.Instruction}
    (h : Assembles s instructions) (hs : s.Linked S) :
    CodeLinked S (Machine.Instruction.codeOf instructions) := by
  refine ⟨⟨instructions, rfl⟩, ?_⟩
  -- the relocations behind the carry are those of the operation, moved by a byte
  have hshifted : ∀ {i : Machine.Instruction} (k : Nat), (∀ r ∈ i.code.relocations, HoleLinked S r) →
      ∀ r ∈ i.code.relocations.map (·.shifted k), HoleLinked S r := fun k hi r hr => by
    obtain ⟨r', hr', rfl⟩ := List.mem_map.mp hr
    exact hi r' hr'
  cases h with
  | load huses | store huses =>
    rw [Machine.Instruction.codeOf_singleton]
    exact hole_linked huses hs.1 hs.2
  | add huses | sub huses =>
    rw [Machine.Instruction.codeOf, Machine.Instruction.codeOf_singleton]
    exact hshifted 1 (hole_linked huses hs.1 hs.2)
  | jump =>
    rw [Machine.Instruction.codeOf_singleton]
    intro r hr
    obtain rfl := List.mem_singleton.mp hr
    exact .inl hs
  | rts =>
    rw [Machine.Instruction.codeOf_singleton]
    intro r hr
    cases hr

/-- What stands in place of a statement is straight and linked if the statement is. -/
theorem step_linked {S : Symbols} {s : Stmt} {front : List Stmt}
    (h : Expands.Step assemble (fun _ => .ok none) s front)
    (hs : s.isStraight = true ∧ s.Linked S) : ∀ s' ∈ front, s'.isStraight = true ∧ s'.Linked S := by
  obtain ⟨s', hs', hfront⟩ := bind_eq_ok.mp h
  obtain rfl := Except.ok.inj hfront
  simp only [Option.getD_none, List.mem_singleton, forall_eq]
  rcases assemble_ok hs' with ⟨instructions, span, hassembles, rfl⟩ | ⟨rfl, -⟩
  · exact ⟨rfl, hassembles.linked hs.2⟩
  · exact hs

/-- What the pass leaves of the body of a function. -/
def Assembled (body body' : Stmts) : Prop :=
  Expanded (Expands.Step assemble fun _ => .ok none) body.toList body'.toList

/-- The body of a function is assembled statement by statement, and its code is joined. -/
theorem leaves : Expands.Leaves visitor assemble (fun _ => .ok none) Assembled := Expands.leaves_pure rfl

/-- The body of a function ends in the code of a return. -/
def Returns : Program.Item → Prop
  | .function f => ∃ front span, f.body.toList = front ++ [.code (Machine.Instruction.codeOf [rts]) span]
  | _ => True

/-- The last instruction of a function is still its return. -/
theorem returns_of_rebodied {i i' : Program.Item} (h : i.Rebodied Assembled i')
    (hi : LowerFunctions.Returns i) : Returns i' := by
  cases h with
  | @function f body hbody =>
    obtain ⟨front, span, hend⟩ := hi
    rw [Assembled, hend] at hbody
    obtain ⟨front', back, hlist, -, hback⟩ := hbody.of_append
    obtain ⟨s', hs', hlast⟩ := bind_eq_ok.mp hback.singleton
    obtain rfl := Except.ok.inj hs'
    obtain rfl := Except.ok.inj hlast
    exact ⟨front', span, hlist⟩
  | other hne =>
    cases i with
    | function f => exact absurd rfl (hne f)
    | _ => trivial

/-- The pass changes the bodies of functions. -/
theorem rebodied {p p' : Program} (hstraight : p.IsStraight)
    (hrun : ((p.mapUp visitor).outcome ()).1 = .ok p') :
    List.Forall₂ (fun entry entry' => entry.1.Rebodied Assembled entry'.1) p.items p'.items :=
  expands.mapUp_program leaves hstraight hrun

/-- **Assembled programs.**  A bound program stays bound, and every function ends in a return. -/
theorem bound {p p' : Program} {S : Symbols} (hstraight : p.IsStraight) (h : p.Bound S)
    (hreturns : ∀ entry ∈ p.items, LowerFunctions.Returns entry.1)
    (hrun : ((p.mapUp visitor).outcome ()).1 = .ok p') :
    p'.IsStraight ∧ p'.Bound S ∧ ∀ entry ∈ p'.items, Returns entry.1 := by
  have hrebodied := rebodied hstraight hrun
  obtain ⟨hstraight', hbound⟩ :=
    Program.Bound.of_rebodied (Expanded.keeps step_linked) hrebodied hstraight h
  refine ⟨hstraight', hbound, fun entry' hentry' => ?_⟩
  obtain ⟨entry, hentry, hitem⟩ := exists_of_mem_right hrebodied hentry'
  exact returns_of_rebodied hitem (hreturns entry hentry)

end Assemble

end Lode
