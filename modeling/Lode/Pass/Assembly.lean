/-
# Assembly

Instructions become bytes of the 6502 processor.  An operand that is a symbol leaves a hole of zero
bytes and a relocation for it.
-/
import Lode.Pass.Basic
import Lode.Tree.Printer
import Lode.Word

namespace Lode

/-- The opcodes of an instruction by the form of its operand. -/
structure Opcodes where
  immediate : Option UInt8
  zeroPage : UInt8
  absolute : UInt8
deriving DecidableEq, Repr

namespace Opcodes

/-- Load the accumulator. -/
def lda : Opcodes := ⟨some 0xa9, 0xa5, 0xad⟩

/-- Store the accumulator. -/
def sta : Opcodes := ⟨none, 0x85, 0x8d⟩

/-- Add with carry. -/
def adc : Opcodes := ⟨some 0x69, 0x65, 0x6d⟩

/-- Subtract with borrow. -/
def sbc : Opcodes := ⟨some 0xe9, 0xe5, 0xed⟩

/-- Clear the carry. -/
def clc : UInt8 := 0x18

/-- Set the carry. -/
def sec : UInt8 := 0x38

/-- Jump and remember where to return. -/
def jsr : UInt8 := 0x20

/-- Jump. -/
def jmp : UInt8 := 0x4c

/-- Return. -/
def rts : UInt8 := 0x60

end Opcodes

/-- Bytes with the holes in them. -/
structure MachineCode where
  bytes : List UInt8
  relocations : List Relocation
deriving DecidableEq, Repr

namespace MachineCode

/-- One piece of code after another. -/
def append (a b : MachineCode) : MachineCode :=
  ⟨a.bytes ++ b.bytes, a.relocations ++ b.relocations.map (·.shifted a.bytes.length)⟩

/-- The node of a piece of code. -/
def node (c : MachineCode) (span : Span) : Node :=
  .build .code span [("bytes", .bytes c.bytes), ("relocs", .relocations c.relocations)]

/-- The code that a node carries. -/
def ofNode (n : Node) : MachineCode :=
  ⟨(n.bytes? "bytes").getD [], (n.relocations? "relocs").getD []⟩

end MachineCode

namespace Assemble

/-- An instruction whose operand is a memory cell. -/
def encodeStorage (opcodes : Opcodes) (operand : Node) : Except Error MachineCode :=
  let zeroPage := (operand.bool? "zero_page").getD false
  match operand.str? "symbol", operand.int? "address" with
  | some symbol, _ =>
    .ok (if zeroPage then ⟨[opcodes.zeroPage, 0], [⟨1, symbol, .zeroPage8⟩]⟩
      else ⟨[opcodes.absolute, 0, 0], [⟨1, symbol, .absolute16⟩]⟩)
  | none, some address =>
    .ok (if zeroPage then ⟨[opcodes.zeroPage, lowByte address], []⟩
      else ⟨[opcodes.absolute, lowByte address, lowByte (address / 256)], []⟩)
  | none, none => .error (InternalProblem.storageTarget.atSpan operand.span)

/-- One instruction with its operand. -/
def encode (opcodes : Opcodes) (operand : Node) : Except Error MachineCode :=
  match operand.tag with
  | .immediateStorage =>
    match opcodes.immediate with
    | some opcode => .ok ⟨[opcode, lowByte ((operand.int? "value").getD 0)], []⟩
    | none => .error (AssemblyProblem.storeIntoLiteral.atSpan operand.span)
  | .absoluteStorage => encodeStorage opcodes operand
  | .number =>
    .error ((AssemblyProblem.operandRange ((operand.int? "value").getD 0)).atSpan operand.span)
  | tag => .error ((AssemblyProblem.unresolvedOperand tag).atSpan operand.span)

/-- The operation of one byte: any other width is an error. -/
def byteWide : String × Pattern :=
  ("width", .require (.eq (.int 1)) fun width => ⟨.assembly (.unsupportedWidth width.text), none⟩)

/-- Loads and stores. -/
def transfer (tag : Tag) (opcodes : Opcodes) : TreeRule where
  pattern := .tagged tag [byteWide, ("operand", .capture "operand" .any)]
  template b n := do
    let code ← encode opcodes (← b.node "operand")
    return .replace (code.node n.span)

/-- Additions and subtractions, with the instruction that prepares the carry. -/
def arithmetic : TreeRule where
  pattern := .tagged .arith [byteWide, ("op", .capture "op" .any), ("operand", .capture "operand" .any)]
  template b n := do
    let (carry, opcodes) ← match ← b.str "op" with
      | "+" => pure (Opcodes.clc, Opcodes.adc)
      | "-" => pure (Opcodes.sec, Opcodes.sbc)
      | op => throw ((AssemblyProblem.noInstruction op).atSpan n.span)
    let code ← encode opcodes (← b.node "operand")
    return .replace ((MachineCode.append ⟨[carry], []⟩ code).node n.span)

/-- Jumps. -/
def jump : TreeRule where
  pattern := .tagged .jump [("symbol", .capture "symbol" .any), ("link", .capture "link" .any)]
  template b n := do
    let symbol ← n.textOf "symbol"
    let link ← b.value "link"
    let opcode := if link.bool? == some true then Opcodes.jsr else Opcodes.jmp
    return .replace ((⟨[opcode, 0, 0], [⟨1, symbol, .absolute16⟩]⟩ : MachineCode).node n.span)

/-- Returns. -/
def ret : TreeRule where
  pattern := .tagged .rts []
  template _ n := .ok (.replace ((⟨[Opcodes.rts], []⟩ : MachineCode).node n.span))

/-- The rules, tried on the way up. -/
def rules : RuleSet :=
  ⟨"assemble", .ascending, [transfer .load .lda, transfer .store .sta, arithmetic, jump, ret]⟩

/-- The pass that makes bytes. -/
def pass : Pass where
  info := ⟨"assemble", ["code"], ["load", "store", "jump", "rts"],
    ["load", "store", "jump", "rts"]⟩
  run _ tree := rules.run tree

end Assemble

/-! ## Joining code -/

namespace FlattenSymbol

/-- Two pieces of code at the front of a sequence become one. -/
def mergeCode : TreeRule where
  pattern := .sequence (Pattern.ones [.capture "first" (.tagged .code []),
    .capture "second" (.tagged .code [])]) (some "rest")
  template b n := do
    let first ← b.node "first"
    let second ← b.node "second"
    let merged := ((MachineCode.ofNode first).append (.ofNode second)).node
      (first.span.join second.span)
    return .ofOption (Node.sequence n.tag [merged] (b.node? "rest"))

/-- A function with a single piece of code becomes a symbol. -/
def functionSymbol : TreeRule where
  pattern := .tagged .function [("body",
    .sequence (Pattern.ones [.capture "code" (.tagged .code [])]) none)]
  template b n := do
    let code := MachineCode.ofNode (← b.node "code")
    let symbol := Node.build .funSymbol n.span
      [("name", .str (← n.textOf "symbol")), ("bytes", .bytes code.bytes),
        ("relocs", .relocations code.relocations), ("type", .type (← n.exprType))]
    return .replace (symbol.set? "locals" ((n.table? "locals").map .table))

/-- The rules, tried on the way up. -/
def rules : RuleSet := ⟨"flatten_symbol", .ascending, [mergeCode, functionSymbol]⟩

/-- The pass that joins the code of functions. -/
def pass : Pass where
  info := ⟨"flatten_symbol", ["fun_symbol"], ["code", "locals"], ["code", "fun"]⟩
  run _ tree := rules.run tree

end FlattenSymbol

end Lode
