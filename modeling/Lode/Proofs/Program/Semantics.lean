/-
# What functions do

The meaning of the functions of a unit that call no other ones, said of the program as it is written.  A
name stands for the nearest declaration around it.  Variables are bytes in memory, constants have their
exact values, and sums and differences are those of bytes.  Statements are executed in their order, up to
the first return (`execute`).

A variable of a unit or a parameter lies in the cell of its symbol, which its name tells.  The symbols of
the variables that a function declares are given, in the order of their declarations.  Nothing else of the
compiler is in the definitions: no frames, no bindings, no types, and neither the accumulator nor the order
in which an expression is loaded.

Two numbers meet in an expression, a byte and an exact value.  An address and the argument of an intrinsic
are exact; everything else is a byte, and a constant among bytes counts by its low byte.  The two ways of
computing agree, because sums and differences of integers become those of bytes (`operatorByte_ofInt`).
Where an expression has no meaning, because of a call or an unknown name, there is no byte, and the
execution has no outcome; the results about compiled code are about functions that have one.
-/
import Lode.Proofs.Machine.Processor
import Lode.Proofs.Program.Bindings
import Lode.Proofs.Program.Values

namespace Lode.Program

open Machine (Memory)

/-! ## 1. Names -/

/-- What a name stands for. -/
inductive Meaning where
  | variable (symbol : String)
  | constant
  | function
deriving DecidableEq, Repr

/-- The symbol of a variable. -/
def Meaning.symbol? : Meaning → Option String
  | .variable symbol => some symbol
  | _ => none

/-- The names that can be used at a place, the nearest first, and the values of the constants of the unit. -/
structure Context where
  names : List (String × Meaning)
  constants : List (String × Int)

namespace Context

variable (c : Context)

/-- The value of the constant that a name stands for. -/
def constant? (name : String) : Option Int :=
  match c.names.lookup name with
  | some .constant => c.constants.lookup name
  | _ => none

/-- The cell of the variable that a name stands for. -/
def cell? (name : String) : Option Place :=
  match c.names.lookup name with
  | some (.variable symbol) => some (.symbol symbol)
  | _ => none

/-- The symbols of the variables that are known. -/
def symbols : List String :=
  c.names.filterMap fun entry => entry.2.symbol?

/-- The names behind the declaration of a variable. -/
def declare (name symbol : String) : Context := { c with names := (name, .variable symbol) :: c.names }

/-- A variable hides a constant of its name. -/
theorem constant?_declare (name symbol : String) :
    (c.declare name symbol).constant? = Function.update c.constant? name none := by
  funext other
  by_cases hother : other = name
  · subst hother
    simp [constant?, declare]
  · simp [constant?, declare, List.lookup_cons, hother, beq_false_of_ne hother]

end Context

/-! ## 2. Expressions -/

/-- The byte of an operation. -/
def operatorByte (op : String) (lhs rhs : UInt8) : Option UInt8 :=
  match op with
  | "+" => some (lhs + rhs)
  | "-" => some (lhs - rhs)
  | "*" => some (lhs * rhs)
  | _ => none

theorem toNat_lowByte (value : Int) : ((lowByte value).toNat : Int) = value % 256 := by
  rw [lowByte, UInt8.toNat_ofNat']
  omega

/-- The low byte of an integer is the byte that it stands for. -/
theorem lowByte_eq (value : Int) : lowByte value = UInt8.ofInt value := by
  rw [← UInt8.toBitVec_inj, lowByte, UInt8.toBitVec_ofNat', UInt8.ofInt]
  apply BitVec.eq_of_toNat_eq
  simp

theorem ofInt_emod (value : Int) : UInt8.ofInt (value % 256) = UInt8.ofInt value := by
  rw [← lowByte_eq, ← lowByte_eq, lowByte, lowByte, Int.emod_emod]

/-- Bytes are computed as integers are. -/
theorem operatorByte_ofInt {op : String} {lhs rhs value : Int} (h : operatorValue op lhs rhs = some value) :
    operatorByte op (UInt8.ofInt lhs) (UInt8.ofInt rhs) = some (UInt8.ofInt value) := by
  unfold operatorValue at h
  split at h <;> simp only [Option.some.injEq, reduceCtorEq] at h <;> subst h
  · exact congrArg some (UInt8.ofInt_add lhs rhs).symm
  · refine congrArg some ?_
    rw [Int.sub_eq_add_neg, UInt8.ofInt_add, UInt8.ofInt_neg, UInt8.sub_eq_add_neg]
  · exact congrArg some (UInt8.ofInt_mul lhs rhs).symm

/-- The byte of an expression.  Addresses and the arguments of intrinsics are exact. -/
def Expr.byte? (c : Context) (memory : Memory) : Expr → Option UInt8
  | .number value _ _ => some (UInt8.ofInt value)
  | .ident name _ _ _ => ((c.cell? name).map memory).or ((c.constant? name).map UInt8.ofInt)
  | .binop op lhs rhs _ _ => (lhs.byte? c memory).bind fun l => (rhs.byte? c memory).bind fun r =>
      operatorByte op l r
  | .neg operand _ _ => (operand.byte? c memory).map (-·)
  | .paren inner _ => inner.byte? c memory
  | .deref target _ _ => (target.value? c.constant?).map fun address => memory (.address address)
  | .call target args callee type span =>
    ((Expr.call target args callee type span).value? c.constant?).map UInt8.ofInt
  | .cell place _ _ _ => some (memory place)
  | .immediate value _ _ => some (UInt8.ofInt value)
  | .string _ _ _ | .member _ _ _ | .intrinsic _ _ _ | .returned _ _ => none

/-- The cell that an expression stands for. -/
def Expr.place? (c : Context) : Expr → Option Place
  | .ident name _ _ _ => c.cell? name
  | .deref target _ _ => (target.value? c.constant?).map .address
  | .cell place _ _ _ => some place
  | _ => none

/-! ## 3. Statements -/

/-- What the execution of a function comes to: the memory, and the byte that is returned, if one is. -/
structure Outcome where
  memory : Memory
  result : Option UInt8

/-- The outcome of statements.  A variable that is declared gets the next of the symbols, and is not known in
its own initial value. -/
def execute (c : Context) : List String → List Stmt → Memory → Option Outcome
  | _, [], memory => some ⟨memory, none⟩
  | symbol :: symbols, .decl d :: rest, memory => do
    let byte ← d.value.byte? c memory
    execute (c.declare d.name symbol) symbols rest (memory.set (.symbol symbol) byte)
  | symbols, .set lvalue rvalue _ _ :: rest, memory => do
    let place ← lvalue.place? c
    let byte ← rvalue.byte? c memory
    execute c symbols rest (memory.set place byte)
  | _, .ret none _ _ :: _, memory => some ⟨memory, none⟩
  | _, .ret (some e) _ _ :: _, memory => (e.byte? c memory).map fun byte => ⟨memory, some byte⟩
  | symbols, .expr e :: rest, memory => do
    let _ ← e.byte? c memory
    execute c symbols rest memory
  | _, _ :: _, _ => none

/-! ## 4. Units -/

/-- What the name of an item stands for. -/
def Item.meaning? (unit : String) : Item → Option (String × Meaning)
  | .constant name _ _ _ _ => some (name, .constant)
  | .global (.decl d) => some (d.name, .variable (unit ++ "." ++ d.name))
  | .function f => some (f.name, .function)
  | _ => none

/-- The values that are known behind the definition of a constant. -/
def Definition.extend (known : List (String × Int)) (c : Definition) : List (String × Int) :=
  match c.value.value? (known.lookup ·) with
  | some value => (c.name, value) :: known
  | none => known

/-- The names in the body of a function. -/
def Function.names (unit : String) (f : Function) (items : List Item) : List (String × Meaning) :=
  ((f.params.map Prod.fst).map fun x => (x.name, .variable (unit ++ "." ++ f.name ++ "." ++ x.name))) ++
    items.filterMap (Item.meaning? unit)

/-- Where the body of a function starts. -/
def Function.context (unit : String) (f : Function) (items : List Item) : Context :=
  ⟨f.names unit items, (Items.definitions items).foldl Definition.extend []⟩

/-! ## 5. Functions without calls -/

mutual

/-- The functions that an expression calls. -/
def Expr.callees : Expr → List String
  | .call target args _ _ _ => target.name?.toList ++ target.callees ++ args.callees
  | .member target _ _ | .deref target _ _ => target.callees
  | .binop _ lhs rhs _ _ => lhs.callees ++ rhs.callees
  | .neg operand _ _ => operand.callees
  | .paren inner _ => inner.callees
  | .number _ _ _ | .string _ _ _ | .ident _ _ _ _ | .intrinsic _ _ _ | .cell _ _ _ _ | .immediate _ _ _
  | .returned _ _ => []

/-- The functions that arguments call. -/
def Args.callees : Args → List String
  | .nil => []
  | .cons arg rest _ => arg.callees ++ rest.callees

end

mutual

/-- The constants that an expression dereferences. -/
def Expr.addresses (values : String → Option Int) : Expr → List Int
  | .deref target _ _ => (target.value? values).toList ++ target.addresses values
  | .call target args _ _ _ => target.addresses values ++ args.addresses values
  | .member target _ _ => target.addresses values
  | .binop _ lhs rhs _ _ => lhs.addresses values ++ rhs.addresses values
  | .neg operand _ _ => operand.addresses values
  | .paren inner _ => inner.addresses values
  | .number _ _ _ | .string _ _ _ | .ident _ _ _ _ | .intrinsic _ _ _ | .cell _ _ _ _ | .immediate _ _ _
  | .returned _ _ => []

/-- The constants that arguments dereference. -/
def Args.addresses (values : String → Option Int) : Args → List Int
  | .nil => []
  | .cons arg rest _ => arg.addresses values ++ rest.addresses values

end

mutual

/-- What an expression dereferences. -/
def Expr.targets : Expr → List Expr
  | .deref target _ _ => target :: target.targets
  | .call target args _ _ _ => target.targets ++ args.targets
  | .member target _ _ => target.targets
  | .binop _ lhs rhs _ _ => lhs.targets ++ rhs.targets
  | .neg operand _ _ => operand.targets
  | .paren inner _ => inner.targets
  | .number _ _ _ | .string _ _ _ | .ident _ _ _ _ | .intrinsic _ _ _ | .cell _ _ _ _ | .immediate _ _ _
  | .returned _ _ => []

/-- What arguments dereference. -/
def Args.targets : Args → List Expr
  | .nil => []
  | .cons arg rest _ => arg.targets ++ rest.targets

end

theorem filterMap_cons_toList {α β : Type} (f : α → Option β) (a : α) (as : List α) :
    (a :: as).filterMap f = (f a).toList ++ as.filterMap f := by
  rw [List.filterMap_cons]
  cases f a <;> rfl

mutual

/-- The constants that are dereferenced are the values of what is. -/
theorem Expr.addresses_eq (values : String → Option Int) : ∀ e : Expr,
    e.addresses values = e.targets.filterMap (·.value? values)
  | .deref target _ _ => by
    rw [Expr.addresses, Expr.targets, filterMap_cons_toList, Expr.addresses_eq values target]
  | .call target args _ _ _ => by
    rw [Expr.addresses, Expr.targets, List.filterMap_append, Expr.addresses_eq values target,
      Args.addresses_eq values args]
  | .member target _ _ => Expr.addresses_eq values target
  | .binop _ lhs rhs _ _ => by
    rw [Expr.addresses, Expr.targets, List.filterMap_append, Expr.addresses_eq values lhs,
      Expr.addresses_eq values rhs]
  | .neg operand _ _ => Expr.addresses_eq values operand
  | .paren inner _ => Expr.addresses_eq values inner
  | .number _ _ _ | .string _ _ _ | .ident _ _ _ _ | .intrinsic _ _ _ | .cell _ _ _ _ | .immediate _ _ _
  | .returned _ _ => rfl

/-- The constants that are dereferenced in arguments are the values of what is. -/
theorem Args.addresses_eq (values : String → Option Int) : ∀ args : Args,
    args.addresses values = args.targets.filterMap (·.value? values)
  | .nil => rfl
  | .cons arg rest _ => by
    rw [Args.addresses, Args.targets, List.filterMap_append, Expr.addresses_eq values arg,
      Args.addresses_eq values rest]

end

theorem Expr.targets_of_name {e : Expr} {name : String} (h : e.name? = some name) : e.targets = [] := by
  cases e with
  | ident _ _ _ _ => rfl
  | _ => cases h

theorem Expr.targets_of_member {e : Expr} {m : IntrinsicUnit × String} (h : e.member? = some m) :
    e.targets = [] := by
  cases e with
  | member target name _ =>
    obtain ⟨_, hname, -⟩ := Option.bind_eq_some_iff.mp h
    exact Expr.targets_of_name (e := target) hname
  | intrinsic _ _ _ => rfl
  | _ => cases h

mutual

/-- An expression that has a value dereferences nothing. -/
theorem Expr.targets_of_value {values : String → Option Int} : ∀ {e : Expr} {v : Int},
    e.value? values = some v → e.targets = []
  | .number _ _ _, _, _ | .ident _ _ _ _, _, _ => rfl
  | .binop op lhs rhs _ _, _, h => by
    obtain ⟨l, hl, h⟩ := Option.bind_eq_some_iff.mp h
    obtain ⟨r, hr, -⟩ := Option.bind_eq_some_iff.mp h
    rw [Expr.targets, Expr.targets_of_value hl, Expr.targets_of_value hr, List.append_nil]
  | .neg operand _ _, _, h => by
    obtain ⟨o, ho, -⟩ := Option.map_eq_some_iff.mp h
    exact Expr.targets_of_value (e := operand) ho
  | .paren inner _, _, h => Expr.targets_of_value (e := inner) h
  | .call target args _ _ _, _, h => by
    obtain ⟨m, hm, h⟩ := Option.bind_eq_some_iff.mp h
    obtain ⟨w, hw, -⟩ := Option.bind_eq_some_iff.mp h
    rw [Expr.targets, Expr.targets_of_member hm, Args.targets_of_word hw, List.append_nil]

theorem Args.targets_of_word {values : String → Option Int} : ∀ {args : Args} {v : Int},
    args.word? values = some v → args.targets = []
  | .cons arg .nil _, _, h => by
    rw [Args.targets, Args.targets, Expr.targets_of_value (e := arg) h, List.append_nil]

end

/-- A number is the address of a memory cell. -/
def IsAddress (address : Int) : Prop := 0 ≤ address ∧ address ≤ 0xffff

/-- The constants that an expression dereferences are addresses. -/
def Expr.AddressesFit (values : String → Option Int) (e : Expr) : Prop :=
  ∀ address ∈ e.addresses values, IsAddress address

/-- The constants that statements dereference are addresses.  The variables that they declare hide constants. -/
def AddressesFit (values : String → Option Int) : List Stmt → Prop
  | [] => True
  | .decl d :: rest =>
    d.value.AddressesFit values ∧ Program.AddressesFit (Function.update values d.name none) rest
  | s :: rest => (∀ e ∈ s.exprs, e.AddressesFit values) ∧ Program.AddressesFit values rest

/-- The body of a function calls no functions. -/
def Function.CallFree (f : Function) : Prop := ∀ s ∈ f.body.toList, ∀ e ∈ s.parts, e.callees = []

end Lode.Program
