/-
# Stores

Which symbols are stored to, and in which order.  A declaration and an assignment store to the variable they
are about, behind the parameters that the calls in them store to.  None of the passes after the binding of
names adds a store, drops one or moves it: what a statement stores is what the statements in its place
store, up to the instructions in the code.

The list of stores is defined at every level, for an expression and the calls in it (`Expr.stored`), for a
statement (`Stmt.stores`) and for code, where it is read off the holes and the opcodes in front of them
(`MachineCode.stores`).  A pass that rewrites expressions keeps the list of every node, which is checked for
one node at a time and lifted (`Steady.Rewritten.keepsStores`).  The passes that change statements replace
one by several, and the lists of these add up to the list of the one, so nothing needs to be known of where
a statement stands.

Beside the list the target of an assignment is followed (`Expr.target?`): the variable that is named on its
left, which was checked to be mutable when types were computed (`setsMutable`) and is the same one behind
every later pass.  The two together say which variables code can store to.
-/
import Lode.Proofs.Pass.Allocation
import Lode.Proofs.Pass.Expressions
import Lode.Proofs.Pass.Flattening

namespace Lode

/-! ## 1. Instructions -/

/-- The symbol that an instruction stores to. -/
def Machine.Instruction.stored? (i : Instruction) : Option String :=
  match i.operand with
  | .symbol name _ => if Opcodes.sta.forForm i.operand.form = some i.opcode then some name else none
  | _ => none

/-- The form of an operand with a hole. -/
def RelocationKind.form : RelocationKind → Machine.OperandForm
  | zeroPage8 => .zeroPage
  | absolute16 => .absolute

namespace MachineCode

/-- Whether the instruction of a hole stores: its opcode is the byte in front of the hole. -/
def isStore (c : MachineCode) (r : Relocation) : Bool :=
  Opcodes.sta.forForm r.kind.form == some (c.bytes.getD (r.offset - 1) 0)

/-- The symbols that code stores to, in order. -/
def stores (c : MachineCode) : List String := (c.relocations.filter c.isStore).map (·.symbol)

/-- Code behind an instruction stores where it did. -/
theorem stores_append (i : Machine.Instruction) {c : MachineCode} (h : ∀ r ∈ c.relocations, 0 < r.offset) :
    (i.code.append c).stores = i.stored?.toList ++ c.stores := by
  have hbehind : ∀ r ∈ c.relocations, (i.code.append c).isStore (r.shifted i.code.bytes.length) = c.isStore r := by
    intro r hr
    have hoffset : (r.shifted i.code.bytes.length).offset - 1 = i.code.bytes.length + (r.offset - 1) := by
      have := h r hr
      simp only [Relocation.shifted]
      omega
    rw [isStore, isStore, hoffset, append, List.getD_eq_getElem?_getD, List.getD_eq_getElem?_getD,
      List.getElem?_append_right (Nat.le_add_right _ _), Nat.add_sub_cancel_left]
    rfl
  have hfront : (i.code.relocations.filter (i.code.append c).isStore).map (·.symbol) = i.stored?.toList := by
    cases hoperand : i.operand with
    | symbol name low =>
      have hform : (Machine.Operand.kind low).form = (Machine.Operand.symbol name low).form := by
        cases low <;> rfl
      by_cases hsta : Opcodes.sta.forForm (Machine.Operand.symbol name low).form = some i.opcode <;>
        simp [Machine.Instruction.code, Machine.Instruction.stored?, Machine.Operand.hole?, hoperand,
          isStore, append, hform, hsta]
    | _ => simp [Machine.Instruction.code, Machine.Instruction.stored?, Machine.Operand.hole?, hoperand]
  have hback : (c.relocations.map (·.shifted i.code.bytes.length)).filter (i.code.append c).isStore =
      (c.relocations.filter c.isStore).map (·.shifted i.code.bytes.length) := by
    rw [List.filter_map]
    exact congrArg _ (List.filter_congr hbehind)
  rw [stores, append, List.filter_append, List.map_append]
  change List.map _ (List.filter (i.code.append c).isStore _) ++
    List.map _ (List.filter (i.code.append c).isStore _) = _
  rw [hfront, hback, List.map_map]
  rfl

end MachineCode

/-- **The stores of code** are those of its instructions. -/
theorem Machine.Instruction.stores_codeOf : ∀ instructions : List Instruction,
    (codeOf instructions).stores = instructions.filterMap stored?
  | [] => rfl
  | i :: rest => by
    rw [codeOf, MachineCode.stores_append i, stores_codeOf rest, List.filterMap_cons]
    · cases i.stored? <;> rfl
    · intro r hr
      obtain ⟨front, _, _, -, hoffset, -⟩ := relocation_covers hr
      omega

namespace Program

/-! ## 2. Expressions -/

/-- The function that an expression names. -/
def Expr.function? : Expr → Option Binding
  | .ident _ (some b) _ _ => if b.declaration.kind = .function then some b else none
  | _ => none

/-- The variable that an expression is, or that it names. -/
def Expr.variableSymbol? : Expr → Option String
  | .ident _ (some b) _ _ => if ResolveStorage.isVariable b then some b.declaration.symbol else none
  | .cell (.symbol name) _ _ _ => some name
  | _ => none

mutual

/-- The parameters that the calls in an expression store to, in order. -/
def Expr.stored : Expr → List String
  | .call target args _ _ _ =>
    match target.function? with
    | some b => args.stored b.parameters
    | none => []
  | .member target _ _ | .deref target _ _ => target.stored
  | .binop _ lhs rhs _ _ => lhs.stored ++ rhs.stored
  | .neg operand _ _ => operand.stored
  | .paren inner _ => inner.stored
  | .number _ _ _ | .string _ _ _ | .ident _ _ _ _ | .intrinsic _ _ _ | .cell _ _ _ _
  | .immediate _ _ _ | .returned _ _ => []

/-- What arguments for parameters store: each to its parameter, behind the calls in it. -/
def Args.stored : Args → List (String × Ty) → List String
  | .cons arg rest _, param :: params => arg.stored ++ param.1 :: rest.stored params
  | _, _ => []

end

mutual

/-- Calls store to parameters of the functions that are named. -/
theorem Expr.exists_of_stored {symbol : String} : ∀ {e : Expr}, symbol ∈ e.stored →
    ∃ b ∈ e.bindings, b.declaration.kind = .function ∧ symbol ∈ b.parameters.map (·.1)
  | .call target args callee type span, h => by
    rw [Expr.stored] at h
    split at h
    · rename_i b hb
      rcases Args.exists_of_stored h with hparam | ⟨b', hb', hrest⟩
      · cases target with
        | ident _ binding _ _ =>
          cases binding with
          | none => cases hb
          | some b' =>
            rw [Expr.function?] at hb
            split at hb
            · obtain rfl := Option.some.inj hb
              exact ⟨b', List.mem_append_left _ (List.mem_singleton_self b'), ‹_›, hparam⟩
            · cases hb
        | _ => cases hb
      · exact ⟨b', List.mem_append_right _ hb', hrest⟩
    · cases h
  | .member target _ _, h => Expr.exists_of_stored (e := target) h
  | .deref target _ _, h => Expr.exists_of_stored (e := target) h
  | .neg operand _ _, h => Expr.exists_of_stored (e := operand) h
  | .paren inner _, h => Expr.exists_of_stored (e := inner) h
  | .binop _ lhs rhs _ _, h => by
    rcases List.mem_append.mp h with h | h
    · obtain ⟨b, hb, hrest⟩ := Expr.exists_of_stored h
      exact ⟨b, List.mem_append_left _ hb, hrest⟩
    · obtain ⟨b, hb, hrest⟩ := Expr.exists_of_stored h
      exact ⟨b, List.mem_append_right _ hb, hrest⟩
  | .number _ _ _, h | .string _ _ _, h | .ident _ _ _ _, h | .intrinsic _ _ _, h | .cell _ _ _ _, h
  | .immediate _ _ _, h | .returned _ _, h => by cases h

/-- What arguments store is stored to their own parameters, or by a call among them. -/
theorem Args.exists_of_stored {symbol : String} : ∀ {args : Args} {params : List (String × Ty)},
    symbol ∈ args.stored params → symbol ∈ params.map (·.1) ∨
      ∃ b ∈ args.bindings, b.declaration.kind = .function ∧ symbol ∈ b.parameters.map (·.1)
  | .nil, _, h => by cases h
  | .cons _ _ _, [], h => by cases h
  | .cons arg rest _, param :: params, h => by
    rcases List.mem_append.mp h with h | h
    · obtain ⟨b, hb, hrest⟩ := Expr.exists_of_stored h
      exact .inr ⟨b, List.mem_append_left _ hb, hrest⟩
    rcases List.mem_cons.mp h with rfl | h
    · exact .inl List.mem_cons_self
    rcases Args.exists_of_stored h with hparam | ⟨b, hb, hrest⟩
    · exact .inl (List.mem_cons_of_mem _ hparam)
    · exact .inr ⟨b, List.mem_append_right _ hb, hrest⟩

end

/-- An expression that stores the same and names the same. -/
structure Expr.KeepsStores (e e' : Expr) : Prop where
  stored : e'.stored = e.stored
  function : e'.function? = e.function?
  named : e'.variableSymbol? = e.variableSymbol?

theorem Expr.KeepsStores.refl (e : Expr) : e.KeepsStores e := ⟨rfl, rfl, rfl⟩

theorem Expr.KeepsStores.trans {e e' e'' : Expr} (h : e.KeepsStores e') (h' : e'.KeepsStores e'') :
    e.KeepsStores e'' :=
  ⟨h'.stored.trans h.stored, h'.function.trans h.function, h'.named.trans h.named⟩

/-- Arguments that store the same one by one store the same. -/
theorem Args.Alike.stored {args args' : Args} (h : args.Alike Expr.KeepsStores args') :
    ∀ params : List (String × Ty), args'.stored params = args.stored params := by
  induction h with
  | nil => exact fun _ => rfl
  | cons harg _ ih =>
    intro params
    cases params with
    | nil => rfl
    | cons param params => rw [Args.stored, Args.stored, harg.stored, ih]

/-- An expression of the same form, with parts that store the same, stores the same. -/
theorem Expr.Alike.keepsStores {e e' : Expr} (h : e.Alike Expr.KeepsStores e') : e.KeepsStores e' := by
  cases h with
  | leaf _ => exact .refl _
  | member h | neg h | deref h | paren h => exact ⟨h.stored, rfl, rfl⟩
  | binop hl hr => exact ⟨by rw [Expr.stored, Expr.stored, hl.stored, hr.stored], rfl, rfl⟩
  | call ht hargs =>
    refine ⟨?_, rfl, rfl⟩
    rw [Expr.stored, Expr.stored, ht.function]
    split
    · exact hargs.stored _
    · rfl

/-- A rewriting that keeps the stores of one node keeps those of an expression. -/
theorem Steady.Rewritten.keepsStores {σ : Type} {expr : σ → Expr → Except Error Expr}
    (h : ∀ {s : σ} {e e' : Expr}, expr s e = .ok e' → e.KeepsStores e') {e e' : Expr}
    (hrewritten : Rewritten expr e e') : e.KeepsStores e' := by
  obtain ⟨s, hs⟩ := hrewritten
  exact Expr.mapUp_rel (fun halike hstep => halike.keepsStores.trans (h hstep)) hs

end Program

open Program

/-- An intrinsic is no function that is named. -/
theorem ResolveUnits.resolve_keepsStores {s : Nested Unit} {e e' : Expr} (h : resolve s e = .ok e') :
    e.KeepsStores e' := by
  unfold resolve at h
  split at h
  · rename_i target name span
    split at h
    · exact Except.ok.inj h ▸ .refl _
    · rename_i u hu
      split at h
      · cases h
      · obtain rfl := Except.ok.inj h
        refine ⟨?_, rfl, rfl⟩
        cases target with
        | ident _ _ _ _ => rfl
        | _ => cases hu
  · exact Except.ok.inj h ▸ .refl _

theorem EvaluateConstants.evaluateCall_keepsStores {s : Nested Unit} {e e' : Expr}
    (h : evaluateCall s e = .ok e') : e.KeepsStores e' := by
  unfold evaluateCall at h
  split at h
  · split at h
    · cases h
    · obtain ⟨numbers, -, h⟩ := bind_eq_ok.mp h
      obtain ⟨n, -, rfl⟩ := map_eq_ok.mp h
      exact ⟨rfl, rfl, rfl⟩
  · exact Except.ok.inj h ▸ .refl _

/-- A constant is no variable. -/
theorem ResolveConstants.resolve_keepsStores {s : Nested Unit} {e e' : Expr} (h : resolve s e = .ok e') :
    e.KeepsStores e' := by
  unfold resolve at h
  split at h
  · rename_i name b type span
    split at h
    · rename_i hkind
      split at h
      · obtain rfl := Except.ok.inj h
        exact ⟨rfl, by simp [Expr.function?, hkind],
          by simp [Expr.variableSymbol?, ResolveStorage.isVariable, hkind]⟩
      · cases h
    · exact Except.ok.inj h ▸ .refl _
  · exact Except.ok.inj h ▸ .refl _

/-- Literals do not store. -/
theorem FoldArithmetic.fold_keepsStores {e e' : Expr} (h : fold e = .ok e') : e.KeepsStores e' := by
  unfold fold at h
  split at h
  · obtain ⟨value, -, rfl⟩ := map_eq_ok.mp h
    exact ⟨rfl, rfl, rfl⟩
  · obtain ⟨value, -, rfl⟩ := map_eq_ok.mp h
    exact ⟨rfl, rfl, rfl⟩
  · exact Except.ok.inj h ▸ .refl _

/-- Typing a call does not change which function it calls. -/
theorem PropagateTypes.typeExpr_keepsStores {e e' : Expr} (h : typeExpr e = .ok e') :
    e.KeepsStores e' := by
  cases e with
  | ident name binding type span =>
    cases binding with
    | none => cases h
    | some b => exact Except.ok.inj h ▸ ⟨rfl, rfl, rfl⟩
  | call target args callee type span =>
    obtain ⟨_, _, rfl⟩ := map_eq_ok.mp h
    exact ⟨rfl, rfl, rfl⟩
  | binop op lhs rhs type span | neg operand type span | deref target type span =>
    obtain ⟨_, _, rfl⟩ := map_eq_ok.mp h
    exact ⟨rfl, rfl, rfl⟩
  | member _ _ _ | intrinsic _ _ _ => cases h
  | number _ _ _ | string _ _ _ => exact Except.ok.inj h ▸ ⟨rfl, rfl, rfl⟩
  | _ => exact Except.ok.inj h ▸ .refl _

/-- An address that is known is not the result of a call. -/
theorem ResolveStorage.stored_of_constantAddress {e : Expr} {address : Int}
    (h : constantAddress? e.node = some address) : e.stored = [] := by
  cases e with
  | number _ _ _ | immediate _ _ _ => rfl
  | cell place _ _ _ => cases place <;> rfl
  | _ => cases h

/-- A cell is the variable that was named. -/
theorem ResolveStorage.place_keepsStores {s : Nested Nat} {e e' : Expr} (h : place s e = .ok e') :
    e.KeepsStores e' := by
  unfold place at h
  split at h
  · rename_i name b type span
    split at h
    · exact Except.ok.inj h ▸ .refl _
    · rename_i hvariable
      obtain ⟨t, -, rfl⟩ := map_eq_ok.mp h
      have hvariable : isVariable b = true := by simp_all
      refine ⟨rfl, ?_, by simp [Expr.variableSymbol?, hvariable]⟩
      rw [Expr.function?, if_neg]
      · rfl
      · intro hkind
        rw [isVariable_of_function hkind] at hvariable
        cases hvariable
  · split at h
    · exact Except.ok.inj h ▸ .refl _
    · obtain ⟨t, -, rfl⟩ := map_eq_ok.mp h
      exact ⟨rfl, rfl, rfl⟩
  · split at h
    · rename_i address haddress
      obtain ⟨t, -, rfl⟩ := map_eq_ok.mp h
      exact ⟨(stored_of_constantAddress haddress).symm, rfl, rfl⟩
    · cases h
  · exact Except.ok.inj h ▸ .refl _

/-! ## 3. Targets -/

namespace Program

/-- What the variable that an expression names is bound to. -/
def Expr.target? : Expr → Option Binding
  | .ident _ (some b) _ _ => if ResolveStorage.isVariable b then some b else none
  | _ => none

/-- An expression that names the same variable, if any. -/
def Expr.KeepsTarget (e e' : Expr) : Prop := e'.target? = e.target?

theorem Expr.Alike.target? {Rel : Expr → Expr → Prop} {e e' : Expr} (h : e.Alike Rel e') :
    e'.target? = e.target? := by
  cases h <;> rfl

/-- A rewriting that keeps the variable that one node names keeps that of an expression. -/
theorem Steady.Rewritten.keepsTarget {σ : Type} {expr : σ → Expr → Except Error Expr}
    (h : ∀ {s : σ} {e e' : Expr}, expr s e = .ok e' → e.KeepsTarget e') {e e' : Expr}
    (hrewritten : Rewritten expr e e') : e.KeepsTarget e' := by
  obtain ⟨s, hs⟩ := hrewritten
  have hstep : ∀ {e e' e'' : Expr}, e.Alike Expr.KeepsTarget e' → expr s e' = .ok e'' → e.KeepsTarget e'' :=
    fun halike hstep => (h hstep).trans halike.target?
  exact Expr.mapUp_rel hstep hs

/-- The target of an assignment is a variable that is named in it. -/
theorem Expr.mem_of_target? {e : Expr} {b : Binding} (h : e.target? = some b) :
    b ∈ e.bindings ∧ ResolveStorage.isVariable b = true := by
  cases e with
  | ident _ binding _ _ =>
    cases binding with
    | none => cases h
    | some b' =>
      rw [Expr.target?] at h
      split at h
      · rename_i hvariable
        obtain rfl := Option.some.inj h
        exact ⟨List.mem_singleton_self b', hvariable⟩
      · cases h
  | _ => cases h

/-- The variable that an expression names, unless it is a cell. -/
theorem Expr.variableSymbol?_eq {e : Expr} {name : String} (h : e.variableSymbol? = some name) :
    (∃ b, e.target? = some b ∧ b.declaration.symbol = name) ∨
      ∃ zeroPage type span, e = .cell (.symbol name) zeroPage type span := by
  cases e with
  | ident _ binding _ _ =>
    cases binding with
    | none => cases h
    | some b =>
      rw [Expr.variableSymbol?] at h
      split at h
      · rename_i hvariable
        exact .inl ⟨b, if_pos hvariable, Option.some.inj h⟩
      · cases h
  | cell place zeroPage type span =>
    cases place with
    | symbol name' =>
      obtain rfl := Option.some.inj h
      exact .inr ⟨zeroPage, type, span, rfl⟩
    | address _ => cases h
  | _ => cases h

end Program

/-- Resolving units. -/
theorem ResolveUnits.resolve_keepsTarget {s : Nested Unit} {e e' : Expr} (h : resolve s e = .ok e') :
    e.KeepsTarget e' := by
  unfold resolve at h
  split at h
  · split at h
    · exact Except.ok.inj h ▸ rfl
    · split at h
      · cases h
      · exact Except.ok.inj h ▸ rfl
  · exact Except.ok.inj h ▸ rfl

theorem EvaluateConstants.evaluateCall_keepsTarget {s : Nested Unit} {e e' : Expr}
    (h : evaluateCall s e = .ok e') : e.KeepsTarget e' := by
  unfold evaluateCall at h
  split at h
  · split at h
    · cases h
    · obtain ⟨numbers, -, h⟩ := bind_eq_ok.mp h
      obtain ⟨n, -, rfl⟩ := map_eq_ok.mp h
      rfl
  · exact Except.ok.inj h ▸ rfl

theorem ResolveConstants.resolve_keepsTarget {s : Nested Unit} {e e' : Expr} (h : resolve s e = .ok e') :
    e.KeepsTarget e' := by
  unfold resolve at h
  split at h
  · split at h
    · rename_i hkind
      split at h
      · obtain rfl := Except.ok.inj h
        simp [Expr.KeepsTarget, Expr.target?, ResolveStorage.isVariable, hkind]
      · cases h
    · exact Except.ok.inj h ▸ rfl
  · exact Except.ok.inj h ▸ rfl

theorem FoldArithmetic.fold_keepsTarget {e e' : Expr} (h : fold e = .ok e') : e.KeepsTarget e' := by
  unfold fold at h
  split at h
  · obtain ⟨value, -, rfl⟩ := map_eq_ok.mp h
    rfl
  · obtain ⟨value, -, rfl⟩ := map_eq_ok.mp h
    rfl
  · exact Except.ok.inj h ▸ rfl

namespace PropagateTypes

theorem typeExpr_keepsTarget {e e' : Expr} (h : typeExpr e = .ok e') : e.KeepsTarget e' := by
  cases e with
  | ident name binding type span =>
    cases binding with
    | none => cases h
    | some b => exact Except.ok.inj h ▸ rfl
  | call _ _ _ _ _ | binop _ _ _ _ _ | neg _ _ _ | deref _ _ _ =>
    obtain ⟨_, _, rfl⟩ := map_eq_ok.mp h
    rfl
  | member _ _ _ | intrinsic _ _ _ => cases h
  | _ => exact Except.ok.inj h ▸ rfl

/-- What may be assigned is mutable. -/
theorem mutable_of_target? {lvalue : Expr} {u : Unit} (h : checkMutable lvalue.node = .ok u) {b : Binding}
    (hb : lvalue.target? = some b) : b.declaration.mutable = true := by
  cases lvalue with
  | ident name binding type span =>
    cases binding with
    | none => cases hb
    | some b' =>
      rw [Expr.target?] at hb
      split at hb
      · obtain rfl := Option.some.inj hb
        have hbinding : (Expr.ident name (some b') type span).node.node? "binding" = some b'.node := by
          cases type <;> rfl
        have hmutable : b'.node.bool? "mutable" = some b'.declaration.mutable := rfl
        simp only [checkMutable, hbinding, hmutable] at h
        split at h
        · rename_i htrue
          simpa using htrue
        · cases h
      · cases hb
  | _ => cases hb

/-- If a statement assigns a variable, that is mutable. -/
def SetsMutable (s : Stmt) : Prop :=
  match s with
  | .set lvalue _ _ _ => ∀ b, lvalue.target? = some b → b.declaration.mutable = true
  | _ => True

/-- **Assignments are checked.** -/
theorem setsMutable {p p' : Program} (hsource : p.IsSource)
    (hrun : ((p.mapUp visitor).outcome ⟨[], []⟩).1 = .ok p') :
    ∀ f ∈ p'.functions, ∀ s ∈ f.body.leaves, SetsMutable s := by
  obtain ⟨items, s1, hitems, rfl⟩ := Visitor.scoped_program rfl rfl
    (Prod.ext hrun rfl : (p.mapUp visitor).outcome ⟨[], []⟩ = (.ok p', _))
  refine steady.leaves_items keeps ⟨fun _ => trivial, fun _ => trivial, fun h => ?_, fun h => ?_⟩
    keepsFunctions rfl hsource hitems
  · obtain ⟨type, htype, rfl⟩ := map_eq_ok.mp h
    obtain ⟨_, hmutable, -⟩ := bind_eq_ok.mp htype
    exact fun b hb => mutable_of_target? hmutable hb
  · obtain ⟨type, rfl⟩ := keeps.ret h
    trivial

end PropagateTypes

/-! ## 4. Statements -/

namespace Program

/-- The symbols that a statement stores to, in order: the parameters of its calls, and what it declares
or assigns. -/
def Stmt.stores : Stmt → List String
  | .decl d => d.value.stored ++ d.symbol.toList
  | .set lvalue rvalue _ _ => rvalue.stored ++ lvalue.variableSymbol?.toList
  | .ret (some value) _ _ => value.stored
  | .expr e => e.stored
  | .store operand _ _ => operand.variableSymbol?.toList
  | .code c _ => c.stores
  | _ => []

/-- Statements of one form, with expressions that store the same, store the same. -/
theorem Stmt.Alike.stores {s s' : Stmt} (h : s.Alike Expr.KeepsStores s') : s'.stores = s.stores := by
  cases h with
  | decl hv hsame => rw [Stmt.stores, Stmt.stores, hv.stored, hsame.symbol]
  | set hl hr => rw [Stmt.stores, Stmt.stores, hl.named, hr.stored]
  | ret hv =>
    cases hv with
    | none => rfl
    | some hv => exact hv.stored
  | expr he => exact he.stored
  | scope _ _ => rfl

end Program

/-- Allocating a variable keeps the store of its declaration. -/
theorem AllocateLocals.Assigned.stores {s s' : Stmt} (h : Assigned s s') : s'.stores = s.stores := by
  cases h with
  | decl hvariable _ =>
    rw [Stmt.stores, Stmt.stores, Let.symbol_of_toVariable? hvariable]
    rfl
  | other _ => rfl

namespace LowerCalls

mutual

/-- **A call stores** what the statements in its place store. -/
theorem callStmts_stores : ∀ {e : Expr}, e.CallsChecked →
    e.callStmts.flatMap Stmt.stores ++ e.outcome.stored = e.stored
  | .call target args callee type span, h => by
    obtain ⟨hcall, hargs⟩ := h
    cases hcall with
    | @intro name b own place result params _ hkind _ _ =>
      have hfunction : (Expr.ident name (some b) own place).function? = some b := by
        rw [Expr.function?, if_pos hkind]
      rw [Expr.callStmts, List.flatMap_append, passStmts_stores b.parameters hargs, Expr.stored, hfunction]
      exact (List.append_nil _).trans (List.append_nil _)
  | .number _ _ _, _ | .string _ _ _, _ | .ident _ _ _ _, _ | .member _ _ _, _ | .intrinsic _ _ _, _
  | .binop _ _ _ _ _, _ | .neg _ _ _, _ | .deref _ _ _, _ | .paren _ _, _ | .cell _ _ _ _, _
  | .immediate _ _ _, _ | .returned _ _, _ => rfl

/-- The statements that pass arguments store what the arguments store, parameters included. -/
theorem passStmts_stores : ∀ {args : Args} (params : List (String × Ty)), args.CallsChecked →
    (args.passStmts params).flatMap Stmt.stores = args.stored params
  | .nil, _, _ => rfl
  | .cons _ _ _, [], _ => rfl
  | .cons arg rest _, param :: params, h => by
    have hset : (passed arg param).stores = arg.outcome.stored ++ [param.1] := rfl
    rw [Args.passStmts, List.flatMap_append, List.flatMap_cons, hset, passStmts_stores params h.2,
      Args.stored, ← callStmts_stores h.1]
    simp only [List.append_assoc, List.singleton_append]

end

/-- The statements in place of one store what it stores. -/
theorem calls_stores {s : Stmt} (h : ∀ e ∈ s.parts, e.CallsChecked) :
    s.calls.flatMap Stmt.stores = s.stores := by
  cases s with
  | expr e =>
    have he := callStmts_stores (h e (List.mem_singleton_self e))
    cases e with
    | call target args callee type span =>
      cases (h _ (List.mem_singleton_self _)).1 with
      | intro _ _ _ => exact (List.append_nil _).symm.trans he
    | _ => exact List.append_nil _
  | set lvalue rvalue type span =>
    have hr := callStmts_stores (h rvalue (by simp [Stmt.parts, Stmt.exprs]))
    rw [Stmt.calls, List.flatMap_append, List.flatMap_singleton, Stmt.stores, Stmt.stores, ← hr,
      List.append_assoc]
  | ret value type span =>
    cases value with
    | none => rfl
    | some e =>
      have he := callStmts_stores (h e (by simp [Stmt.parts, Stmt.exprs]))
      rw [Stmt.calls, List.flatMap_append, List.flatMap_singleton, Stmt.stores, Stmt.stores, ← he]
  | _ => exact List.append_nil _

/-- **Lowering calls** keeps the stores of a body. -/
theorem Called.stores {body body' : Stmts} (h : Called body body')
    (hchecked : ∀ s ∈ body.toList, ∀ e ∈ s.parts, e.CallsChecked) :
    body'.toList.flatMap Stmt.stores = body.toList.flatMap Stmt.stores :=
  Expanded.flatMap_eq (P := fun s => ∀ e ∈ s.parts, e.CallsChecked)
    (fun hstep hs => by rw [hstep.1, calls_stores hs]) h hchecked

end LowerCalls

/-! ## 5. Code -/

theorem stored_of_isOperand {e : Expr} (h : isOperand e.node = true) : e.stored = [] := by
  cases e with
  | cell place _ _ _ => cases place <;> rfl
  | number _ _ _ | immediate _ _ _ => rfl
  | _ => cases h

/-- What is loaded does not store, and is no call that would. -/
theorem Loads.stores {width : Nat} {e : Expr} {stmts : List Stmt} (h : Loads width e stmts) :
    stmts.flatMap Stmt.stores = [] ∧ e.stored = [] := by
  induction h with
  | operand hoperand _ => exact ⟨rfl, stored_of_isOperand hoperand⟩
  | returned => exact ⟨rfl, rfl⟩
  | binop _ hoperand _ _ ih =>
    rw [List.flatMap_append, ih.1, Expr.stored, ih.2, stored_of_isOperand hoperand]
    exact ⟨rfl, rfl⟩

/-- **Lowering an assignment** keeps its store. -/
theorem LowerAssignment.step_stores {s : Stmt} {front : List Stmt} (h : Step s front) :
    front.flatMap Stmt.stores = s.stores := by
  cases lowers h with
  | set _ hloads =>
    obtain ⟨hfront, hstored⟩ := hloads.stores
    rw [List.flatMap_append, hfront, List.flatMap_singleton, Stmt.stores, Stmt.stores, hstored]
  | other _ => exact List.append_nil _

/-- **Lowering a return** adds no store. -/
theorem LowerFunctions.step_stores {s : Stmt} {front : List Stmt} (h : Step s front) :
    front.flatMap Stmt.stores = s.stores := by
  cases lowers h with
  | ret => rfl
  | value hloads =>
    obtain ⟨hfront, hstored⟩ := hloads.stores
    rw [List.flatMap_append, hfront, Stmt.stores, hstored]
    rfl
  | other _ => exact List.append_nil _

/-- A return at the end does not store. -/
theorem LowerFunctions.closed_stores (span : Span) (stmts : List Stmt) :
    (closed span stmts).flatMap Stmt.stores = stmts.flatMap Stmt.stores := by
  rw [closed]
  split
  · rfl
  · rw [List.flatMap_append]
    exact List.append_nil _

/-- Instructions of an operation that does not store. -/
theorem Assemble.Uses.stored_none {opcodes : Opcodes} {e : Expr} {i : Machine.Instruction}
    (h : Uses opcodes e i) (hother : ∀ form, opcodes.forForm form ≠ Opcodes.sta.forForm form ∨
      Opcodes.sta.forForm form = none) : i.stored? = none := by
  rw [Machine.Instruction.stored?]
  split
  · refine if_neg fun hsta => ?_
    rcases hother i.operand.form with hne | hnone
    · exact hne (h.opcode.trans hsta.symm)
    · rw [hnone] at hsta
      cases hsta
  · rfl

/-- The instruction that stores to a cell. -/
theorem Assemble.Uses.stored_eq {e : Expr} {i : Machine.Instruction} (h : Uses .sta e i) :
    i.stored?.toList = e.variableSymbol?.toList := by
  have hopcode := h.opcode
  have hoperand := h.operand
  cases e with
  | cell place zeroPage type span =>
    cases place with
    | symbol name =>
      obtain hoperand := Option.some.inj hoperand
      rw [Machine.Instruction.stored?, ← hoperand]
      rw [← hoperand] at hopcode
      simp [hopcode, Expr.variableSymbol?]
    | address address =>
      cases zeroPage <;>
      · obtain hoperand := Option.some.inj hoperand
        rw [Machine.Instruction.stored?, ← hoperand]
        rfl
  | immediate value type span =>
    obtain hoperand := Option.some.inj hoperand
    rw [Machine.Instruction.stored?, ← hoperand]
    rfl
  | _ => cases hoperand

/-- **Assembling a statement** keeps its store. -/
theorem Assemble.step_stores {s : Stmt} {front : List Stmt}
    (h : Expands.Step assemble (fun _ => .ok none) s front) : front.flatMap Stmt.stores = s.stores := by
  obtain ⟨s', hs', hfront⟩ := bind_eq_ok.mp h
  obtain rfl := Except.ok.inj hfront
  refine (List.append_nil _).trans ?_
  rcases assemble_ok hs' with ⟨instructions, span, hassembles, rfl⟩ | ⟨rfl, -⟩
  · rw [Stmt.stores, Machine.Instruction.stores_codeOf]
    cases hassembles with
    | load huses => rw [List.filterMap_cons_none (huses.stored_none (by rintro ⟨⟩ <;> decide))]; rfl
    | store huses =>
      rw [Stmt.stores, ← huses.stored_eq, List.filterMap_cons]
      cases Machine.Instruction.stored? _ <;> rfl
    | add huses | sub huses =>
      have hnone := huses.stored_none (by rintro ⟨⟩ <;> decide)
      rw [List.filterMap_cons_none rfl, List.filterMap_cons_none hnone]
      rfl
    | jump => rfl
    | rts => rfl
  · rfl

/-- **Code in one piece** stores what the pieces store. -/
theorem FlattenSymbol.codeIn_stores {S : Symbols} : ∀ {stmts : Stmts}, stmts.Linked S →
    (∀ s ∈ stmts.toList, ∃ c span, s = .code c span) →
    (codeIn stmts).stores = stmts.toList.flatMap Stmt.stores
  | .nil, _, _ => rfl
  | .cons s rest span, ⟨hlinked, hrest⟩, hcode => by
    obtain ⟨⟨c, place, rfl⟩, hcodes⟩ := List.forall_mem_cons.mp hcode
    obtain ⟨instructions, rfl⟩ := hlinked.1
    have ih := codeIn_stores hrest hcodes
    obtain ⟨instructions', hrest'⟩ := (codeIn_linked hrest).1
    rw [hrest'] at ih
    rw [codeIn, hrest', ← Machine.Instruction.codeOf_append, Machine.Instruction.stores_codeOf,
      List.filterMap_append, Stmts.toList, List.flatMap_cons, ← ih, Stmt.stores,
      Machine.Instruction.stores_codeOf, Machine.Instruction.stores_codeOf]

end Lode
