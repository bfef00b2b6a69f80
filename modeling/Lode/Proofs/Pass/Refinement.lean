/-
# Refinement through the passes

What simplifying makes of a written expression has the same byte, and calls and dereferences the same
(`Simplify.simplified`).  The passes behind it put an expression in the place of another one that it
refines: resolving units always does, and computing does, when the names of constants have the values that
are known in the unit (`Substituted.sound`).

Storage is put in the place of names and addresses last.  An address that a constant stands for is written
into the expression as it is, if it is one of a memory cell (`ResolveStorage.lands`).  Every dereference
becomes a memory cell, at the address of the number in it (`ResolveStorage.traced`).

Where the passes that compute and substitute constants come to an item, the frames around its expressions
know the constants of the unit: when calls of intrinsics are computed, those that are defined further up,
and when names are substituted, all of them.  No constant is defined twice, so that each one that is known
has the value that it has in the end.

Refinement goes one way.  An expression that has no byte may be given one by a pass, and a name that no
context knows may become a literal; what has a byte keeps it.  This is why the results are relations between
expressions and not equations of values, and why they compose along the schedule without a condition on what
comes later.
-/
import Lode.Proofs.Pass.Assembly
import Lode.Proofs.Pass.Typing
import Lode.Proofs.Pass.Valuation
import Lode.Proofs.Program.Refinement

namespace Lode

open Program
open Machine (Memory)

variable {c : Context} {env : Env}

/-! ## 1. Simplification -/

namespace Simplify

/-- What is dereferenced in both of two lists has the same values. -/
abbrev SameTargets (c : Context) : List Expr → List Expr → Prop :=
  List.Forall₂ fun t t' => t'.value? c.constant? = t.value? c.constant?

/-- Expressions that have the same byte, and call and dereference the same. -/
structure Simplified (c : Context) (e e' : Expr) : Prop where
  byte : ∀ memory : Memory, e'.byte? c memory = e.byte? c memory
  callees : e'.callees = e.callees
  targets : SameTargets c e.targets e'.targets

theorem Simplified.addresses {e e' : Expr} (h : Simplified c e e') :
    e'.addresses c.constant? ⊆ e.addresses c.constant? :=
  Expr.addresses_subset (h.targets.imp fun _ _ ht _ hv => ht ▸ hv)

theorem SameTargets.refl (targets : List Expr) : SameTargets c targets targets :=
  List.forall₂_same.mpr fun _ _ => rfl

theorem Simplified.trans {e e' e'' : Expr} (h : Simplified c e e') (h' : Simplified c e' e'') :
    Simplified c e e'' :=
  ⟨fun memory => (h'.byte memory).trans (h.byte memory), h'.callees.trans h.callees,
    forall₂_trans (fun ht ht' => ht'.trans ht) h.targets h'.targets⟩

/-- Taking zero away changes no byte. -/
theorem simplified_zero {lhs rhs : Expr} (hzero : isZero rhs = true) (type : Option Ty) (span : Span) :
    Simplified c (.binop "-" lhs rhs type span) lhs := by
  cases rhs with
  | number value _ _ =>
    obtain rfl : value = 0 := by simpa [isZero] using hzero
    refine ⟨fun memory => ?_, (List.append_nil _).symm, (List.append_nil lhs.targets).symm ▸ .refl _⟩
    cases hbyte : lhs.byte? c memory with
    | none => rw [Expr.byte?, hbyte]; rfl
    | some b =>
      rw [Expr.byte?, hbyte, Option.bind_some]
      exact congrArg some (UInt8.sub_zero b).symm
  | _ => cases hzero

mutual

/-- **Simplified expressions.** -/
theorem simplified (arrival : Arrival) : ∀ {e : Expr}, e.Written → Simplified c e (simple arrival e)
  | .number _ _ _, _ | .string _ _ _, _ | .ident _ _ _ _, _ => by
    rw [simple]
    exact ⟨fun _ => rfl, rfl, .nil⟩
  | .member target _ _, h => by
    have ht := simplified .fresh h.2
    rw [simple]
    exact ⟨fun _ => rfl, ht.callees, ht.targets⟩
  | .call target args callee type span, h => by
    have hvalue : (simple arrival (.call target args callee type span)).value? c.constant? =
        (Expr.call target args callee type span).value? c.constant? := value?_simple arrival h
    obtain ⟨hpost, ht, hargs, -⟩ := h
    have ht' := simplified .fresh ht
    obtain ⟨hcallees, htargets⟩ := simplified_args hargs
    rw [simple] at hvalue ⊢
    refine ⟨fun _ => congrArg (Option.map UInt8.ofInt) hvalue, ?_, List.rel_append ht'.targets htargets⟩
    rw [Expr.callees, Expr.callees, name?_simple .fresh hpost, ht'.callees, hcallees]
  | .binop op lhs rhs type span, ⟨hl, hr, _⟩ => by
    have hl' := simplified .fresh hl
    have hr' := simplified .fresh hr
    have hsame : Simplified c (.binop op lhs rhs type span)
        (.binop op (simple .fresh lhs) (simple .fresh rhs) type span) := by
      refine ⟨fun memory => ?_, ?_, List.rel_append hl'.targets hr'.targets⟩
      · rw [Expr.byte?, Expr.byte?, hl'.byte, hr'.byte]
      · rw [Expr.callees, Expr.callees, hl'.callees, hr'.callees]
    simp only [simple]
    -- only the subtraction of zero is replaced, by its left operand
    split
    · rename_i hminus
      rw [Bool.and_eq_true, beq_iff_eq] at hminus
      obtain ⟨rfl, hzero⟩ := hminus
      exact (simplified_zero hzero type span).trans (simplified .placed hl)
    · exact hsame
  | .neg operand type span, ⟨ho, _⟩ => by
    have ho' := simplified .fresh ho
    have hsame : Simplified c (.neg operand type span) (.neg (simple .fresh operand) type span) :=
      ⟨fun memory => congrArg (Option.map (-·)) (ho'.byte memory), ho'.callees, ho'.targets⟩
    simp only [simple]
    -- the opposite of a literal becomes a literal
    split
    · refine ⟨fun _ => ?_, rfl, .nil⟩
      rw [Expr.byte?, wrapWord64_neg ho.2, UInt8.ofInt_neg]
      rfl
    · exact hsame
  | .deref target _ _, ⟨ht, _⟩ => by
    have ht' := simplified .fresh ht
    have hvalue : (simple .fresh target).value? c.constant? = target.value? c.constant? := value?_simple .fresh ht
    rw [simple]
    refine ⟨fun memory => ?_, ht'.callees, .cons hvalue ht'.targets⟩
    rw [Expr.byte?, Expr.byte?, hvalue]
  | .paren inner span, h => by
    have hw : inner.Written := h
    -- brackets go or stay, and have the value of what is in them either way
    cases arrival <;> simp only [simple]
    · have hi := simplified .bare hw
      exact ⟨hi.byte, hi.callees, hi.targets⟩
    · have hi := simplified .bare hw
      exact ⟨hi.byte, hi.callees, hi.targets⟩
    · have hi := simplified .fresh hw
      exact ⟨hi.byte, hi.callees, hi.targets⟩

/-- Simplified arguments call and dereference the same. -/
theorem simplified_args : ∀ {args : Args}, args.Written → (simpleArgs args).callees = args.callees ∧
    SameTargets c args.targets (simpleArgs args).targets
  | .nil, _ => by
    rw [simpleArgs]
    exact ⟨rfl, .nil⟩
  | .cons arg rest _, ⟨harg, hrest⟩ => by
    have harg' := simplified .fresh harg
    obtain ⟨hcallees, htargets⟩ := simplified_args hrest
    rw [simpleArgs, Args.callees, Args.callees, harg'.callees, hcallees]
    exact ⟨rfl, List.rel_append harg'.targets htargets⟩

end

/-- What can be assigned to stays the same cell. -/
theorem place?_simple (arrival : Arrival) {e : Expr} (hassignable : e.isAssignable = true) (h : e.Written) :
    (simple arrival e).place? c = e.place? c := by
  cases e with
  | ident _ _ _ _ => rw [simple]
  | deref target _ _ => rw [simple, Expr.place?, Expr.place?, value?_simple .fresh h.1]
  | _ => cases hassignable

end Simplify

mutual

/-- What is written has neither cells nor instructions in it. -/
theorem Program.Expr.Written.plain : ∀ {e : Expr}, e.Written → e.Plain
  | .number _ _ _, _ | .string _ _ _, _ | .ident _ _ _ _, _ => trivial
  | .member target _ _, h => Expr.Written.plain (e := target) h.2
  | .call _ _ _ _ _, ⟨_, ht, hargs, _⟩ => ⟨Expr.Written.plain ht, Args.Written.plain hargs⟩
  | .binop _ _ _ _ _, ⟨hl, hr, _⟩ => ⟨Expr.Written.plain hl, Expr.Written.plain hr⟩
  | .neg operand _ _, ⟨ho, _⟩ => Expr.Written.plain (e := operand) ho
  | .deref target _ _, ⟨ht, _⟩ => Expr.Written.plain (e := target) ht
  | .paren inner _, h => Expr.Written.plain (e := inner) h

theorem Program.Args.Written.plain : ∀ {args : Args}, args.Written → args.Plain
  | .nil, _ => trivial
  | .cons _ _ _, ⟨harg, hrest⟩ => ⟨Expr.Written.plain harg, Args.Written.plain hrest⟩

end

/-! ## 2. Units -/

namespace ResolveUnits

/-- A member of a unit stands for what its name did. -/
theorem resolve_refines {s : Nested Unit} (hs : Inv UnitsSound s) {e e' : Expr} (h : resolve s e = .ok e') :
    e.Refines c e' := by
  have hmeans : e.Means c.constant? e' := resolve_means hs h
  cases e with
  | member target name span =>
    simp only [resolve] at h
    split at h
    · exact Except.ok.inj h ▸ .refl _
    · split at h
      · cases h
      · obtain rfl := Except.ok.inj h
        refine ⟨⟨hmeans, fun hb => (by cases hb), fun hp => (by cases hp), List.nil_subset _⟩, ?_,
          fun _ => trivial⟩
        rw [Expr.targets_of_member (hmeans.member rfl)]
        exact .nil
  | _ => exact Except.ok.inj h ▸ .refl _

/-- **Resolving units refines.** -/
theorem Resolves.refines {e e' : Expr} (h : Resolves e e') : e.Refines c e' := by
  obtain ⟨s, hs, h⟩ := h
  exact Expr.refines_of_mapUp (fun hstep => resolve_refines hs hstep) h

/-- Resolving a member binds no name. -/
theorem resolve_bound {s : Nested Unit} {e e' : Expr} (h : resolve s e = .ok e') (hbound : e.BoundBy env) :
    e'.BoundBy env := by
  cases e with
  | member target name span =>
    simp only [resolve] at h
    split at h
    · exact Except.ok.inj h ▸ hbound
    · split at h
      · cases h
      · obtain rfl := Except.ok.inj h
        trivial
  | _ => exact Except.ok.inj h ▸ hbound

theorem Resolves.sound {e e' : Expr} (h : Resolves e e') : e.Sound env c e' := by
  obtain ⟨s, hs, h⟩ := h
  exact Expr.sound_of_mapUp
    (fun hstep hbound => ⟨resolve_bound hstep hbound, resolve_refines hs hstep⟩) h

end ResolveUnits

/-! ## 3. Names and constants -/

/-- What a name with a binding stands for. -/
def Program.Binding.meaning (b : Binding) : Meaning :=
  match b.declaration.kind with
  | .constant => .constant
  | .function => .function
  | .global | .localVar | .param => .variable b.declaration.symbol

/-- The names of a context are those around a place, and stand for what they are bound to there. -/
def Program.Context.Fits (c : Context) (env : Env) : Prop :=
  c.names = env.map fun entry => (entry.1, entry.2.meaning)

theorem lookup_map {α β : Type} (f : α → β) (name : String) : ∀ entries : List (String × α),
    (entries.map fun entry => (entry.1, f entry.2)).lookup name = (entries.lookup name).map f
  | [] => rfl
  | (key, a) :: rest => by
    rw [List.map_cons, List.lookup_cons, List.lookup_cons, lookup_map f name rest]
    cases name == key <;> rfl

namespace Program.Context.Fits

variable (hfits : c.Fits env) {name : String} {b : Binding}
include hfits

theorem lookup (hb : env.lookup name = some b) : c.names.lookup name = some b.meaning := by
  rw [show c.names = _ from hfits, lookup_map, hb, Option.map_some]

theorem constant? (hb : env.lookup name = some b) (hkind : b.declaration.kind = .constant) :
    c.constant? name = c.constants.lookup name := by
  rw [Context.constant?, hfits.lookup hb, Binding.meaning, hkind]

theorem cell? (hb : env.lookup name = some b) (hvariable : ResolveStorage.isVariable b = true) :
    c.cell? name = some (.symbol b.declaration.symbol) := by
  rw [Context.cell?, hfits.lookup hb, Binding.meaning]
  unfold ResolveStorage.isVariable at hvariable
  cases hkind : b.declaration.kind <;> simp_all

/-- A variable is known behind its declaration. -/
theorem declare {d : Let} {symbol : String} (hsymbol : d.symbol = some symbol) :
    (c.declare d.name symbol).Fits ((d.name, d.binding .localVar) :: env) := by
  rw [Context.Fits, List.map_cons, ← show c.names = _ from hfits]
  simp [Context.declare, Binding.meaning, Let.binding, hsymbol]

end Program.Context.Fits

/-- The constants of the frames are known, with their values. -/
def ConstantsIn (values : String → Option Int) (s : Nested Unit) : Prop :=
  ∀ name k, s.frames.constant? name = some k → values name = some k.value

namespace EvaluateConstants

theorem inherited_boundBy (env : Env) : Inherited (Expr.BoundBy env) :=
  ⟨id, id, id, fun h => h.2.1⟩

/-- The names that are bound to constants have the values of these. -/
theorem reads_bound (hfits : c.Fits env) {s : Nested Unit} (hs : ConstantsIn (c.constants.lookup ·) s) :
    Reads s.frames (Expr.BoundBy env) c.constant? := by
  intro name binding type span value hbound h
  obtain ⟨hnames, hvalue⟩ := constantValue_ok h
  cases binding with
  | none => cases type <;> cases hnames
  | some b =>
    rw [ResolveConstants.namesConstant_ident, decide_eq_true_eq] at hnames
    obtain ⟨k, hk, rfl⟩ := Option.map_eq_some_iff.mp hvalue
    rw [hfits.constant? hbound.symm hnames]
    exact hs name k hk

/-- What an intrinsic is computed to. -/
theorem sound (hfits : c.Fits env) {e e' : Expr}
    (h : Steady.RewrittenIn (ConstantsIn (c.constants.lookup ·)) evaluateCall e e') : e.Sound env c e' := by
  obtain ⟨s, hs, h⟩ := h
  refine Expr.sound_of_mapUp (fun {e e'} hstep hbound => ?_) h
  rcases evaluateCall_ok (inherited_boundBy env) (reads_bound hfits hs) rfl hbound hstep with
    rfl | ⟨value, type, span, rfl, hvalue⟩
  · exact ⟨hbound, .refl _⟩
  · exact ⟨trivial, .number hvalue type span⟩

end EvaluateConstants

/-- **Constants are substituted.** -/
theorem ResolveConstants.sound (hfits : c.Fits env) {e e' : Expr}
    (h : Steady.RewrittenIn (ConstantsIn (c.constants.lookup ·)) resolve e e') : e.Sound env c e' := by
  obtain ⟨s, hs, h⟩ := h
  refine Expr.sound_of_mapUp (fun {e e'} hstep hbound => ?_) h
  unfold resolve at hstep
  split at hstep
  · rename_i name b type span
    split at hstep
    · rename_i hkind
      split at hstep
      · rename_i k hk
        obtain rfl := Except.ok.inj hstep
        refine ⟨trivial, .number ?_ _ _⟩
        exact (hfits.constant? hbound.symm hkind).trans (hs name k hk)
      · cases hstep
    · exact Except.ok.inj hstep ▸ ⟨hbound, .refl _⟩
  · exact Except.ok.inj hstep ▸ ⟨hbound, .refl _⟩

/-- **Folding** gives the value of an operation. -/
theorem FoldArithmetic.sound {e e' : Expr} (h : Steady.Rewritten (fun _ : Unit => fold) e e') :
    e.Sound env c e' := by
  obtain ⟨s, h⟩ := h
  refine Expr.sound_of_mapUp (fun {e e'} (hstep : fold e = .ok e') hbound => ?_) h
  unfold fold at hstep
  split at hstep
  · obtain ⟨value, hvalue, rfl⟩ := map_eq_ok.mp hstep
    refine ⟨trivial, .number ?_ _ _⟩
    exact EvaluateConstants.applyOperator_ok (Assemble.mapError_eq_ok hvalue)
  · obtain ⟨value, hvalue, rfl⟩ := map_eq_ok.mp hstep
    refine ⟨trivial, .number ?_ _ _⟩
    exact congrArg some (EvaluateConstants.applyNegation_ok (Assemble.mapError_eq_ok hvalue))
  · exact Except.ok.inj hstep ▸ ⟨hbound, .refl _⟩

/-- **Types** have nothing to do with what an expression stands for. -/
theorem PropagateTypes.sound {e e' : Expr} (h : Steady.Rewritten (fun _ : Nested (List Ty) => typeExpr) e e') :
    e.Sound env c e' := by
  obtain ⟨s, h⟩ := h
  refine Expr.sound_of_mapUp (fun {e e'} (hstep : typeExpr e = .ok e') hbound => ?_) h
  have hsame : ∀ {e e' : Expr}, (e'.name? = e.name? ∧ e'.member? = e.member?) ∧
      (∀ values, e'.value? values = e.value? values) ∧ (∀ memory, e'.byte? c memory = e.byte? c memory) ∧
      e'.place? c = e.place? c ∧ e'.callees = e.callees ∧ e'.targets = e.targets ∧
      (e.Plain → e'.Plain) → e.Refines c e' := by
    rintro e e' ⟨⟨hname, hmember⟩, hvalue, hbyte, hplace, hcallees, htargets, hplain⟩
    exact ⟨⟨⟨fun h => hname ▸ h, fun h => hmember ▸ h, fun h => hvalue _ ▸ h⟩, fun h => hbyte _ ▸ h,
      fun h => hplace ▸ h, hcallees ▸ List.Subset.refl _⟩, htargets.symm ▸ (Expr.Refines.refl e).targets, hplain⟩
  cases e with
  | number _ _ _ | string _ _ _ =>
    obtain rfl := Except.ok.inj hstep
    exact ⟨hbound, hsame ⟨⟨rfl, rfl⟩, fun _ => rfl, fun _ => rfl, rfl, rfl, rfl, id⟩⟩
  | ident name binding type span =>
    cases binding with
    | none => cases hstep
    | some b =>
      obtain rfl := Except.ok.inj hstep
      exact ⟨hbound, hsame ⟨⟨rfl, rfl⟩, fun _ => rfl, fun _ => rfl, rfl, rfl, rfl, id⟩⟩
  | member _ _ _ | intrinsic _ _ _ => cases hstep
  | call _ _ _ _ _ | binop _ _ _ _ _ | neg _ _ _ | deref _ _ _ =>
    obtain ⟨_, -, rfl⟩ := map_eq_ok.mp hstep
    exact ⟨hbound, hsame ⟨⟨rfl, rfl⟩, fun _ => rfl, fun _ => rfl, rfl, rfl, rfl, id⟩⟩
  | paren _ _ | cell _ _ _ _ | immediate _ _ _ | returned _ _ =>
    exact Except.ok.inj hstep ▸ ⟨hbound, .refl _⟩

/-! ## 4. Storage -/

namespace ResolveStorage

/-- An address that is known is a literal, and one of a memory cell. -/
theorem constantAddress?_eq_some {e : Expr} {address : Int} (h : constantAddress? e.node = some address) :
    IsAddress address ∧ ((∃ type span, e = .number address type span) ∨
      ∃ type span, e = .immediate address type span) := by
  have hfits : ∀ {value : Int}, (some value).filter (fun a => 0 ≤ a && a ≤ 0xffff) = some address →
      value = address ∧ IsAddress address := fun {value} h => by
    obtain ⟨hvalue, hfits⟩ := Option.filter_eq_some_iff.mp h
    obtain rfl := Option.some.inj hvalue
    exact ⟨rfl, by simpa [IsAddress] using hfits⟩
  cases e with
  | number value type span =>
    simp only [constantAddress?, show (Expr.number value type span).node.tag = .number from rfl,
      Expr.int?_number] at h
    obtain ⟨rfl, hfits⟩ := hfits h
    exact ⟨hfits, .inl ⟨_, _, rfl⟩⟩
  | immediate value type span =>
    obtain ⟨rfl, hfits⟩ := hfits h
    exact ⟨hfits, .inr ⟨_, _, rfl⟩⟩
  | cell place _ _ _ => cases place <;> cases h
  | _ => cases h

/-- A literal is left where one was. -/
theorem eq_number {e : Expr} {value : Int} {type : Option Ty} {span : Span}
    (h : Steady.Rewritten place e (.number value type span)) : e = .number value type span := by
  obtain ⟨s, h⟩ := h
  have hstep : ∀ {e' : Expr}, place s e' = .ok (.number value type span) → e' = .number value type span := by
    intro e' h
    unfold place at h
    split at h
    · split at h
      · exact Except.ok.inj h
      · obtain ⟨_, -, h⟩ := map_eq_ok.mp h
        cases h
    · split at h
      · exact Except.ok.inj h
      · obtain ⟨_, -, h⟩ := map_eq_ok.mp h
        cases h
    · split at h
      · obtain ⟨_, -, h⟩ := map_eq_ok.mp h
        cases h
      · cases h
    · exact Except.ok.inj h
  refine @Expr.mapUp_rel (fun e e' => e' = .number value type span → e = .number value type span) _
    (fun {e e' e''} halike h hsame => ?_) _ _ h rfl
  obtain rfl := hstep (hsame ▸ h)
  cases halike with
  | leaf _ => rfl

/-- A node with storage in its place. -/
theorem place_lands (hfits : c.Fits env) {s : Nested Nat} {e e' e'' : Expr} (halike : e.Alike (Expr.Lands c) e')
    (hstep : place s e' = .ok e'') (hbound : e.BoundBy env) (hplain : e.Plain)
    (haddresses : e.AddressesFit c.constant?) : e.Lands c e'' := by
  have hsame := halike.lands hplain
  unfold place at hstep
  split at hstep
  · rename_i name b type span
    -- a variable becomes the cell of its symbol
    split at hstep
    · exact Except.ok.inj hstep ▸ hsame
    · rename_i hvariable
      obtain ⟨t, -, rfl⟩ := map_eq_ok.mp hstep
      cases halike
      obtain ⟨-, hvariable⟩ : ¬s.own = 0 ∧ isVariable b = true := by simpa using hvariable
      have hcell := hfits.cell? hbound.symm hvariable
      refine ⟨⟨.of_value rfl rfl fun hv => (by cases hv), fun hb => ?_, fun hp => ?_, List.nil_subset _⟩,
        fun h => (by cases h), trivial⟩
      · rw [Expr.byte?, hcell]
        exact hb
      · exact hcell.trans hp
  · rename_i value type span
    -- a literal becomes a byte
    split at hstep
    · exact Except.ok.inj hstep ▸ hsame
    · rename_i hbyte
      obtain ⟨t, -, rfl⟩ := map_eq_ok.mp hstep
      cases halike
      refine ⟨⟨.of_value rfl rfl fun hv => (by cases hv), fun hb => ?_, fun hp => (by cases hp), List.nil_subset _⟩,
        fun h => ?_, trivial⟩
      · rw [Expr.byte?, ← ofInt_emod]
        exact hb
      · obtain ⟨rfl, -, -⟩ := Expr.immediate.inj h
        simp only [Bool.or_eq_true, decide_eq_true_eq, not_or, not_lt] at hbyte
        exact ⟨value, rfl, fun hpositive => (Int.emod_eq_of_lt hpositive (by omega)).symm⟩
  · rename_i target type span
    -- a dereference becomes the cell at its address
    split at hstep
    · rename_i address haddress
      obtain ⟨t, -, rfl⟩ := map_eq_ok.mp hstep
      obtain ⟨haddress, hform⟩ := constantAddress?_eq_some haddress
      cases halike with
      | leaf hleaf => cases hleaf
      | @deref written _ _ _ htarget =>
        -- the address is a number, or a byte that stands for one because it fits
        have hexact : written.value? c.constant? = some address := by
          rcases hform with ⟨_, _, rfl⟩ | ⟨_, _, rfl⟩
          · exact htarget.means.value rfl
          · obtain ⟨exact, hexact, hsame⟩ := htarget.immediate rfl
            have hmem : exact ∈ (Expr.deref written type span).addresses c.constant? :=
              List.mem_append_left _ (Option.mem_toList.mpr hexact)
            exact hexact.trans (congrArg some (hsame (haddresses exact hmem).1))
        refine ⟨⟨.of_value rfl rfl fun hv => (by cases hv), fun hb => ?_, fun hp => ?_, List.nil_subset _⟩,
          fun h => (by cases h), haddress, rfl⟩
        · rw [Expr.byte?, hexact]
          exact hb
        · rw [Expr.place?, hexact]
          exact hp
    · cases hstep
  · exact Except.ok.inj hstep ▸ hsame

/-- What is known of an expression whose storage is resolved, if its constants are addresses. -/
def Landing (c : Context) (env : Env) (e e' : Expr) : Prop :=
  e.BoundBy env → e.Plain → e.AddressesFit c.constant? → e.Lands c e'

/-- Arguments whose storage is resolved. -/
theorem landing_args {args args' : Args} (h : args.Alike (Landing c env) args') (hbound : args.BoundBy env)
    (hplain : args.Plain) (haddresses : ∀ address ∈ args.addresses c.constant?, IsAddress address) :
    args.Alike (Expr.Lands c) args' := by
  induction h with
  | nil => exact .nil
  | cons harg _ ih =>
    obtain ⟨hfit, hrest⟩ := List.forall_mem_append.mp haddresses
    exact .cons (harg hbound.1 hplain.1 hfit) (ih hbound.2 hplain.2 hrest)

theorem landing_alike {e e' : Expr} (h : e.Alike (Landing c env) e') (hbound : e.BoundBy env)
    (hplain : e.Plain) (haddresses : e.AddressesFit c.constant?) : e.Alike (Expr.Lands c) e' := by
  cases h with
  | leaf hleaf => exact .leaf hleaf
  | member ht => exact .member (ht hbound hplain haddresses)
  | call ht hargs =>
    obtain ⟨htarget, hrest⟩ := List.forall_mem_append.mp haddresses
    exact .call (ht hbound.1 hplain.1 htarget) (landing_args hargs hbound.2 hplain.2 hrest)
  | binop hl hr =>
    obtain ⟨hleft, hright⟩ := List.forall_mem_append.mp haddresses
    exact .binop (hl hbound.1 hplain.1 hleft) (hr hbound.2 hplain.2 hright)
  | neg ho => exact .neg (ho hbound hplain haddresses)
  | deref ht => exact .deref (ht hbound hplain (List.forall_mem_append.mp haddresses).2)
  | paren hi => exact .paren (hi hbound hplain haddresses)

/-- **Storage** stands for the names and addresses in whose place it is put. -/
theorem lands (hfits : c.Fits env) {e e' : Expr} (h : Steady.Rewritten place e e') : Landing c env e e' := by
  obtain ⟨s, h⟩ := h
  refine Expr.mapUp_rel (fun {e e' e''} halike hstep hbound hplain haddresses => ?_) h
  exact place_lands hfits (landing_alike halike hbound hplain haddresses) hstep hbound hplain haddresses

/-- What is put in the place of an expression: a memory cell where a number is dereferenced, and where the
address of a cell can stand, nothing but a number. -/
structure Traced (e e' : Expr) : Prop where
  accesses : List.Forall₂ (fun t a => ∃ n type span, t = .number n type span ∧ Hits n a) e.targets e'.accesses
  address : ∀ {address : Int}, constantAddress? e'.node = some address → ∃ n type span,
    e = .number n type span ∧ -128 ≤ n ∧ address = if n < 0 then n + 256 else n

theorem traced_args {args args' : Args} (h : args.Alike (fun e e' => e.Plain → Traced e e') args')
    (hplain : args.Plain) :
    List.Forall₂ (fun t a => ∃ n type span, t = .number n type span ∧ Hits n a) args.targets args'.accesses := by
  induction h with
  | nil => exact .nil
  | cons harg _ ih => exact List.rel_append (harg hplain.1).accesses (ih hplain.2)

/-- An expression of the form of another one, whose parts are put in place. -/
theorem traced_alike {e e' : Expr} (h : e.Alike (fun e e' => e.Plain → Traced e e') e') (hplain : e.Plain)
    (hderef : ∀ target type span, e' ≠ .deref target type span) : Traced e e' := by
  cases h with
  | leaf hleaf =>
    refine ⟨?_, fun haddress => ?_⟩
    · cases e with
      | cell _ _ _ _ => cases hplain
      | number _ _ _ | string _ _ _ | ident _ _ _ _ | intrinsic _ _ _ | immediate _ _ _ | returned _ _ => exact .nil
      | _ => cases hleaf
    · obtain ⟨⟨hlow, -⟩, ⟨type, span, rfl⟩ | ⟨_, _, rfl⟩⟩ := constantAddress?_eq_some haddress
      · exact ⟨_, _, _, rfl, by omega, (if_neg (by omega)).symm⟩
      · cases hplain
  | member ht => exact ⟨(ht hplain).accesses, fun haddress => by cases haddress⟩
  | call ht hargs =>
    exact ⟨List.rel_append (ht hplain.1).accesses (traced_args hargs hplain.2), fun haddress => by cases haddress⟩
  | binop hl hr =>
    exact ⟨List.rel_append (hl hplain.1).accesses (hr hplain.2).accesses, fun haddress => by cases haddress⟩
  | neg ho => exact ⟨(ho hplain).accesses, fun haddress => by cases haddress⟩
  | deref _ => exact absurd rfl (hderef _ _ _)
  | paren hi => exact ⟨(hi hplain).accesses, fun haddress => by cases haddress⟩

/-- **Storage** is put in place of every dereference, at the address of the number in it. -/
theorem traced {e e' : Expr} (h : Steady.Rewritten place e e') (hplain : e.Plain) : Traced e e' := by
  obtain ⟨s, h⟩ := h
  refine @Expr.mapUp_rel (fun e e' => e.Plain → Traced e e') _ (fun {e e' e''} halike hstep hplain => ?_) _ _ h hplain
  unfold place at hstep
  split at hstep
  · rename_i name b type span
    have hsame := traced_alike halike hplain fun _ _ _ => Expr.noConfusion
    split at hstep
    · exact Except.ok.inj hstep ▸ hsame
    · obtain ⟨t, -, rfl⟩ := map_eq_ok.mp hstep
      exact ⟨hsame.accesses, fun haddress => by cases haddress⟩
  · rename_i value type span
    have hsame := traced_alike halike hplain fun _ _ _ => Expr.noConfusion
    split at hstep
    · exact Except.ok.inj hstep ▸ hsame
    · rename_i hbyte
      obtain ⟨t, -, rfl⟩ := map_eq_ok.mp hstep
      cases halike
      simp only [Bool.or_eq_true, decide_eq_true_eq, not_or, not_lt] at hbyte
      refine ⟨.nil, fun haddress => ⟨value, type, span, rfl, by omega, ?_⟩⟩
      obtain ⟨-, ⟨_, _, hform⟩ | ⟨_, _, hform⟩⟩ := constantAddress?_eq_some haddress
      · cases hform
      · obtain ⟨rfl, -, -⟩ := Expr.immediate.inj hform
        split <;> omega
  · rename_i target type span
    split at hstep
    · rename_i address haddress
      obtain ⟨t, -, rfl⟩ := map_eq_ok.mp hstep
      cases halike with
      | leaf hleaf => cases hleaf
      | deref ht =>
        obtain ⟨n, _, _, rfl, hlow, heq⟩ := (ht hplain).address haddress
        exact ⟨.cons ⟨n, _, _, rfl, hlow, heq, (constantAddress?_eq_some haddress).1, rfl⟩ .nil,
          fun haddress => by cases haddress⟩
    · cases hstep
  · rename_i hderef
    exact Except.ok.inj hstep ▸ traced_alike halike hplain fun _ _ _ h => hderef _ _ _ h

end ResolveStorage

/-! ## 5. Constants in frames -/

variable {values : String → Option Int}

/-- A frame in which constants are known, with their values. -/
def KnownIn (values : String → Option Int) (frame : Frame) : Prop :=
  ∀ name k, Sorted.find? name frame.constants = some k → values name = some k.value

theorem constantsIn_frame {frame : Frame} (h : KnownIn values frame) : ConstantsIn values ⟨[frame], ()⟩ := by
  intro name k hk
  refine h name k ?_
  simpa [Frames.constant?] using hk

/-- A frame without constants makes no difference. -/
theorem constantsIn_pushed {frame : Frame} {s : Nested Unit} (hframe : frame.constants = [])
    (hs : ConstantsIn values s) : ConstantsIn values (Nested.pushed frame s) := by
  intro name k hk
  refine hs name k ?_
  simpa [Nested.pushed, Frames.constant?, hframe, Sorted.find?] using hk

section Keeps

variable {v : Visitor (Nested Unit)} {expr : Nested Unit → Expr → Except Error Expr}
  {decl : Nested Unit → Let → Except Error Let} {stmt : Nested Unit → Stmt → Except Error Stmt}
  {Rel : Expr → Expr → Prop}

/-- A visitor rewrites expressions where constants are known. -/
theorem keeps_constants (hk : Steady.Keeps v expr decl stmt Nested.pushed Rel (fun _ => True) (fun _ => True)) :
    Steady.Keeps v expr decl stmt Nested.pushed (Steady.RewrittenIn (ConstantsIn values) expr)
      (ConstantsIn values) (fun frame => frame.constants = []) :=
  { type := hk.type
    expr := fun hI h => ⟨_, hI, h⟩
    decl := hk.decl
    set := hk.set
    ret := hk.ret
    push := constantsIn_pushed }

/-- A function is left with the constants that were known. -/
theorem keepsFunctions_constants (henter : v.enterFunction = fun _ => pure ()) :
    Steady.KeepsFunctions (v.scoped pure) (ConstantsIn values) (fun frame => frame.constants = []) :=
  Visitor.scoped_keepsFunctions constantsIn_pushed
    (fun hs hrun => by
      rw [henter] at hrun
      exact (Walk.outcome_pure_eq_ok.mp hrun).2 ▸ hs)
    fun hrun hleft => by
      rw [henter] at hrun
      obtain ⟨-, rfl⟩ := Walk.outcome_pure_eq_ok.mp hrun
      obtain ⟨rfl, rfl⟩ := Walk.outcome_pure_eq_ok.mp hleft
      exact ⟨rfl, rfl, rfl, rfl, rfl, rfl, rfl⟩

end Keeps

/-! ## 6. Computed calls -/

namespace EvaluateConstants

theorem knownIn_self (frame : Frame) : KnownIn (valuesIn frame.constants) frame := fun _ _ hk =>
  congrArg (Option.map Constant.value) hk

section Item

variable {item : Program.Item} {left : Option Program.Item} {frame : Frame} {s1 : Nested Unit}

/-- An item is left, or it is a constant and removed. -/
theorem mapUp_item_left (hsource : item.isSource = true) (hframes : ∀ inner ∈ item.frames, inner.constants = [])
    (h : (item.mapUp visitor).outcome ⟨[frame], ()⟩ = (.ok left, s1)) (hvalues : KnownIn values frame) :
    ∃ item', item.Alike (Steady.RewrittenIn (ConstantsIn values) evaluateCall) item' ∧
      (left = some item' ∨ left = none ∧ IsConstant item') ∧
      (s1 = ⟨[frame], ()⟩ ∨ (recordConstant item').outcome ⟨[frame], ()⟩ = (.ok left, s1)) := by
  obtain ⟨item', halike, hcases⟩ := steady.mapUp_item
    (keeps_constants (Steady.keeps_staysLinked rfl evaluateCall_staysLinked))
    (keepsFunctions_constants rfl) (constantsIn_frame hvalues) hsource hframes h
  refine ⟨item', halike, ?_⟩
  rcases hcases with ⟨rfl, rfl, -⟩ | ⟨-, hrun⟩
  · exact ⟨.inl rfl, .inl rfl⟩
  · exact ⟨recordConstant_left hrun, .inr hrun⟩

/-- The constants that are known behind an item: the one that it defines is new. -/
theorem mapUp_item_frame (hsource : item.isSource = true) (hframes : ∀ inner ∈ item.frames, inner.constants = [])
    (h : (item.mapUp visitor).outcome ⟨[frame], ()⟩ = (.ok left, s1)) : ∃ frame1, s1 = ⟨[frame1], ()⟩ ∧
      ((item.definition? = none ∧ frame1 = frame) ∨ ∃ d k, item.definition? = some d ∧
        frame1.constants = Sorted.set d.name k frame.constants) := by
  obtain ⟨item', halike, -, hs1⟩ := mapUp_item_left hsource hframes h (knownIn_self frame)
  cases halike with
  | @constant name ty ty' value value' symbol span hvalue hty =>
    obtain ⟨_, -, hrun⟩ := steady.mapUp_constant rfl h
    obtain ⟨recorded, rfl, -⟩ := recordConstant_ok symbol hrun
    exact ⟨_, rfl, .inr ⟨_, recorded, rfl, rfl⟩⟩
  | use | global _ _ | function _ =>
    refine ⟨frame, ?_, .inl ⟨rfl, rfl⟩⟩
    rcases hs1 with rfl | hrun
    · rfl
    · exact (Walk.outcome_pure_eq_ok.mp hrun).2.symm

end Item

/-- Items in which calls are computed when the constants above them are known. -/
theorem mapUp_alike : ∀ {items items' : Items} {frame : Frame} {s' : Nested Unit},
    (∀ entry ∈ items, entry.1.isSource = true) → (∀ inner ∈ Items.frames items, inner.constants = []) →
    ((Items.definitions (items.map (·.1))).map Definition.name).Nodup →
    (∀ d ∈ Items.definitions (items.map (·.1)), Sorted.find? d.name frame.constants = none) →
    (Items.mapUp visitor items).outcome ⟨[frame], ()⟩ = (.ok items', s') →
    ∃ frame', s' = ⟨[frame'], ()⟩ ∧
      (∀ name k, Sorted.find? name frame.constants = some k → Sorted.find? name frame'.constants = some k) ∧
      ∀ values, KnownIn values frame' →
        Items.Alike (Steady.RewrittenIn (ConstantsIn values) evaluateCall) items items'
  | [], items', frame, s', _, _, _, _, h => by
    obtain ⟨rfl, rfl⟩ := Walk.outcome_pure_eq_ok.mp h
    exact ⟨frame, rfl, fun _ _ => id, fun _ _ => .nil⟩
  | (item, span) :: rest, items', frame, s', hsource, hframes, hnodup, hnew, h => by
    obtain ⟨hs, hsrest⟩ := List.forall_mem_cons.mp hsource
    obtain ⟨hinner, hframesRest⟩ := List.forall_mem_append.mp hframes
    obtain ⟨left, s1, hitem, h⟩ := Walk.outcome_bind_eq_ok.mp h
    obtain ⟨rest', s2, hrest, h⟩ := Walk.outcome_bind_eq_ok.mp h
    rw [steady.leaveItemCell_eq] at h
    obtain ⟨rfl, rfl⟩ := Walk.outcome_pure_eq_ok.mp h
    rw [List.map_cons, Items.definitions_cons] at hnodup hnew
    obtain ⟨hnewItem, hnewRest⟩ := List.forall_mem_append.mp hnew
    rw [List.map_append, List.nodup_append] at hnodup
    obtain ⟨frame1, rfl, hframe1⟩ := mapUp_item_frame hs hinner hitem
    have hgrows : (∀ d ∈ Items.definitions (rest.map (·.1)), Sorted.find? d.name frame1.constants = none) ∧
        ∀ name k, Sorted.find? name frame.constants = some k → Sorted.find? name frame1.constants = some k := by
      rcases hframe1 with ⟨-, rfl⟩ | ⟨d, k, hd, hset⟩
      · exact ⟨hnewRest, fun _ _ => id⟩
      · have hd' : d ∈ item.definition?.toList := Option.mem_toList.mpr hd
        have hother : ∀ {name}, name ≠ d.name →
            Sorted.find? name frame1.constants = Sorted.find? name frame.constants := fun hne => by
          rw [hset, Sorted.set, Sorted.find?_alter_ne hne]
        refine ⟨fun d' hmem => ?_, fun name k' hk' => ?_⟩
        · rw [hother fun hsame => hnodup.2.2 _ (List.mem_map_of_mem hd') _ (List.mem_map_of_mem hmem) hsame.symm]
          exact hnewRest d' hmem
        · rw [hother, hk']
          rintro rfl
          cases (hnewItem d hd').symm.trans hk'
    obtain ⟨frame', rfl, hkept, halike⟩ := mapUp_alike hsrest hframesRest hnodup.2.1 hgrows.1 hrest
    refine ⟨frame', rfl, fun name k hk => hkept name k (hgrows.2 name k hk), fun values hvalues => ?_⟩
    have hbefore : KnownIn values frame := fun name k hk => hvalues name k (hkept name k (hgrows.2 name k hk))
    obtain ⟨item', hitem', hleft, -⟩ := mapUp_item_left hs hinner hitem hbefore
    rcases hleft with rfl | ⟨rfl, hconstant⟩
    · exact .cons hitem' (halike values hvalues)
    · exact .drop (hitem'.isWhole_eq ▸ isWhole_of_isConstant hconstant) (halike values hvalues)

/-- **Items whose calls are computed.** -/
theorem items {p p' : Program} (hsource : p.IsSource) (hconstants : p.frame.constants = [])
    (hframes : ∀ inner ∈ Items.frames p.items, inner.constants = [])
    (hnodup : ((Items.definitions (p.items.map (·.1))).map Definition.name).Nodup)
    (hrun : ((p.mapUp visitor).outcome ⟨[], ()⟩).1 = .ok p') (hvalues : KnownIn values p'.frame) :
    Items.Alike (Steady.RewrittenIn (ConstantsIn values) evaluateCall) p.items p'.items := by
  obtain ⟨items, s1, hitems, rfl⟩ := Visitor.scoped_program rfl rfl
    (Prod.ext hrun rfl : (p.mapUp visitor).outcome ⟨[], ()⟩ = (.ok p', _))
  obtain ⟨frame', rfl, -, halike⟩ := mapUp_alike hsource hframes hnodup
    (fun _ _ => by rw [hconstants]; rfl) hitems
  refine halike values fun name k hk => hvalues name k ?_
  have habove : (frame'.above p.frame).constants = frame'.constants := by
    simp only [Frame.above, hconstants]
    cases frame'.constants <;> rfl
  exact habove ▸ hk

end EvaluateConstants

/-! ## 7. Names of constants -/

/-- **Items whose constants are substituted.** -/
theorem ResolveConstants.items {p p' : Program} (hsource : p.IsSource)
    (hframes : ∀ inner ∈ Items.frames p.items, inner.constants = []) (hvalues : KnownIn values p.frame)
    (hrun : ((p.mapUp visitor).outcome ⟨[], ()⟩).1 = .ok p') :
    Items.Alike (Steady.RewrittenIn (ConstantsIn values) resolve) p.items p'.items := by
  obtain ⟨items, s1, hitems, rfl⟩ := Visitor.scoped_program rfl rfl
    (Prod.ext hrun rfl : (p.mapUp visitor).outcome ⟨[], ()⟩ = (.ok p', _))
  have hitem : ∀ {i : Program.Item} {left : Option Program.Item} {s s' : Nested Unit}, ConstantsIn values s →
      (visitor.item i).outcome s = (.ok left, s') →
      ConstantsIn values s' ∧ (left = some i ∨ left = none ∧ False) := fun hs hleft => by
    obtain ⟨rfl, rfl⟩ := Walk.outcome_pure_eq_ok.mp hleft
    exact ⟨hs, .inl rfl⟩
  have hrelated := (steady.mapUp_items (keeps_constants (Steady.keeps_staysLinked rfl resolve_staysLinked))
    (keepsFunctions_constants rfl) hitem id (constantsIn_frame hvalues) hsource hframes hitems).2
  exact hrelated.alike False.elim

end Lode
