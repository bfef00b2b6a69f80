/-
# What is kept of expressions

The passes that rewrite expressions once names are bound.  Two properties of expressions have to survive
them, and both are about what is inside, so each is stated as a relation between an expression and what a
pass makes of it, and checked for one node at a time; a general lemma on steady passes lifts it to whole
expressions.

The first is that no pass binds an identifier: whatever is attached to a name afterwards was attached to it
by the binding of names (`KeepsBindings`).

The second is about calls.  Computing types checks every call against the function that it names: the target
is bound to a function, and there are as many arguments as parameters, each of the right type
(`PropagateTypes.callsChecked`).  Placing variables comes later and rewrites the arguments of a call.  It
keeps their types, and it leaves the name of the function alone, since that is no variable (`KeepsCalls`);
so the calls of a placed program are checked calls still.
-/
import Lode.Proofs.Pass.Arguments
import Lode.Proofs.Pass.Front
import Lode.Proofs.Pass.Typing
import Lode.Proofs.Program.Bindings

namespace Lode

open Program

/-! ## 1. Bindings -/

/-- The members of units are not identifiers. -/
theorem ResolveUnits.resolve_keepsBindings {s : Nested Unit} {e e' : Expr} (h : resolve s e = .ok e') :
    e.KeepsBindings e' := by
  unfold resolve at h
  split at h
  · split at h
    · exact Except.ok.inj h ▸ List.Subset.refl _
    · split at h
      · cases h
      · exact Except.ok.inj h ▸ List.nil_subset _
  · exact Except.ok.inj h ▸ List.Subset.refl _

theorem EvaluateConstants.evaluateCall_keepsBindings {s : Nested Unit} {e e' : Expr}
    (h : evaluateCall s e = .ok e') : e.KeepsBindings e' := by
  unfold evaluateCall at h
  split at h
  · split at h
    · cases h
    · obtain ⟨numbers, -, h⟩ := bind_eq_ok.mp h
      obtain ⟨n, -, rfl⟩ := map_eq_ok.mp h
      exact List.nil_subset _
  · exact Except.ok.inj h ▸ List.Subset.refl _

theorem ResolveConstants.resolve_keepsBindings {s : Nested Unit} {e e' : Expr}
    (h : resolve s e = .ok e') : e.KeepsBindings e' := by
  unfold resolve at h
  split at h
  · split at h
    · split at h
      · exact Except.ok.inj h ▸ List.nil_subset _
      · cases h
    · exact Except.ok.inj h ▸ List.Subset.refl _
  · exact Except.ok.inj h ▸ List.Subset.refl _

theorem FoldArithmetic.fold_keepsBindings {e e' : Expr} (h : fold e = .ok e') : e.KeepsBindings e' := by
  unfold fold at h
  split at h
  · obtain ⟨value, -, rfl⟩ := map_eq_ok.mp h
    exact List.nil_subset _
  · obtain ⟨value, -, rfl⟩ := map_eq_ok.mp h
    exact List.nil_subset _
  · exact Except.ok.inj h ▸ List.Subset.refl _

/-- A type is put beside the binding of a name. -/
theorem PropagateTypes.typeExpr_keepsBindings {e e' : Expr} (h : typeExpr e = .ok e') :
    e.KeepsBindings e' := by
  cases e with
  | ident name binding type span =>
    cases binding with
    | none => cases h
    | some b => exact Except.ok.inj h ▸ List.Subset.refl _
  | call target args callee type span =>
    obtain ⟨_, _, rfl⟩ := map_eq_ok.mp h
    exact List.Subset.refl _
  | binop op lhs rhs type span | neg operand type span | deref target type span =>
    obtain ⟨_, _, rfl⟩ := map_eq_ok.mp h
    exact List.Subset.refl _
  | member _ _ _ | intrinsic _ _ _ => cases h
  | _ => exact Except.ok.inj h ▸ List.Subset.refl _

/-- A cell has no binding, and what is no variable is left. -/
theorem ResolveStorage.place_keepsBindings {s : Nested Nat} {e e' : Expr} (h : place s e = .ok e') :
    e.KeepsBindings e' := by
  unfold place at h
  split at h
  · split at h
    · exact Except.ok.inj h ▸ List.Subset.refl _
    · obtain ⟨t, -, rfl⟩ := map_eq_ok.mp h
      exact List.nil_subset _
  · split at h
    · exact Except.ok.inj h ▸ List.Subset.refl _
    · obtain ⟨t, -, rfl⟩ := map_eq_ok.mp h
      exact List.nil_subset _
  · split at h
    · obtain ⟨t, -, rfl⟩ := map_eq_ok.mp h
      exact List.nil_subset _
    · cases h
  · exact Except.ok.inj h ▸ List.Subset.refl _

/-! ## 2. Calls -/

/-- What is called is an identifier that is bound to a function. -/
theorem PropagateTypes.calleeBinding_ok {target : Expr} {b : Binding} (h : calleeBinding target = .ok b) :
    b.declaration.kind = .function ∧ ∃ name type span, target = .ident name (some b) type span := by
  unfold calleeBinding at h
  split at h
  · rename_i name b' type span
    split at h
    · rename_i hkind
      obtain rfl := Except.ok.inj h
      exact ⟨hkind, name, type, span, rfl⟩
    · cases h
  · cases h

/-- A call has a type if it is checked. -/
theorem PropagateTypes.callType_ok {target : Expr} {args : List Node} {span : Span} {b : Binding}
    {result : Ty} (h : callType target args span = .ok (b, result)) :
    CallChecked target args.length (some b) (some result) := by
  obtain ⟨b', hb', h⟩ := bind_eq_ok.mp h
  obtain ⟨hkind, name, type, place, rfl⟩ := calleeBinding_ok hb'
  split at h
  · rename_i result' params htype
    split at h
    · cases h
    · rename_i hcount
      obtain ⟨_, _, h⟩ := bind_eq_ok.mp h
      obtain ⟨rfl, rfl⟩ := Prod.mk.inj (Except.ok.inj h)
      exact .intro hkind htype (not_not.mp hcount)
  · cases h

/-- Types check the calls of one node. -/
theorem PropagateTypes.callsChecked_step {e e' e'' : Expr}
    (halike : e.Alike (fun _ e' => e'.CallsChecked) e') (hstep : typeExpr e' = .ok e'') :
    e''.CallsChecked := by
  cases halike with
  | leaf hleaf =>
    cases e with
    | ident name binding type span =>
      cases binding with
      | none => cases hstep
      | some b => exact Except.ok.inj hstep ▸ trivial
    | intrinsic _ _ _ => cases hstep
    | call _ _ _ _ _ | member _ _ _ | binop _ _ _ _ _ | neg _ _ _ | deref _ _ _ | paren _ _ => cases hleaf
    | _ => exact Except.ok.inj hstep ▸ trivial
  | member _ => cases hstep
  | call ht hargs =>
    obtain ⟨⟨b, result⟩, hb, rfl⟩ := map_eq_ok.mp hstep
    have hchecked := callType_ok hb
    rw [List.length_map] at hchecked
    refine ⟨hchecked, Args.callsChecked_iff.mpr fun arg harg => ?_⟩
    obtain ⟨_, -, hrel⟩ := exists_of_mem_right hargs.forall₂ harg
    exact hrel
  | binop hl hr =>
    obtain ⟨_, _, rfl⟩ := map_eq_ok.mp hstep
    exact ⟨hl, hr⟩
  | neg ho =>
    obtain ⟨_, _, rfl⟩ := map_eq_ok.mp hstep
    exact ho
  | deref ht =>
    obtain ⟨_, _, rfl⟩ := map_eq_ok.mp hstep
    exact ht
  | paren hi =>
    obtain rfl := Except.ok.inj hstep
    exact hi

/-- **Types check calls.** -/
theorem PropagateTypes.callsChecked {e e' : Expr}
    (h : Steady.Rewritten (fun _ : Nested (List Ty) => typeExpr) e e') : e'.CallsChecked := by
  obtain ⟨_, h⟩ := h
  exact Expr.mapUp_rel callsChecked_step h

/-- An expression whose calls are checked if those of another one are.  A name of a function is left, so
that it still is what is called. -/
structure Program.Expr.KeepsCalls (e e' : Expr) : Prop where
  checked : e.CallsChecked → e'.CallsChecked
  target : ∀ {name : String} {b : Binding} {type : Option Ty} {span : Span},
    e = .ident name (some b) type span → b.declaration.kind = .function → e' = e

namespace ResolveStorage

theorem isVariable_of_function {b : Binding} (h : b.declaration.kind = .function) : isVariable b = false := by
  rw [isVariable, h]

/-- Every call in placed parts is checked, if it was in the parts. -/
theorem checked_alike {e e' : Expr} (h : e.Alike Expr.KeepsCalls e') (hchecked : e.CallsChecked) :
    e'.CallsChecked := by
  cases h with
  | leaf _ => exact hchecked
  | member h | neg h | deref h | paren h => exact h.checked hchecked
  | binop hl hr => exact ⟨hl.checked hchecked.1, hr.checked hchecked.2⟩
  | call ht hargs =>
    obtain ⟨hcall, hrest⟩ := hchecked
    refine ⟨?_, Args.callsChecked_iff.mpr fun arg' harg' => ?_⟩
    · cases hcall with
      | intro hkind htype hcount =>
        rw [ht.target rfl hkind]
        exact .intro hkind htype (hargs.forall₂.length_eq.symm.trans hcount)
    · obtain ⟨arg, harg, hrel⟩ := exists_of_mem_right hargs.forall₂ harg'
      exact hrel.checked (Args.callsChecked_iff.mp hrest arg harg)

/-- Placing a node leaves its calls checked. -/
theorem place_checked {s : Nested Nat} {e e' : Expr} (h : place s e = .ok e') (hchecked : e.CallsChecked) :
    e'.CallsChecked := by
  unfold place at h
  split at h
  · split at h
    · exact Except.ok.inj h ▸ hchecked
    · obtain ⟨t, -, rfl⟩ := map_eq_ok.mp h
      trivial
  · split at h
    · exact Except.ok.inj h ▸ hchecked
    · obtain ⟨t, -, rfl⟩ := map_eq_ok.mp h
      trivial
  · split at h
    · obtain ⟨t, -, rfl⟩ := map_eq_ok.mp h
      trivial
    · cases h
  · exact Except.ok.inj h ▸ hchecked

/-- **Placing keeps calls.** -/
theorem keepsCalls {e e' : Expr} (h : Steady.Rewritten place e e') : e.KeepsCalls e' := by
  obtain ⟨s, hs⟩ := h
  refine Expr.mapUp_rel (fun {e e' e''} halike hstep => ?_) hs
  refine ⟨fun hchecked => place_checked hstep (checked_alike halike hchecked), ?_⟩
  rintro name b type span rfl hkind
  cases halike
  simp only [place, isVariable_of_function hkind, Bool.not_false, Bool.or_true, if_true] at hstep
  exact (Except.ok.inj hstep).symm

end ResolveStorage

end Lode
