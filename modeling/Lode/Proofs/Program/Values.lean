/-
# Values of constant expressions

The exact value of an expression, an integer without bounds, when the values of names are known: literals,
sums, differences, products, negations, and the members of the unit `mem` applied to a word of two bytes.
Bindings and types make no difference to it.

A pass may put an expression in the place of another one whose value, if it has one, is the same
(`Expr.Means`).  The definitions of constants are followed through passes that do (`Definition.Means`).

The value does not say how it is computed, nor in which order, and it has no overflow: where the compiler
refuses a word that is too large there is still a value.  So what is shown about a pass that computes is
that it agrees with the value wherever it gives a result.  The relation between expressions also keeps the
name and the member that an expression is, because these say what a call of it comes to: a call has the
value that its target and its argument give it, and rewriting the target may change that.
-/
import Lode.Proofs.Program.Lexical

namespace Lode.Program

/-! ## 1. Values -/

/-- The value of an operation. -/
def operatorValue (op : String) (lhs rhs : Int) : Option Int :=
  match op with
  | "+" => some (lhs + rhs)
  | "-" => some (lhs - rhs)
  | "*" => some (lhs * rhs)
  | _ => none

/-- The value of a member of a unit at a word of two bytes: the word as an address, or one of its
bytes. -/
def memberValue (name : String) (word : Int) : Option Int :=
  if 0 ≤ word ∧ word ≤ 0xffff then
    match name with
    | "addr8" | "addr16" => some word
    | "lo" => some (word % 256)
    | "hi" => some (word / 256)
    | _ => none
  else none

/-- The name that an identifier is. -/
def Expr.name? : Expr → Option String
  | .ident name _ _ _ => some name
  | _ => none

/-- The member of a unit that an expression stands for. -/
def Expr.member? : Expr → Option (IntrinsicUnit × String)
  | .member target name _ => target.name?.bind fun u => (IntrinsicUnit.ofName? u).map (·, name)
  | .intrinsic u name _ => some (u, name)
  | _ => none

mutual

/-- The value of an expression, where the values of names are known. -/
def Expr.value? (values : String → Option Int) : Expr → Option Int
  | .number value _ _ => some value
  | .ident name _ _ _ => values name
  | .binop op lhs rhs _ _ => (lhs.value? values).bind fun l => (rhs.value? values).bind fun r =>
      operatorValue op l r
  | .neg operand _ _ => (operand.value? values).map (-·)
  | .paren inner _ => inner.value? values
  | .call target args _ _ _ => target.member?.bind fun m => (args.word? values).bind (memberValue m.2)
  | .string _ _ _ | .member _ _ _ | .intrinsic _ _ _ | .deref _ _ _ | .cell _ _ _ _
  | .immediate _ _ _ | .returned _ _ => none

/-- The value of the only argument. -/
def Args.word? (values : String → Option Int) : Args → Option Int
  | .nil => none
  | .cons arg .nil _ => arg.value? values
  | .cons _ (.cons _ _ _) _ => none

end

/-! ## 2. Expressions of the same value -/

/-- What an expression stands for, another one stands for too: a name, a member, a value. -/
structure Expr.Means (values : String → Option Int) (e e' : Expr) : Prop where
  name : ∀ {n : String}, e'.name? = some n → e.name? = some n
  member : ∀ {m : IntrinsicUnit × String}, e'.member? = some m → e.member? = some m
  value : ∀ {v : Int}, e'.value? values = some v → e.value? values = some v

variable {values : String → Option Int}

theorem Expr.Means.refl (e : Expr) : e.Means values e := ⟨id, id, id⟩

theorem Expr.Means.trans {e e' e'' : Expr} (h : e.Means values e') (h' : e'.Means values e'') :
    e.Means values e'' :=
  ⟨fun hn => h.name (h'.name hn), fun hm => h.member (h'.member hm), fun hv => h.value (h'.value hv)⟩

/-- An expression that is neither a name nor a member. -/
theorem Expr.Means.of_value {e e' : Expr} (hname : e'.name? = none) (hmember : e'.member? = none)
    (hvalue : ∀ {v : Int}, e'.value? values = some v → e.value? values = some v) : e.Means values e' :=
  ⟨fun hn => (by simp [hname] at hn), fun hm => (by simp [hmember] at hm), hvalue⟩

/-- Arguments alike have the same word. -/
theorem Args.Alike.word? {args args' : Args} (h : args.Alike (Expr.Means values) args') {v : Int}
    (hv : args'.word? values = some v) : args.word? values = some v := by
  cases h with
  | nil => exact hv
  | cons harg hrest =>
    cases hrest with
    | nil => exact harg.value hv
    | cons _ _ => cases hv

/-- Expressions of one form have the values of their parts. -/
theorem Expr.Alike.means {e e' : Expr} (h : e.Alike (Expr.Means values) e') : e.Means values e' := by
  cases h with
  | leaf _ => exact .refl e
  | @member target target' name span ht =>
    refine ⟨fun hn => (by cases hn), fun hm => ?_, fun hv => (by cases hv)⟩
    obtain ⟨u, hu, hm⟩ := Option.bind_eq_some_iff.mp hm
    exact Option.bind_eq_some_iff.mpr ⟨u, ht.name hu, hm⟩
  | call ht hargs =>
    refine .of_value rfl rfl fun hv => ?_
    obtain ⟨m, hm, hv⟩ := Option.bind_eq_some_iff.mp hv
    obtain ⟨w, hw, hv⟩ := Option.bind_eq_some_iff.mp hv
    exact Option.bind_eq_some_iff.mpr ⟨m, ht.member hm,
      Option.bind_eq_some_iff.mpr ⟨w, hargs.word? hw, hv⟩⟩
  | binop hl hr =>
    refine .of_value rfl rfl fun hv => ?_
    obtain ⟨l, hl', hv⟩ := Option.bind_eq_some_iff.mp hv
    obtain ⟨r, hr', hv⟩ := Option.bind_eq_some_iff.mp hv
    exact Option.bind_eq_some_iff.mpr ⟨l, hl.value hl',
      Option.bind_eq_some_iff.mpr ⟨r, hr.value hr', hv⟩⟩
  | neg ho =>
    refine .of_value rfl rfl fun hv => ?_
    obtain ⟨v, hv', hv⟩ := Option.map_eq_some_iff.mp hv
    exact Option.map_eq_some_iff.mpr ⟨v, ho.value hv', hv⟩
  | deref _ => exact .of_value rfl rfl fun hv => (by cases hv)
  | paren hi => exact .of_value rfl rfl hi.value

/-- A rewriting of nodes that keeps values. -/
theorem Expr.means_of_mapUp {f : Expr → Except Error Expr}
    (hf : ∀ {e e' : Expr}, f e = .ok e' → e.Means values e') {e e' : Expr}
    (h : e.mapUp f = .ok e') : e.Means values e' :=
  Expr.mapUp_rel (fun halike hstep => halike.means.trans (hf hstep)) h

theorem Expr.name?_bindIn (env : Env) (e : Expr) : (e.bindIn env).name? = e.name? := by
  cases e <;> rfl

theorem Expr.member?_bindIn (env : Env) (e : Expr) : (e.bindIn env).member? = e.member? := by
  cases e with
  | member target name span => rw [Expr.bindIn, Expr.member?, Expr.member?, target.name?_bindIn env]
  | _ => rfl

mutual

/-- **Bindings make no difference.** -/
theorem Expr.value?_bindIn (env : Env) : ∀ e : Expr, (e.bindIn env).value? values = e.value? values
  | .call target args _ _ _ => by
    rw [Expr.bindIn, Expr.value?, Expr.value?, target.member?_bindIn env, Args.word?_bindIn env args]
  | .binop _ lhs rhs _ _ => by
    rw [Expr.bindIn, Expr.value?, Expr.value?, Expr.value?_bindIn env lhs, Expr.value?_bindIn env rhs]
  | .neg operand _ _ => by rw [Expr.bindIn, Expr.value?, Expr.value?, Expr.value?_bindIn env operand]
  | .paren inner _ => by rw [Expr.bindIn, Expr.value?, Expr.value?, Expr.value?_bindIn env inner]
  | .number _ _ _ | .string _ _ _ | .ident _ _ _ _ | .member _ _ _ | .intrinsic _ _ _ | .deref _ _ _
  | .cell _ _ _ _ | .immediate _ _ _ | .returned _ _ => rfl

theorem Args.word?_bindIn (env : Env) : ∀ args : Args,
    (args.bindIn env).word? values = args.word? values
  | .nil => rfl
  | .cons arg .nil _ => Expr.value?_bindIn env arg
  | .cons _ (.cons _ _ _) _ => rfl

end

/-! ## 3. Definitions of constants -/

/-- The definition of a constant. -/
structure Definition where
  name : String
  ty : TypeExpr
  value : Expr

/-- The constant that an item defines. -/
def Item.definition? : Item → Option Definition
  | .constant name ty value _ _ => some ⟨name, ty, value⟩
  | _ => none

/-- The constants that items define. -/
def Items.definitions (items : List Item) : List Definition := items.filterMap Item.definition?

/-- A definition of the same name and type whose value, if it has one, is the same. -/
structure Definition.Means (c c' : Definition) : Prop where
  name : c'.name = c.name
  ty : c.ty.Same c'.ty
  value : ∀ {values : String → Option Int} {v : Int}, c'.value.value? values = some v →
    c.value.value? values = some v

theorem Definition.Means.refl (c : Definition) : c.Means c := ⟨rfl, .refl _, id⟩

/-- Definitions keep their values through two passes, one after the other. -/
theorem Definition.Means.trans {c c' c'' : Definition} (h : c.Means c') (h' : c'.Means c'') :
    c.Means c'' :=
  ⟨h'.name.trans h.name, h.ty.trans h'.ty, fun hv => h.value (h'.value hv)⟩

theorem Definition.Means.trans_all : ∀ {cs cs' cs'' : List Definition},
    List.Forall₂ Definition.Means cs cs' → List.Forall₂ Definition.Means cs' cs'' →
    List.Forall₂ Definition.Means cs cs''
  | _, _, _, .nil, .nil => .nil
  | _, _, _, .cons h hrest, .cons h' hrest' => .cons (h.trans h') (trans_all hrest hrest')

/-- Items alike that keep values define the same constants. -/
theorem Item.Alike.definitions {i i' : Item}
    (h : i.Alike (fun e e' => ∀ values, e.Means values e') i') :
    List.Forall₂ Definition.Means i.definition?.toList i'.definition?.toList := by
  cases h with
  | constant hv hty => exact .cons ⟨rfl, hty, fun hvalue => (hv _).value hvalue⟩ .nil
  | _ => exact .nil

theorem Items.definitions_cons (i : Item) (rest : List Item) :
    Items.definitions (i :: rest) = i.definition?.toList ++ Items.definitions rest := by
  rw [Items.definitions, Items.definitions, List.filterMap_cons]
  cases i.definition? <;> rfl

/-- The definitions of items are those of the first and those of the others. -/
theorem Items.definitions_append (front back : List Item) :
    Items.definitions (front ++ back) = Items.definitions front ++ Items.definitions back :=
  List.filterMap_append

/-- **Items related one by one define the same constants**, if nothing that defines one is dropped. -/
theorem Items.Related.definitions {drops : Item → Prop}
    (hdrops : ∀ {i : Item}, drops i → i.definition? = none) {items items' : Items}
    (h : Items.Related drops (Item.Alike fun e e' => ∀ values, e.Means values e') items items') :
    List.Forall₂ Definition.Means (Items.definitions (items.map (·.1)))
      (Items.definitions (items'.map (·.1))) := by
  induction h with
  | nil => exact .nil
  | cons hitem _ ih =>
    rw [List.map_cons, List.map_cons, Items.definitions_cons, Items.definitions_cons]
    exact List.rel_append hitem.definitions ih
  | drop hdrop _ ih =>
    rw [List.map_cons, Items.definitions_cons, hdrops hdrop]
    exact ih

end Lode.Program
