/-
# Refined expressions

A pass may put an expression in the place of another one if all that the new one stands for, the old one
stands for as well: a name, a value, a byte, a memory cell.  The new one calls no other functions
(`Expr.Stands`).  As long as no memory cells are put in place of names, it dereferences the same addresses,
one by one, and every identifier stays bound to what it was bound to (`Expr.Refines`, `Expr.Sound`).

Of statements this says that they are of the same kind, and that their expressions are refined one by one
(`Stmt.Like`).

The direction is the usual one of refinement, read backwards: what the rewritten expression means in the end
has to be what the written one meant.  An expression is rewritten from the inside out, so a node is looked
at when its parts are refined already; that expressions of one form are refined with their parts
(`Expr.Alike.refines`) is the congruence that this rests on.  Every relation here is transitive, and so the
passes compose.
-/
import Lode.Proofs.Program.Declarations
import Lode.Proofs.Program.Semantics

namespace Lode.Program

open Machine (Access Memory)

/-! ## 1. Expressions that stand for the same -/

/-- What an expression stands for, another one stands for too, and it calls no other functions. -/
structure Expr.Stands (c : Context) (e e' : Expr) : Prop where
  means : e.Means c.constant? e'
  byte : ∀ {memory : Memory} {b : UInt8}, e'.byte? c memory = some b → e.byte? c memory = some b
  place : ∀ {place : Place}, e'.place? c = some place → e.place? c = some place
  callees : e'.callees ⊆ e.callees

variable {c : Context}

theorem Expr.Stands.refl (e : Expr) : e.Stands c e := ⟨.refl e, id, id, List.Subset.refl _⟩

theorem Expr.Stands.trans {e e' e'' : Expr} (h : e.Stands c e') (h' : e'.Stands c e'') : e.Stands c e'' :=
  ⟨h.means.trans h'.means, fun hb => h.byte (h'.byte hb), fun hp => h.place (h'.place hp),
    List.Subset.trans h'.callees h.callees⟩

theorem Args.Alike.callees {args args' : Args} (h : args.Alike (Expr.Stands c) args') :
    args'.callees ⊆ args.callees := by
  induction h with
  | nil => exact List.Subset.refl _
  | cons harg _ ih => exact append_subset_append harg.callees ih

theorem toList_subset {α : Type} {a a' : Option α} (h : ∀ {x : α}, a' = some x → a = some x) :
    a'.toList ⊆ a.toList := fun _ hx => Option.mem_toList.mpr (h (Option.mem_toList.mp hx))

/-- Expressions of one form stand for what their parts stand for. -/
theorem Expr.Alike.stands {e e' : Expr} (h : e.Alike (Expr.Stands c) e') : e.Stands c e' := by
  have hmeans : e.Means c.constant? e' := (h.imp fun he => he.means).means
  cases h with
  | leaf _ => exact .refl e
  | member ht => exact ⟨hmeans, fun hb => (by cases hb), fun hp => (by cases hp), ht.callees⟩
  | call ht hargs =>
    refine ⟨hmeans, fun hb => ?_, fun hp => (by cases hp), ?_⟩
    · obtain ⟨v, hv, rfl⟩ := Option.map_eq_some_iff.mp hb
      exact Option.map_eq_some_iff.mpr ⟨v, hmeans.value hv, rfl⟩
    · exact append_subset_append (append_subset_append (toList_subset ht.means.name) ht.callees) hargs.callees
  | binop hl hr =>
    refine ⟨hmeans, fun hb => ?_, fun hp => (by cases hp), append_subset_append hl.callees hr.callees⟩
    obtain ⟨l, hl', hb⟩ := Option.bind_eq_some_iff.mp hb
    obtain ⟨r, hr', hb⟩ := Option.bind_eq_some_iff.mp hb
    exact Option.bind_eq_some_iff.mpr ⟨l, hl.byte hl', Option.bind_eq_some_iff.mpr ⟨r, hr.byte hr', hb⟩⟩
  | neg ho =>
    refine ⟨hmeans, fun hb => ?_, fun hp => (by cases hp), ho.callees⟩
    obtain ⟨b, ho', rfl⟩ := Option.map_eq_some_iff.mp hb
    exact Option.map_eq_some_iff.mpr ⟨b, ho.byte ho', rfl⟩
  | deref ht =>
    refine ⟨hmeans, fun hb => ?_, fun hp => ?_, ht.callees⟩
    · obtain ⟨address, haddress, rfl⟩ := Option.map_eq_some_iff.mp hb
      exact Option.map_eq_some_iff.mpr ⟨address, ht.means.value haddress, rfl⟩
    · obtain ⟨address, haddress, rfl⟩ := Option.map_eq_some_iff.mp hp
      exact Option.map_eq_some_iff.mpr ⟨address, ht.means.value haddress, rfl⟩
  | paren hi => exact ⟨hmeans, hi.byte, fun hp => (by cases hp), hi.callees⟩

/-! ## 2. Refined expressions -/

mutual

/-- An expression without memory cells, and without the other forms that stand for a place of a byte. -/
def Expr.Plain : Expr → Prop
  | .cell _ _ _ _ | .immediate _ _ _ | .returned _ _ => False
  | .member target _ _ | .deref target _ _ => target.Plain
  | .call target args _ _ _ => target.Plain ∧ args.Plain
  | .binop _ lhs rhs _ _ => lhs.Plain ∧ rhs.Plain
  | .neg operand _ _ => operand.Plain
  | .paren inner _ => inner.Plain
  | .number _ _ _ | .string _ _ _ | .ident _ _ _ _ | .intrinsic _ _ _ => True

/-- Arguments without memory cells. -/
def Args.Plain : Args → Prop
  | .nil => True
  | .cons arg rest _ => arg.Plain ∧ rest.Plain

end

/-- An expression that stands for nothing else, also in what it dereferences. -/
structure Expr.Refines (c : Context) (e e' : Expr) : Prop extends e.Stands c e' where
  targets : List.Forall₂ (Expr.Means c.constant?) e.targets e'.targets
  plain : e.Plain → e'.Plain

theorem Expr.Refines.refl (e : Expr) : e.Refines c e := ⟨.refl e, List.forall₂_same.mpr fun t _ => .refl t, id⟩

theorem Expr.Refines.trans {e e' e'' : Expr} (h : e.Refines c e') (h' : e'.Refines c e'') : e.Refines c e'' :=
  ⟨h.toStands.trans h'.toStands, forall₂_trans (fun ht ht' => ht.trans ht') h.targets h'.targets,
    fun hp => h'.plain (h.plain hp)⟩

/-- The constants that are dereferenced, when what is dereferenced has no new values. -/
theorem Expr.addresses_subset {values : String → Option Int} {e e' : Expr}
    (h : List.Forall₂ (fun t t' => ∀ v : Int, t'.value? values = some v → t.value? values = some v)
      e.targets e'.targets) : e'.addresses values ⊆ e.addresses values := by
  intro address haddress
  rw [Expr.addresses_eq] at haddress ⊢
  obtain ⟨t', ht', hvalue⟩ := List.mem_filterMap.mp haddress
  obtain ⟨t, ht, hsame⟩ := exists_of_mem_right h ht'
  exact List.mem_filterMap.mpr ⟨t, ht, hsame _ hvalue⟩

theorem Expr.Refines.addresses {e e' : Expr} (h : e.Refines c e') :
    e'.addresses c.constant? ⊆ e.addresses c.constant? :=
  Expr.addresses_subset (h.targets.imp fun _ _ ht _ => ht.value)

theorem Args.Alike.targets {args args' : Args} (h : args.Alike (Expr.Refines c) args') :
    List.Forall₂ (Expr.Means c.constant?) args.targets args'.targets ∧ (args.Plain → args'.Plain) := by
  induction h with
  | nil => exact ⟨.nil, id⟩
  | cons harg _ ih => exact ⟨List.rel_append harg.targets ih.1, fun hp => ⟨harg.plain hp.1, ih.2 hp.2⟩⟩

/-- **Expressions of one form** are refined with their parts. -/
theorem Expr.Alike.refines {e e' : Expr} (h : e.Alike (Expr.Refines c) e') : e.Refines c e' := by
  have hstands : e.Stands c e' := (h.imp fun he => he.toStands).stands
  cases h with
  | leaf _ => exact .refl e
  | member ht => exact ⟨hstands, ht.targets, ht.plain⟩
  | call ht hargs =>
    exact ⟨hstands, List.rel_append ht.targets hargs.targets.1,
      fun hp => ⟨ht.plain hp.1, hargs.targets.2 hp.2⟩⟩
  | binop hl hr =>
    exact ⟨hstands, List.rel_append hl.targets hr.targets, fun hp => ⟨hl.plain hp.1, hr.plain hp.2⟩⟩
  | neg h | paren h => exact ⟨hstands, h.targets, h.plain⟩
  | deref ht => exact ⟨hstands, .cons ht.means ht.targets, ht.plain⟩

theorem Expr.refines_of_mapUp {f : Expr → Except Error Expr}
    (hf : ∀ {e e' : Expr}, f e = .ok e' → e.Refines c e') {e e' : Expr} (h : e.mapUp f = .ok e') :
    e.Refines c e' :=
  Expr.mapUp_rel (fun halike hstep => halike.refines.trans (hf hstep)) h

/-- **An expression that has a value** has the byte of it. -/
theorem Expr.byte?_of_value {memory : Memory} : ∀ {e : Expr} {v : Int}, e.value? c.constant? = some v →
    e.byte? c memory = some (UInt8.ofInt v)
  | .number _ _ _, v, h => congrArg (some ∘ UInt8.ofInt) (Option.some.inj h)
  | .ident name _ _ _, v, h => by
    have hcell : c.cell? name = none := by
      simp only [Expr.value?, Context.constant?] at h
      rw [Context.cell?]
      split at h <;> simp_all
    rw [Expr.byte?, hcell, show c.constant? name = some v from h]
    rfl
  | .binop op lhs rhs _ _, v, h => by
    obtain ⟨l, hl, h⟩ := Option.bind_eq_some_iff.mp h
    obtain ⟨r, hr, h⟩ := Option.bind_eq_some_iff.mp h
    rw [Expr.byte?, Expr.byte?_of_value hl, Expr.byte?_of_value hr]
    exact operatorByte_ofInt h
  | .neg operand _ _, v, h => by
    obtain ⟨o, ho, rfl⟩ := Option.map_eq_some_iff.mp h
    rw [Expr.byte?, Expr.byte?_of_value ho, Option.map_some, UInt8.ofInt_neg]
  | .paren inner _, v, h => Expr.byte?_of_value (e := inner) h
  | .call target args callee type span, v, h => by rw [Expr.byte?, h, Option.map_some]

/-- A number refines what has its value. -/
theorem Expr.Refines.number {e : Expr} {v : Int} (h : e.value? c.constant? = some v) (type : Option Ty)
    (span : Span) : e.Refines c (.number v type span) where
  means := .of_value rfl rfl fun hv => h.trans hv
  byte hb := (Expr.byte?_of_value h).trans hb
  place hp := by cases hp
  callees := List.nil_subset _
  targets := (Expr.targets_of_value h).symm ▸ .nil
  plain _ := trivial

/-! ## 3. Bindings -/

theorem Args.Alike.flip {Rel : Expr → Expr → Prop} {args args' : Args} (h : args.Alike Rel args') :
    args'.Alike (fun e e' => Rel e' e) args := by
  induction h with
  | nil => exact .nil
  | cons harg _ ih => exact .cons harg ih

/-- Expressions of one form, the other way around. -/
theorem Expr.Alike.flip {Rel : Expr → Expr → Prop} {e e' : Expr} (h : e.Alike Rel e') :
    e'.Alike (fun e e' => Rel e' e) e := by
  cases h with
  | leaf hleaf => exact .leaf hleaf
  | member ht => exact .member ht
  | call ht hargs => exact .call ht hargs.flip
  | binop hl hr => exact .binop hl hr
  | neg ho => exact .neg ho
  | deref ht => exact .deref ht
  | paren hi => exact .paren hi

/-- Expressions that refine each other. -/
def Expr.SameFor (c : Context) (e e' : Expr) : Prop := e.Refines c e' ∧ e'.Refines c e

theorem Expr.Alike.sameFor {e e' : Expr} (h : e.Alike (Expr.SameFor c) e') : e.SameFor c e' :=
  ⟨(h.imp fun he => he.1).refines, (h.flip.imp fun he => he.2).refines⟩

theorem Expr.sameFor_ident (name : String) (binding binding' : Option Binding) (type : Option Ty) (span : Span) :
    (Expr.ident name binding type span).SameFor c (.ident name binding' type span) :=
  ⟨⟨⟨⟨id, id, id⟩, id, id, List.Subset.refl _⟩, .nil, id⟩,
    ⟨⟨⟨id, id, id⟩, id, id, List.Subset.refl _⟩, .nil, id⟩⟩

mutual

/-- **Bindings** have nothing to do with what an expression stands for. -/
theorem Expr.sameFor_erase : ∀ e : Expr, e.SameFor c e.erase
  | .ident name binding type span => Expr.sameFor_ident name binding none type span
  | .member target _ _ => Expr.Alike.sameFor (.member (Expr.sameFor_erase target))
  | .call target args _ _ _ => Expr.Alike.sameFor (.call (Expr.sameFor_erase target) (Args.sameFor_erase args))
  | .binop _ lhs rhs _ _ => Expr.Alike.sameFor (.binop (Expr.sameFor_erase lhs) (Expr.sameFor_erase rhs))
  | .neg operand _ _ => Expr.Alike.sameFor (.neg (Expr.sameFor_erase operand))
  | .deref target _ _ => Expr.Alike.sameFor (.deref (Expr.sameFor_erase target))
  | .paren inner _ => Expr.Alike.sameFor (.paren (Expr.sameFor_erase inner))
  | .number _ _ _ | .string _ _ _ | .intrinsic _ _ _ | .cell _ _ _ _ | .immediate _ _ _
  | .returned _ _ => Expr.Alike.sameFor (.leaf rfl)

theorem Args.sameFor_erase : ∀ args : Args, args.Alike (Expr.SameFor c) args.erase
  | .nil => .nil
  | .cons arg rest _ => .cons (Expr.sameFor_erase arg) (Args.sameFor_erase rest)

end

theorem Expr.refines_of_erase {e e' : Expr} (h : e'.erase = e.erase) : e.Refines c e' :=
  (Expr.sameFor_erase e).1.trans (h ▸ (Expr.sameFor_erase e').2)

/-- An expression is refined, if its identifiers are bound as the names around them say, and they stay so. -/
def Expr.Sound (env : Env) (c : Context) (e e' : Expr) : Prop :=
  e.BoundBy env → e'.BoundBy env ∧ e.Refines c e'

variable {env : Env}

theorem Expr.Sound.trans {e e' e'' : Expr} (h : e.Sound env c e') (h' : e'.Sound env c e'') :
    e.Sound env c e'' := fun hbound =>
  have ⟨hbound', hrefines⟩ := h hbound
  have ⟨hbound'', hrefines'⟩ := h' hbound'
  ⟨hbound'', hrefines.trans hrefines'⟩

theorem Args.Alike.sound {args args' : Args} (h : args.Alike (Expr.Sound env c) args') (hbound : args.BoundBy env) :
    args'.BoundBy env ∧ args.Alike (Expr.Refines c) args' := by
  induction h with
  | nil => exact ⟨hbound, .nil⟩
  | cons harg _ ih =>
    obtain ⟨harg', hrefines⟩ := harg hbound.1
    obtain ⟨hrest', hrest⟩ := ih hbound.2
    exact ⟨⟨harg', hrest'⟩, .cons hrefines hrest⟩

theorem Expr.Alike.sound {e e' : Expr} (h : e.Alike (Expr.Sound env c) e') : e.Sound env c e' := by
  intro hbound
  have hparts : e'.BoundBy env ∧ e.Alike (Expr.Refines c) e' := by
    cases h with
    | leaf hleaf => exact ⟨hbound, .leaf hleaf⟩
    | member ht => exact ⟨(ht hbound).1, .member (ht hbound).2⟩
    | call ht hargs =>
      obtain ⟨hargs', hrefines⟩ := hargs.sound hbound.2
      exact ⟨⟨(ht hbound.1).1, hargs'⟩, .call (ht hbound.1).2 hrefines⟩
    | binop hl hr =>
      exact ⟨⟨(hl hbound.1).1, (hr hbound.2).1⟩, .binop (hl hbound.1).2 (hr hbound.2).2⟩
    | neg ho => exact ⟨(ho hbound).1, .neg (ho hbound).2⟩
    | deref ht => exact ⟨(ht hbound).1, .deref (ht hbound).2⟩
    | paren hi => exact ⟨(hi hbound).1, .paren (hi hbound).2⟩
  exact ⟨hparts.1, hparts.2.refines⟩

/-- **A rewriting of nodes** is sound, if it is sound for one node. -/
theorem Expr.sound_of_mapUp {f : Expr → Except Error Expr}
    (hf : ∀ {e e' : Expr}, f e = .ok e' → e.Sound env c e') {e e' : Expr} (h : e.mapUp f = .ok e') :
    e.Sound env c e' :=
  Expr.mapUp_rel (fun halike hstep => halike.sound.trans (hf hstep)) h

/-! ## 4. Storage -/

/-- An expression whose memory cells are those of symbols or at addresses, the low ones in the zero page. -/
def Expr.Direct : Expr → Prop
  | .cell (.address address) zeroPage _ _ => IsAddress address ∧ zeroPage = decide (address ≤ 0xff)
  | .binop _ lhs rhs _ _ => lhs.Direct ∧ rhs.Direct
  | .returned _ _ => False
  | _ => True

mutual

/-- The addresses at which the memory cells in an expression are. -/
def Expr.accesses : Expr → List Access
  | .cell (.address address) zeroPage _ _ => [⟨address, zeroPage⟩]
  | .member target _ _ | .deref target _ _ => target.accesses
  | .call target args _ _ _ => target.accesses ++ args.accesses
  | .binop _ lhs rhs _ _ => lhs.accesses ++ rhs.accesses
  | .neg operand _ _ => operand.accesses
  | .paren inner _ => inner.accesses
  | .cell (.symbol _) _ _ _ | .number _ _ _ | .string _ _ _ | .ident _ _ _ _ | .intrinsic _ _ _
  | .immediate _ _ _ | .returned _ _ => []

/-- The addresses at which the memory cells in arguments are. -/
def Args.accesses : Args → List Access
  | .nil => []
  | .cons arg rest _ => arg.accesses ++ rest.accesses

end

/-- An access to a memory cell, by the form that its address has. -/
def IsDirect (a : Access) : Prop := IsAddress a.address ∧ a.zeroPage = decide (a.address ≤ 0xff)

/-- The access that stands for a number: the one at this address, or in the last half of the zero page if the
number is a negative one of a byte. -/
structure Hits (n : Int) (a : Access) : Prop where
  low : -128 ≤ n
  address : a.address = if n < 0 then n + 256 else n
  direct : IsDirect a

/-- An expression in which storage stands for names, numbers and addresses.  A byte that is put in place of a
number is the number, unless that is negative. -/
structure Expr.Lands (c : Context) (e e' : Expr) : Prop extends e.Stands c e' where
  immediate : ∀ {value : Int} {type : Ty} {span : Span}, e' = .immediate value type span →
    ∃ exact, e.value? c.constant? = some exact ∧ (0 ≤ exact → exact = value)
  direct : e'.Direct

/-- An expression of the form of another one, whose parts are related and have no cells. -/
theorem Expr.Alike.lands {e e' : Expr} (h : e.Alike (Expr.Lands c) e') (hplain : e.Plain) : e.Lands c e' := by
  refine ⟨(h.imp fun he => he.toStands).stands, ?_, ?_⟩
  · rintro value type span rfl
    cases h
    cases hplain
  · cases h with
    | leaf hleaf =>
      cases e with
      | cell _ _ _ _ | returned _ _ => cases hplain
      | _ => trivial
    | binop hl hr => exact ⟨hl.direct, hr.direct⟩
    | _ => trivial

/-! ## 5. Statements -/

/-- The kinds of statements that are written. -/
inductive Kind where
  | decl (name : String)
  | set | ret | expr | other
deriving DecidableEq

/-- The kind of a statement. -/
def Stmt.kind : Stmt → Kind
  | .decl d => .decl d.name
  | .set _ _ _ _ => .set
  | .ret _ _ _ => .ret
  | .expr _ => .expr
  | _ => .other

/-- Statements of one kind with related expressions. -/
structure Stmt.Like (Rel : Expr → Expr → Prop) (s s' : Stmt) : Prop where
  kind : s'.kind = s.kind
  parts : List.Forall₂ Rel s.parts s'.parts

section Like

variable {Rel Rel' Rel'' : Expr → Expr → Prop} {s s' s'' : Stmt}

theorem Stmt.Like.trans (hRel : ∀ {e e' e'' : Expr}, Rel e e' → Rel' e' e'' → Rel'' e e'') (h : s.Like Rel s')
    (h' : s'.Like Rel' s'') : s.Like Rel'' s'' :=
  ⟨h'.kind.trans h.kind, forall₂_trans @hRel h.parts h'.parts⟩

theorem Stmt.Alike.like (h : s.Alike Rel s') : s.Like Rel s' := by
  refine ⟨?_, h.parts⟩
  cases h with
  | decl _ hsame => exact congrArg Kind.decl hsame.name
  | _ => rfl

theorem Stmt.kind_erase (s : Stmt) : s.erase.kind = s.kind := by cases s <;> rfl

theorem Stmt.parts_erase (s : Stmt) : s.erase.parts = s.parts.map Expr.erase := by
  cases s with
  | ret value _ _ => cases value <;> rfl
  | _ => rfl

/-- Statements that differ in their bindings. -/
theorem Stmt.like_of_erase (h : s'.erase = s.erase) : s.Like (fun e e' => ∀ c, e.Refines c e') s' := by
  refine ⟨by rw [← Stmt.kind_erase s', h, Stmt.kind_erase], ?_⟩
  have hparts : s.parts.map Expr.erase = s'.parts.map Expr.erase := by
    rw [← Stmt.parts_erase, ← Stmt.parts_erase, h]
  have hsame := List.forall₂_map_right_iff.mp (List.forall₂_map_left_iff.mp
    (List.forall₂_eq_eq_eq ▸ hparts : List.Forall₂ Eq _ _))
  exact hsame.imp fun _ _ herase _ => Expr.refines_of_erase herase.symm

end Like

end Lode.Program
