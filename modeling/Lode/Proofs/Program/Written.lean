/-
# Written programs

A program as it stands in a text: no types, bindings, symbols or sections are known, no scopes are explicit,
and none of the forms that passes introduce occur.  Names hold no dots, and literals are numbers whose
negation is a word of eight bytes too.

Every one of these conditions is used.  That nothing is known lets a pass that adds something be described
from scratch.  That names hold no dots is what keeps the symbols of different items apart, since these are
made of names and dots.  And the negation of a literal is a word because simplification puts the literal of
a negated literal in its place, without a check that it fits.

A written program mentions no symbols (`Written.unbound`), so it is where the invariant of the passes
begins.
-/
import Lode.Proofs.Language.Names
import Lode.Proofs.Program.Sequence
import Lode.Proofs.Program.Symbols

namespace Lode.Program

open Lode.Language (dotless)

/-! ## 1. Expressions -/

/-- A number whose negation is a word of eight bytes as well. -/
def IsLiteral (value : Int) : Prop := -0x8000000000000000 < value ∧ value < 0x8000000000000000

/-- Whether members can be taken of an expression, and whether it can be called. -/
def Expr.isPostfix : Expr → Bool
  | .ident _ _ _ _ | .member _ _ _ | .call _ _ _ _ _ => true
  | _ => false

mutual

/-- An expression as it is written. -/
def Expr.Written : Expr → Prop
  | .number value type _ => type = none ∧ IsLiteral value
  | .string _ type _ => type = none
  | .ident _ binding type _ => binding = none ∧ type = none
  | .member target _ _ => target.isPostfix = true ∧ target.Written
  | .call target args callee type _ =>
    target.isPostfix = true ∧ target.Written ∧ args.Written ∧ callee = none ∧ type = none
  | .binop _ lhs rhs type _ => lhs.Written ∧ rhs.Written ∧ type = none
  | .neg operand type _ => operand.Written ∧ type = none
  | .deref target type _ => target.Written ∧ type = none
  | .paren inner _ => inner.Written
  | .intrinsic _ _ _ | .cell _ _ _ _ | .immediate _ _ _ | .returned _ _ => False

/-- Arguments as they are written. -/
def Args.Written : Args → Prop
  | .nil => True
  | .cons arg rest _ => arg.Written ∧ rest.Written

end

/-- Arguments in a chain of new cells. -/
def Args.ofList : List Expr → Args
  | [] => .nil
  | e :: rest => .cons e (ofList rest) (joinSpan e.node.span (ofList rest).node?)

/-- A sequence of the nodes of expressions is a chain of arguments. -/
theorem Args.sequence_eq : ∀ l : List Expr,
    Node.sequence .args (l.map Expr.node) none = (Args.ofList l).node?
  | [] => rfl
  | e :: rest => by
    have ih := sequence_eq rest
    simp only [Node.sequence, Tag.element?, List.map_cons, List.foldr_cons] at ih ⊢
    rw [ih, Args.ofList, Args.node?]
    cases (ofList rest).node? <;> rfl

theorem Args.written_ofList : ∀ {l : List Expr}, (∀ e ∈ l, e.Written) → (Args.ofList l).Written
  | [], _ => trivial
  | _ :: _, h =>
    have ⟨he, hrest⟩ := List.forall_mem_cons.mp h
    ⟨he, written_ofList hrest⟩

/-! ## 2. Statements -/

/-- A type as it is written, by its name or as an address. -/
def TypeExpr.Written : TypeExpr → Prop
  | .name _ _ => True
  | .ref target _ => target.Written
  | .info _ _ => False

/-- A declaration as it is written. -/
structure Let.Written (d : Let) : Prop where
  name : dotless d.name = true
  ty : d.ty.Written
  value : d.value.Written
  symbol : d.symbol = none
  place : d.place = none
  type : d.type = none

/-- A statement as it is written. -/
def Stmt.Written : Stmt → Prop
  | .decl d => d.Written
  | .set lvalue rvalue type _ => lvalue.Written ∧ rvalue.Written ∧ type = none
  | .ret value type _ => (∀ e ∈ value, e.Written) ∧ type = none
  | .expr e => e.Written
  | _ => False

/-- Statements as they are written. -/
def Stmts.Written (stmts : Stmts) : Prop := ∀ s ∈ stmts.toList, s.Written

/-- Whether an expression can be assigned to. -/
def Expr.isAssignable : Expr → Bool
  | .ident _ _ _ _ | .deref _ _ _ => true
  | _ => false

/-- A statement that is an assignment is one to a name or to a dereference. -/
def Stmt.Assigns : Stmt → Prop
  | .set lvalue _ _ _ => lvalue.isAssignable = true
  | _ => True

/-! ## 3. Items -/

/-- A parameter as it is written. -/
structure Param.Written (p : Param) : Prop where
  name : dotless p.name = true
  symbol : p.symbol = none

/-- A function as it is written. -/
structure Function.Written (f : Function) : Prop where
  name : dotless f.name = true
  params : ∀ p ∈ f.params.map Prod.fst, p.Written
  body : f.body.Written
  symbol : f.symbol = none
  type : f.type = none
  locals : f.locals = none
  frame : f.frame = {}

/-- An item as it is written. -/
def Item.Written : Item → Prop
  | .use name _ => dotless name = true
  | .constant name _ value symbol _ => dotless name = true ∧ value.Written ∧ symbol = none
  | .global (.decl d) => d.Written
  | .function f => f.Written
  | _ => False

/-- The functions of an item assign to names and dereferences. -/
def Item.Assigns : Item → Prop
  | .function f => ∀ s ∈ f.body.toList, s.Assigns
  | _ => True

end Lode.Program

namespace Lode

open Program

/-- A unit as it is written. -/
structure Program.Written (p : Program) : Prop where
  items : ∀ i ∈ p.items.map (·.1), i.Written
  frame : p.frame = {}

/-- A unit whose functions assign to names and dereferences. -/
def Program.Assigns (p : Program) : Prop := ∀ i ∈ p.items.map (·.1), i.Assigns

namespace Program

/-! ## 4. Written programs mention no symbols -/

mutual

/-- A written expression mentions no symbol. -/
theorem Expr.Written.linked (S : Symbols) : ∀ {e : Expr}, e.Written → e.Linked S
  | .number _ _ _, _ => trivial
  | .string _ _ _, _ => trivial
  | .ident _ _ _ _, ⟨rfl, rfl⟩ => ⟨by simp, by simp⟩
  | .member target _ _, h => Expr.Written.linked S (e := target) h.2
  | .call _ _ _ _ _, ⟨_, ht, hargs, rfl, _⟩ =>
    ⟨Expr.Written.linked S ht, Args.Written.linked S hargs, by simp⟩
  | .binop _ _ _ _ _, ⟨hl, hr, _⟩ => ⟨Expr.Written.linked S hl, Expr.Written.linked S hr⟩
  | .neg operand _ _, ⟨ho, _⟩ => Expr.Written.linked S (e := operand) ho
  | .deref target _ _, ⟨ht, _⟩ => Expr.Written.linked S (e := target) ht
  | .paren inner _, h => Expr.Written.linked S (e := inner) h

theorem Args.Written.linked (S : Symbols) : ∀ {args : Args}, args.Written → args.Linked S
  | .nil, _ => trivial
  | .cons _ _ _, ⟨harg, hrest⟩ => ⟨Expr.Written.linked S harg, Args.Written.linked S hrest⟩

end

/-- A written statement has no scopes and mentions no symbol. -/
theorem Stmt.Written.keeps {s : Stmt} (h : s.Written) :
    s.isSource = true ∧ s.Linked {} ∧ s.frames = [] := by
  cases s with
  | decl d => exact ⟨rfl, ⟨h.value.linked _, fun ht => by rw [h.type] at ht; cases ht⟩, rfl⟩
  | set _ _ _ _ => exact ⟨rfl, ⟨h.1.linked _, h.2.1.linked _⟩, rfl⟩
  | ret _ _ _ => exact ⟨rfl, fun e he => (h.1 e he).linked _, rfl⟩
  | expr e => exact ⟨rfl, Expr.Written.linked _ (e := e) h, rfl⟩
  | _ => cases h

/-- Written statements have no scopes and mention no symbol. -/
theorem Stmts.Written.keeps : ∀ {stmts : Stmts}, stmts.Written →
    stmts.isSource = true ∧ stmts.Linked {} ∧ stmts.frames = []
  | .nil, _ => ⟨rfl, trivial, rfl⟩
  | .cons s rest _, h => by
    obtain ⟨hs, hrest⟩ := List.forall_mem_cons.mp h
    obtain ⟨hs1, hs2, hs3⟩ := hs.keeps
    obtain ⟨hr1, hr2, hr3⟩ := Stmts.Written.keeps hrest
    exact ⟨Bool.and_eq_true_iff.mpr ⟨hs1, hr1⟩, ⟨hs2, hr2⟩, by rw [Stmts.frames, hs3, hr3]; rfl⟩

/-- A written item has empty frames and mentions no symbol. -/
theorem Item.Written.keeps {i : Item} (h : i.Written) :
    i.isSource = true ∧ i.Linked {} ∧ ∀ frame ∈ i.frames, frame = {} := by
  cases i with
  | use _ _ => exact ⟨rfl, trivial, by simp [Item.frames]⟩
  | constant _ _ _ _ _ => exact ⟨rfl, h.2.1.linked _, by simp [Item.frames]⟩
  | global s =>
    cases s with
    | decl d => exact ⟨rfl, (Stmt.Written.keeps (s := .decl d) h).2.1, by simp [Item.frames, Stmt.frames]⟩
    | _ => cases h
  | function f =>
    obtain ⟨h1, h2, h3⟩ := h.body.keeps
    refine ⟨by simp [Item.isSource, h1, h.locals], ⟨h2, ?_⟩, by simp [Item.frames, h3, h.frame]⟩
    simp [Locals.Filled, h.locals]
  | compiled _ _ _ _ _ => cases h

/-- **Written programs are unbound.** -/
theorem Written.unbound {p : Program} (h : p.Written) : p.Unbound where
  source entry hentry := (h.items _ (List.mem_map_of_mem hentry)).keeps.1
  linked entry hentry := (h.items _ (List.mem_map_of_mem hentry)).keeps.2.1
  frame := h.frame ▸ Frame.linked_empty _
  frames frame hframe := by
    obtain ⟨entry, hentry, hframe⟩ := List.mem_flatMap.mp hframe
    rw [(h.items _ (List.mem_map_of_mem hentry)).keeps.2.2 frame hframe]
    exact Frame.linked_empty _

end Program

end Lode
