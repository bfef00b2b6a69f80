/-
# Weights of grammar symbols

How many reductions can a parser make between two tokens?  Empty rules put symbols on the stack out of
nothing, so the length of the stack does not answer this.  Weights do.  A symbol weighs something on the
stack and something more, its spare weight, as long as it is on top.  An empty rule is paid for with the
spare weight of the symbol below it, all other rules with the symbols that they replace; then every
reduction makes the stack lighter (`Fits.reduce`).

What has to be paid on top of a symbol is found without looking at states.  The credit of a nonterminal is
what it takes to begin reading it, and a symbol has to have credit to spare for every nonterminal that may
come next in a rule (`Fits.wants_le`).  So it can be checked rule by rule whether weights fit.

Such weights do not exist for every grammar: one with a rule that replaces a nonterminal by itself has none.
Where they exist they bound the steps of a parser on any text by a constant for each token, whether the text
is accepted or not.
-/
import Lode.Proofs.Grammar.Automaton
import Lode.Proofs.Grammar.Derivation
import Mathlib.Algebra.GroupWithZero.Nat

namespace Lode

/-- Weights of the symbols on a stack. -/
structure Weights where
  /-- What a symbol weighs. -/
  below : Symbol → Nat
  /-- What a symbol weighs in addition as long as it is on top. -/
  spare : Symbol → Nat
  /-- What is spent at most on empty rules before the first token of a nonterminal. -/
  credit : String → Nat
  /-- What an empty stack weighs. -/
  bottom : Nat

namespace Weights

variable (w : Weights)

/-! ## 1. Rows of symbols -/

/-- What a symbol weighs on top. -/
def top (X : Symbol) : Nat := w.below X + w.spare X

/-- What a row of symbols weighs if others are on top of it. -/
def load (row : List Symbol) : Nat := (row.map w.below).sum

/-- What can be spent on top of a row of symbols, the last one first. -/
def spareOver : List Symbol → Nat
  | [] => w.bottom
  | X :: _ => w.spare X

/-- What a row of symbols weighs, the last one first. -/
def weight (row : List Symbol) : Nat := w.load row + w.spareOver row

@[simp] theorem load_cons (X : Symbol) (row : List Symbol) : w.load (X :: row) = w.below X + w.load row := by
  rw [load, List.map_cons, List.sum_cons, load]

theorem weight_cons (X : Symbol) (row : List Symbol) : w.weight (X :: row) = w.top X + w.load row := by
  rw [weight, load_cons, spareOver, top]
  omega

/-! ## 2. Weights that fit -/

/-- The credit of a symbol.  Tokens need none. -/
def wants : Symbol → Nat
  | .terminal _ => 0
  | .nonterminal name => w.credit name

/-- The least value among the symbols of a slot. -/
def least (value : Symbol → Nat) (slot : Slot) : Nat := (slot.symbols.map value).min?.getD 0

/-- The least weight of a right-hand side. -/
def leastRow : List Slot → Nat
  | [] => 0
  | [slot] => least w.top slot
  | slot :: slots => least w.below slot + leastRow slots

/-- Rule by rule, the symbols of a grammar have what has to be spent on top of them, and what a rule
makes is lighter than what it is made of. -/
def Fits (start : String) (rules : List Rule) : Prop :=
  w.credit start ≤ w.bottom ∧
  (∀ rule ∈ rules, ∀ slot ∈ rule.rhs.take 1, ∀ X ∈ slot.symbols, w.wants X ≤ w.credit rule.lhs) ∧
  (∀ rule ∈ rules, ∀ pair ∈ rule.rhs.zip rule.rhs.tail, ∀ X ∈ pair.1.symbols, ∀ Y ∈ pair.2.symbols,
    w.wants Y ≤ w.spare X) ∧
  ∀ rule ∈ rules, rule.lhs ≠ start →
    w.top (.nonterminal rule.lhs) < if rule.rhs = [] then w.credit rule.lhs else w.leastRow rule.rhs

instance (start : String) (rules : List Rule) : Decidable (w.Fits start rules) :=
  inferInstanceAs (Decidable (_ ∧ _ ∧ _ ∧ _))

variable {w}

theorem least_le {value : Symbol → Nat} {slot : Slot} {X : Symbol} (h : X ∈ slot.symbols) :
    least value slot ≤ value X :=
  List.min?_getD_le_of_mem (List.mem_map_of_mem h)

/-- A choice of symbols weighs at least as much as the lightest one. -/
theorem leastRow_le : ∀ {slots : List Slot} {choice : List Symbol},
    List.Forall₂ (fun slot X => X ∈ slot.symbols) slots choice → slots ≠ [] → ∀ row,
    w.leastRow slots + w.load row ≤ w.weight (choice.reverse ++ row)
  | [slot], [X], .cons hX .nil, _, row => by
    rw [List.reverse_singleton, List.singleton_append, weight_cons, leastRow]
    exact Nat.add_le_add_right (least_le hX) _
  | slot :: next :: slots, X :: choice, .cons hX hrest, _, row => by
    have ih := leastRow_le hrest (List.cons_ne_nil _ _) (X :: row)
    have hleast := @least_le w.below _ _ hX
    rw [List.reverse_cons, List.append_assoc, List.singleton_append]
    rw [load_cons] at ih
    rw [leastRow]
    · omega
    · exact List.cons_ne_nil _ _

namespace Fits

variable {g : Grammar} {a : Automaton} (h : w.Fits g.start g.rules)
include h

/-- What stands in a right-hand side after its beginning is paid for by the symbol before it. -/
theorem wants_le_spare {i : Item} {X Y : Symbol} (hvalid : i.Valid g) (hX : i.Before g X)
    (hY : i.advance.Before g Y) : w.wants Y ≤ w.spare X := by
  obtain ⟨slot, hslot, hX⟩ := hX
  obtain ⟨next, hnext, hY⟩ := hY
  have hpair : (slot, next) ∈ (g.rule i.rule).rhs.zip (g.rule i.rule).rhs.tail := by
    refine List.mem_of_getElem? (i := i.point) (List.getElem?_zip_eq_some.mpr ⟨hslot, ?_⟩)
    rw [List.getElem?_tail]
    exact hnext
  exact h.2.2.1 _ (Grammar.rule_mem hvalid.1) _ hpair _ hX _ hY

/-- What begins a right-hand side is paid for with the credit of the left-hand side. -/
theorem wants_le_credit {id : RuleId} (hid : id < g.rules.length) {X : Symbol}
    (hX : (⟨id, 0⟩ : Item).Before g X) : w.wants X ≤ w.credit (g.rule id).lhs := by
  obtain ⟨slot, hslot, hX⟩ := hX
  have hfirst : (g.rule id).rhs[0]? = some slot := hslot
  refine h.2.1 _ (Grammar.rule_mem hid) slot ?_ X hX
  cases hrhs : (g.rule id).rhs with
  | nil => simp [hrhs] at hfirst
  | cons first rest => simpa [hrhs] using hfirst.symm

/-- What items predict needs no more credit than they do. -/
theorem wants_le_of_predicts {kernel : Item → Prop} {n : Nat}
    (hkernel : ∀ i, kernel i → ∀ X, i.Before g X → w.wants X ≤ n) {i : Item} (hi : g.Predicts kernel i) :
    ∀ X, i.Before g X → w.wants X ≤ n := by
  induction hi with
  | kernel hi => exact hkernel _ hi
  | rule _ hid hbefore ih => exact fun X hX => Nat.le_trans (h.wants_le_credit hid hX) (ih _ hbefore)

/-- **Credit is covered.**  Whatever a state can go on with is paid for by the symbol that led to it, or
by the empty stack. -/
theorem wants_le (ha : a.Tracks g) (hg : g.Proper) :
    (∀ i ∈ a.items 0, ∀ X, i.Before g X → w.wants X ≤ w.bottom) ∧
    ∀ {s t Y}, a.goto? s Y = some t → ∀ i ∈ a.items t, ∀ X, i.Before g X → w.wants X ≤ w.spare Y := by
  constructor
  · intro i hi
    refine h.wants_le_of_predicts ?_ ((ha.start i).mp hi)
    rintro _ rfl X hX
    have hcredit := h.wants_le_credit hg.startRule_lt hX
    rw [hg.lhs_startRule] at hcredit
    exact Nat.le_trans hcredit h.1
  · intro s t Y hgoto i hi
    refine h.wants_le_of_predicts ?_ ((ha.target hgoto i).mp hi)
    rintro _ ⟨j, hj, hY, rfl⟩ X hX
    exact h.wants_le_spare (ha.valid hj) hY hX

/-- **Reductions make the stack lighter.**  For an empty rule this takes the credit of its left-hand
side. -/
theorem reduce {id : RuleId} (hid : id < g.rules.length) (hstart : (g.rule id).lhs ≠ g.start)
    {choice row : List Symbol} (hchoice : (g.rule id).Expands choice)
    (hcredit : w.credit (g.rule id).lhs ≤ w.spareOver row ∨ choice ≠ []) :
    w.weight (.nonterminal (g.rule id).lhs :: row) < w.weight (choice.reverse ++ row) := by
  have hfalls := h.2.2.2 _ (Grammar.rule_mem hid) hstart
  rw [weight_cons]
  split at hfalls
  · rename_i hnil
    unfold Rule.Expands at hchoice
    rw [hnil] at hchoice
    obtain rfl := List.forall₂_nil_left_iff.mp hchoice
    rw [List.reverse_nil, List.nil_append, weight]
    have := hcredit.resolve_right (by simp)
    omega
  · rename_i hne
    have := @leastRow_le w _ _ hchoice hne row
    omega

end Fits

end Weights

end Lode
