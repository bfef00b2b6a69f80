/-
# The orders of grammar symbols

Terminals, symbols, items and path symbols are keys of sets and maps.  Their orders compare part by part, so
each of them is lawful because the orders of its parts are: only equal keys compare as equal, and comparison
is transitive.

Sets and maps are sorted lists, and all that is known of finding, adding and altering entries assumes a
lawful order. The orders themselves are defined by cases on the form of a symbol, as the derived orders of
the source are.  Rather than to go through these cases once for each law, every kind of key is sent to a
tuple of numbers and texts (`Terminal.key` and its kin) that is injective and compares in the same way, and
the laws are those of tuples (`transOrd_of_key`, `lawfulEqOrd_of_key`).
-/
import Lode.Grammar.Lookahead
import Lode.Proofs.Sorted

namespace Lode

open Std (TransOrd LawfulEqOrd)

attribute [local instance] lexOrd

/-! ## 1. Comparison through a key -/

/-- Pairs compare by their first parts, and by the second if these are equal. -/
theorem compare_pair {α β : Type} [Ord α] [Ord β] (a c : α) (b d : β) :
    compare (a, b) (c, d) = (compare a c).then (compare b d) := rfl

section Keys

variable {α κ : Type} [Ord α] [Ord κ] (key : α → κ)

/-- **An order through a key** is transitive if the order of keys is. -/
theorem transOrd_of_key [TransOrd κ] (h : ∀ a b, compare a b = compare (key a) (key b)) :
    TransOrd α where
  eq_swap {a b} := by rw [h, h]; exact Std.OrientedOrd.eq_swap
  isLE_trans {a b c} hab hbc := by
    rw [h] at hab hbc ⊢
    exact Std.TransCmp.isLE_trans hab hbc

/-- **An order through an injective key** compares only equal things as equal. -/
theorem lawfulEqOrd_of_key [LawfulEqOrd κ] (hkey : Function.Injective key)
    (h : ∀ a b, compare a b = compare (key a) (key b)) : LawfulEqOrd α where
  compare_self {a} := by rw [h]; exact Std.ReflOrd.compare_self
  eq_of_compare {a b} hab := hkey (Std.LawfulEqOrd.eq_of_compare ((h a b).symm.trans hab))

end Keys

/-! ## 2. Terminals and symbols -/

/-- The rank of a terminal's form, and its name. -/
def Terminal.key : Terminal → Nat × String
  | kind name => (0, name)
  | eof => (1, "")
  | empty => (2, "")

theorem Terminal.key_injective : Function.Injective Terminal.key := by
  intro a b h
  cases a <;> cases b <;> simp_all [key]

/-- Terminals compare as their keys do. -/
theorem Terminal.compare_eq_key (a b : Terminal) : compare a b = compare a.key b.key := by
  cases a with
  | kind a => cases b with
    | kind b => exact Ordering.then_eq
    | _ => rfl
  | eof => cases b <;> simp [key, compare_pair] <;> rfl
  | empty => cases b <;> simp [key, compare_pair] <;> rfl

instance : TransOrd Terminal := transOrd_of_key _ Terminal.compare_eq_key

instance : LawfulEqOrd Terminal := lawfulEqOrd_of_key _ Terminal.key_injective Terminal.compare_eq_key

/-- The rank of a symbol's form, and its parts. -/
def Symbol.key : Symbol → Nat × Terminal × String
  | terminal t => (0, t, "")
  | nonterminal name => (1, .empty, name)

theorem Symbol.key_injective : Function.Injective Symbol.key := by
  intro a b h
  cases a <;> cases b <;> simp_all [key]

/-- Symbols compare as their keys do. -/
theorem Symbol.compare_eq_key (a b : Symbol) : compare a b = compare a.key b.key := by
  cases a <;> cases b <;> simp [key, compare_pair]
  · exact Ordering.then_eq
  · rfl
  · rfl
  · exact Ordering.then_eq

theorem Symbol.compare_terminal (s t : Terminal) :
    compare (Symbol.terminal s) (.terminal t) = compare s t := Ordering.then_eq

instance : TransOrd Symbol := transOrd_of_key _ Symbol.compare_eq_key

instance : LawfulEqOrd Symbol := lawfulEqOrd_of_key _ Symbol.key_injective Symbol.compare_eq_key

/-- The entries of the nonterminals keep their values. -/
theorem find?_filterMap_nonterminal {α : Type} (name : String) : ∀ entries : List (Symbol × α),
    Sorted.find? name (entries.filterMap fun (symbol, value) =>
      symbol.nonterminal?.map fun name => (name, value)) = Sorted.find? (.nonterminal name) entries
  | [] => rfl
  | (.terminal t, a) :: entries => by
    rw [Sorted.find?_cons_ne (by simp), ← find?_filterMap_nonterminal name entries]
    rfl
  | (.nonterminal n, a) :: entries => by
    have ih := find?_filterMap_nonterminal name entries
    by_cases hn : name = n
    · subst hn
      rw [Sorted.find?_cons_self]
      exact Sorted.find?_cons_self _ _ _
    · rw [Sorted.find?_cons_ne (by simpa using hn), ← ih]
      exact Sorted.find?_cons_ne hn _ _

/-! ## 3. Items, path symbols and completions -/

/-- The parts of an item. -/
def Item.key (i : Item) : Nat × Nat := (i.rule, i.point)

theorem Item.key_injective : Function.Injective Item.key := by
  rintro ⟨_, _⟩ ⟨_, _⟩ h
  simpa [key] using h

theorem Item.compare_eq_key (a b : Item) : compare a b = compare a.key b.key := by
  change (compare a.rule b.rule).then ((compare a.point b.point).then .eq) = _
  simp only [key, compare_pair, Ordering.then_eq]

instance : TransOrd Item := transOrd_of_key _ Item.compare_eq_key

instance : LawfulEqOrd Item := lawfulEqOrd_of_key _ Item.key_injective Item.compare_eq_key

/-- The parts of a path symbol. -/
def PathSymbol.key (s : PathSymbol) : Nat × Symbol × Option Nat := (s.start, s.symbol, s.stop)

theorem PathSymbol.key_injective : Function.Injective PathSymbol.key := by
  rintro ⟨_, _, _⟩ ⟨_, _, _⟩ h
  simpa [key] using h

theorem PathSymbol.compare_eq_key (a b : PathSymbol) : compare a b = compare a.key b.key := by
  change (compare a.start b.start).then
    ((compare a.symbol b.symbol).then ((compare a.stop b.stop).then .eq)) = _
  simp only [key, compare_pair, Ordering.then_eq]

instance : TransOrd PathSymbol := transOrd_of_key _ PathSymbol.compare_eq_key

instance : LawfulEqOrd PathSymbol :=
  lawfulEqOrd_of_key _ PathSymbol.key_injective PathSymbol.compare_eq_key

/-- The parts of a completion. -/
def Completion.key (c : Completion) : Nat × Nat := (c.state, c.rule)

theorem Completion.key_injective : Function.Injective Completion.key := by
  rintro ⟨_, _⟩ ⟨_, _⟩ h
  simpa [key] using h

theorem Completion.compare_eq_key (a b : Completion) : compare a b = compare a.key b.key := by
  change (compare a.state b.state).then ((compare a.rule b.rule).then .eq) = _
  simp only [key, compare_pair, Ordering.then_eq]

instance : TransOrd Completion := transOrd_of_key _ Completion.compare_eq_key

instance : LawfulEqOrd Completion :=
  lawfulEqOrd_of_key _ Completion.key_injective Completion.compare_eq_key

end Lode
