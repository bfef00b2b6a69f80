/-
# Derivations

A rule expands its left-hand side to one symbol of each of its slots.  `Derives` is the usual relation:
expansions anywhere, any number of them.  `RightDerives` is a rightmost derivation with the rules it uses,
each of which expands the last nonterminal there is.

`Yields` reads a derivation as a tree: every symbol of a row yields a word of its own.  It is the form in
which a parser retraces a derivation (`yields_of_derives`).  The relation on rows has no structure to
follow, since an expansion may happen anywhere; the tree has one case for a terminal and one for a rule, and
the word of two rows is that of the first followed by that of the second (`Yields.split`), which is where a
parser stands between them.

The word is one of kinds of tokens, and an end terminal is not part of it.
-/
import Lode.Proofs.Grammar.Closure
import Mathlib.Data.List.Forall2
import Mathlib.Logic.Relation

namespace Lode

/-- One symbol of every slot of the right-hand side. -/
def Rule.Expands (rule : Rule) (choice : List Symbol) : Prop :=
  List.Forall₂ (fun slot X => X ∈ slot.symbols) rule.rhs choice

namespace Grammar

variable {g : Grammar}

/-! ## 1. Expansions -/

/-- What a rule expands to stands in a right-hand side. -/
theorem mem_rhsSymbols_of_expands {id : RuleId} {choice : List Symbol}
    (h : (g.rule id).Expands choice) {X : Symbol} (hX : X ∈ choice) :
    X ∈ rhsSymbols g.rules := by
  have general : ∀ {slots : List Slot} {choice : List Symbol},
      List.Forall₂ (fun slot X => X ∈ slot.symbols) slots choice → X ∈ choice →
      ∃ slot ∈ slots, X ∈ slot.symbols := by
    intro slots choice h
    induction h with
    | nil => simp
    | cons hslot _ ih =>
      intro hX
      rcases List.mem_cons.mp hX with rfl | hX
      · exact ⟨_, List.mem_cons_self, hslot⟩
      · obtain ⟨slot, hmem, hin⟩ := ih hX
        exact ⟨slot, List.mem_cons_of_mem _ hmem, hin⟩
  obtain ⟨slot, hmem, hin⟩ := general h hX
  exact mem_rhsSymbols hmem hin

/-- One expansion of a nonterminal by a rule. -/
inductive Rewrites (g : Grammar) : List Symbol → List Symbol → Prop
  | expand {id : RuleId} {choice : List Symbol} (front back : List Symbol) :
      id < g.rules.length → (g.rule id).Expands choice →
      Rewrites g (front ++ .nonterminal (g.rule id).lhs :: back) (front ++ choice ++ back)

/-- The word of terminals can be made from the row of symbols. -/
def Derives (g : Grammar) (row : List Symbol) (word : List Terminal) : Prop :=
  Relation.ReflTransGen g.Rewrites row (word.map .terminal)

/-- A rightmost derivation: nothing but terminals stands behind a nonterminal that is expanded.  The
list holds the rules in the order of their use. -/
inductive RightDerives (g : Grammar) : List RuleId → List Symbol → List Symbol → Prop
  | refl (row : List Symbol) : RightDerives g [] row row
  | expand {id : RuleId} {ids : List RuleId} {choice row : List Symbol} (front : List Symbol)
      (back : List Terminal) : id < g.rules.length → (g.rule id).Expands choice →
      RightDerives g ids (front ++ choice ++ back.map .terminal) row →
      RightDerives g (id :: ids) (front ++ .nonterminal (g.rule id).lhs :: back.map .terminal) row

theorem RightDerives.rewrites {ids : List RuleId} {row row' : List Symbol}
    (h : g.RightDerives ids row row') : Relation.ReflTransGen g.Rewrites row row' := by
  induction h with
  | refl => exact .refl
  | expand front back hid hchoice _ ih => exact .head (.expand front _ hid hchoice) ih

/-! ## 2. Words of a row -/

/-- The word that a row of symbols yields, symbol by symbol. -/
inductive Yields (g : Grammar) : List Symbol → List Terminal → Prop
  | nil : Yields g [] []
  | terminal {row : List Symbol} {word : List Terminal} (t : Terminal) :
      Yields g row word → Yields g (.terminal t :: row) (t :: word)
  | nonterminal {row choice : List Symbol} {word inner : List Terminal} (id : RuleId) :
      id < g.rules.length → (g.rule id).Expands choice → Yields g choice inner →
      Yields g row word → Yields g (.nonterminal (g.rule id).lhs :: row) (inner ++ word)

/-- Two rows yield their words one after the other. -/
theorem Yields.append {row row' : List Symbol} {word word' : List Terminal}
    (h : g.Yields row word) (h' : g.Yields row' word') : g.Yields (row ++ row') (word ++ word') := by
  induction h with
  | nil => exact h'
  | terminal t _ ih => exact .terminal t ih
  | nonterminal id hid hchoice hinner _ _ ih =>
    rw [List.append_assoc]
    exact .nonterminal id hid hchoice hinner ih

/-- The word of two rows is that of the first followed by that of the second. -/
theorem Yields.split : ∀ {front back : List Symbol} {word : List Terminal},
    g.Yields (front ++ back) word →
      ∃ u v, word = u ++ v ∧ g.Yields front u ∧ g.Yields back v
  | [], _, word, h => ⟨[], word, rfl, .nil, h⟩
  | X :: front, back, word, h => by
    rw [List.cons_append] at h
    cases h with
    | terminal t h =>
      obtain ⟨u, v, rfl, hu, hv⟩ := Yields.split h
      exact ⟨t :: u, v, rfl, .terminal t hu, hv⟩
    | nonterminal id hid hchoice hinner h =>
      obtain ⟨u, v, rfl, hu, hv⟩ := Yields.split h
      exact ⟨_ ++ u, v, by rw [List.append_assoc], .nonterminal id hid hchoice hinner hu, hv⟩

/-- Every terminal of a word stands in the row or in a right-hand side. -/
theorem Yields.mem {row : List Symbol} {word : List Terminal} (h : g.Yields row word)
    {t : Terminal} (ht : t ∈ word) : .terminal t ∈ row ∨ .terminal t ∈ rhsSymbols g.rules := by
  induction h with
  | nil => simp at ht
  | terminal u _ ih =>
    rcases List.mem_cons.mp ht with rfl | ht
    · exact .inl List.mem_cons_self
    · exact (ih ht).imp_left (List.mem_cons_of_mem _)
  | nonterminal _ _ hchoice _ _ ihinner ih =>
    rcases List.mem_append.mp ht with ht | ht
    · exact .inr ((ihinner ht).elim (mem_rhsSymbols_of_expands hchoice) id)
    · exact (ih ht).imp_left (List.mem_cons_of_mem _)

theorem Yields.of_terminals : ∀ word : List Terminal, g.Yields (word.map .terminal) word
  | [] => .nil
  | t :: word => .terminal t (Yields.of_terminals word)

/-- An expansion yields no more than the row before it. -/
theorem Yields.of_rewrites {row row' : List Symbol} {word : List Terminal}
    (h : g.Rewrites row row') (hy : g.Yields row' word) : g.Yields row word := by
  obtain ⟨front, back, hid, hchoice⟩ := h
  obtain ⟨uv, w, rfl, huv, hw⟩ := hy.split
  obtain ⟨u, v, rfl, hu, hv⟩ := huv.split
  rw [List.append_assoc]
  exact hu.append (.nonterminal _ hid hchoice hv hw)

/-- **Every derivation can be read as a tree.** -/
theorem yields_of_derives {row : List Symbol} {word : List Terminal} (h : g.Derives row word) :
    g.Yields row word := by
  unfold Derives at h
  induction h using Relation.ReflTransGen.head_induction_on with
  | refl => exact .of_terminals word
  | head hstep _ ih => exact .of_rewrites hstep ih

end Grammar

end Lode
