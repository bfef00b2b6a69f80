/-
# Paths through the automaton can be continued

An item stands for a rule of which some slots have been read.  A row of symbols supports it if the start
nonterminal derives a row in which the rule's left-hand side stands where the symbols read of it begin
(`Supports`).  Moves and predictions keep items supported, so every item of a state is supported by the
symbols along any path to the state (`LeadsTo.supported`).

A row that supports an item is the beginning of a row that the start nonterminal derives
(`Supports.complete`); and if every nonterminal derives a word, what the row derives is the beginning of a
word of the grammar.

Nothing is said of lookaheads here, and no table is needed.  The stack of a parser is a path through the
automaton whatever its actions were, and this is how it is known, when a token is rejected, that the tokens
before it could have been continued.  That every nonterminal derives a word is a condition on the grammar: a
nonterminal of which nothing comes could be on the stack, and no word would go on from there.
-/
import Lode.Proofs.Grammar.Automaton
import Lode.Proofs.Grammar.Derivation

namespace Lode

variable {g : Grammar} {a : Automaton}

/-! ## 1. Derivations in a context -/

namespace Grammar

/-- Any number of expansions. -/
abbrev Expands (g : Grammar) : List Symbol → List Symbol → Prop := Relation.ReflTransGen g.Rewrites

theorem Rewrites.append {row row' : List Symbol} (h : g.Rewrites row row') (front back : List Symbol) :
    g.Rewrites (front ++ row ++ back) (front ++ row' ++ back) := by
  obtain @⟨id, choice, before, after, hid, hchoice⟩ := h
  have := Rewrites.expand (g := g) (front ++ before) (after ++ back) hid hchoice
  simpa only [List.append_assoc, List.cons_append] using this

theorem Expands.append {row row' : List Symbol} (h : g.Expands row row') (front back : List Symbol) :
    g.Expands (front ++ row ++ back) (front ++ row' ++ back) :=
  h.lift (fun row => front ++ row ++ back) fun _ _ h => h.append front back

theorem Expands.concat {row row' more more' : List Symbol} (h : g.Expands row row')
    (h' : g.Expands more more') : g.Expands (row ++ more) (row' ++ more') := by
  have h₁ := h.append [] more
  have h₂ := h'.append row' []
  simp only [List.nil_append, List.append_nil] at h₁ h₂
  exact h₁.trans h₂

/-- A row of symbols derives a word if every one of its nonterminals does. -/
theorem exists_derives {row : List Symbol}
    (h : ∀ name, .nonterminal name ∈ row → ∃ word, g.Derives [.nonterminal name] word) :
    ∃ word, g.Derives row word := by
  induction row with
  | nil => exact ⟨[], .refl⟩
  | cons X row ih =>
    obtain ⟨word, hword⟩ := ih fun name hname => h name (List.mem_cons_of_mem _ hname)
    cases X with
    | terminal t => exact ⟨t :: word, @Expands.concat g [.terminal t] _ _ _ .refl hword⟩
    | nonterminal name =>
      obtain ⟨first, hfirst⟩ := h name List.mem_cons_self
      refine ⟨first ++ word, ?_⟩
      rw [Derives, List.map_append]
      exact Expands.concat hfirst hword

/-- The nonterminals of right-hand sides have rules. -/
theorem exists_rule {start : String} {rules : List Rule} {ends : List Terminal}
    (h : ofRules start rules ends = .ok g) {name : String} (hname : .nonterminal name ∈ rhsSymbols rules) :
    ∃ rule ∈ rules, rule.lhs = name := by
  have hundefined : undefinedNames rules = [] := by
    unfold ofRules at h
    split at h
    · rename_i hproblems _
      simpa using (List.append_eq_nil_iff.mp hproblems).2
    · cases h
  have hsome : rulesOf rules name ≠ [] := by
    intro hnone
    have hmem : name ∈ undefinedNames rules := by
      refine Sorted.mem_ofList.mpr (List.mem_filterMap.mpr ⟨_, hname, ?_⟩)
      simp [Symbol.nonterminal?, hnone]
    rw [hundefined] at hmem
    cases hmem
  obtain ⟨id, hid⟩ := List.exists_mem_of_ne_nil _ hsome
  obtain ⟨rule, hrule, hlhs⟩ := mem_rulesOf.mp hid
  exact ⟨rule, List.mem_of_getElem? hrule, hlhs⟩

/-! ## 2. Supported items -/

/-- A row ends with what has been read of an item, and the start nonterminal derives what stands before
it, followed by the left-hand side of the item. -/
def Supports (g : Grammar) (row : List Symbol) (i : Item) : Prop :=
  ∃ front read back, row = front ++ read ∧
    List.Forall₂ (fun slot X => X ∈ slot.symbols) ((g.rule i.rule).rhs.take i.point) read ∧
    g.Expands [.nonterminal g.start] (front ++ .nonterminal (g.rule i.rule).lhs :: back) ∧
    ∀ X ∈ back, X ∈ rhsSymbols g.rules

/-- Every slot has a symbol. -/
theorem exists_choice : ∀ slots : List Slot,
    ∃ choice, List.Forall₂ (fun slot X => X ∈ slot.symbols) slots choice
  | [] => ⟨[], .nil⟩
  | slot :: slots => by
    obtain ⟨X, hX⟩ := List.exists_mem_of_ne_nil _ slot.nonempty
    obtain ⟨choice, hchoice⟩ := exists_choice slots
    exact ⟨X :: choice, .cons hX hchoice⟩

theorem supports_start (hg : g.Proper) : g.Supports [] ⟨g.startRule, 0⟩ :=
  ⟨[], [], [], rfl, by simp, by rw [hg.lhs_startRule]; exact .refl, by simp⟩

/-- **A move** keeps an item supported, by the row with the symbol. -/
theorem Supports.advance {row : List Symbol} {i : Item} {X : Symbol} (h : g.Supports row i)
    (hbefore : i.Before g X) : g.Supports (row ++ [X]) i.advance := by
  obtain ⟨front, read, back, rfl, hread, hderives, hback⟩ := h
  obtain ⟨slot, hslot, hX⟩ := hbefore
  refine ⟨front, read ++ [X], back, by rw [List.append_assoc], ?_, hderives, hback⟩
  have htake : (g.rule i.rule).rhs.take (i.point + 1) = (g.rule i.rule).rhs.take i.point ++ [slot] := by
    rw [List.take_add_one]
    exact congrArg (_ ++ Option.toList ·) hslot
  rw [Item.advance, htake]
  exact List.rel_append hread (.cons hX .nil)

/-- What is still to be read of a supported item can be put behind the row. -/
theorem Supports.complete {row : List Symbol} {i : Item} (h : g.Supports row i) (hi : i.Valid g)
    {rest : List Symbol}
    (hrest : List.Forall₂ (fun slot X => X ∈ slot.symbols) ((g.rule i.rule).rhs.drop i.point) rest) :
    ∃ back, g.Expands [.nonterminal g.start] (row ++ rest ++ back) ∧
      ∀ X ∈ rest ++ back, X ∈ rhsSymbols g.rules := by
  obtain ⟨front, read, back, rfl, hread, hderives, hback⟩ := h
  have hchoice : (g.rule i.rule).Expands (read ++ rest) := by
    unfold Rule.Expands
    rw [← List.take_append_drop i.point (g.rule i.rule).rhs]
    exact List.rel_append hread hrest
  refine ⟨back, ?_, ?_⟩
  · have hexpand := hderives.tail (Rewrites.expand front back hi.1 hchoice)
    simpa only [List.append_assoc] using hexpand
  · intro X hX
    rcases List.mem_append.mp hX with hX | hX
    · exact mem_rhsSymbols_of_expands hchoice (List.mem_append_right _ hX)
    · exact hback X hX

/-- **A prediction** keeps items supported, by the same row. -/
theorem Supports.predict {row : List Symbol} {i : Item} {id : RuleId} (h : g.Supports row i)
    (hi : i.Valid g) (hbefore : i.Before g (.nonterminal (g.rule id).lhs)) :
    g.Supports row ⟨id, 0⟩ := by
  obtain ⟨slot, hslot, hX⟩ := hbefore
  obtain ⟨choice, hchoice⟩ := exists_choice ((g.rule i.rule).rhs.drop (i.point + 1))
  have hrest : List.Forall₂ (fun slot X => X ∈ slot.symbols) ((g.rule i.rule).rhs.drop i.point)
      (.nonterminal (g.rule id).lhs :: choice) := by
    obtain ⟨hlt, rfl⟩ := List.getElem?_eq_some_iff.mp hslot
    rw [List.drop_eq_getElem_cons hlt]
    exact .cons hX hchoice
  obtain ⟨back, hderives, hback⟩ := h.complete hi hrest
  refine ⟨row, [], choice ++ back, by simp, by simp, ?_, ?_⟩
  · simpa only [List.append_assoc, List.cons_append] using hderives
  · intro X hX
    exact hback X (by rw [List.cons_append]; exact List.mem_cons_of_mem _ hX)

theorem Predicts.supported {kernel : Item → Prop} {row : List Symbol}
    (hkernel : ∀ i, kernel i → g.Supports row i ∧ i.Valid g) {i : Item} (h : g.Predicts kernel i) :
    g.Supports row i ∧ i.Valid g := by
  induction h with
  | kernel h => exact hkernel _ h
  | rule _ hid hbefore ih => exact ⟨ih.1.predict ih.2 hbefore, hid, Nat.zero_le _⟩

end Grammar

/-! ## 3. Paths -/

namespace Automaton

/-- The state is reached from state zero over a row of symbols. -/
inductive LeadsTo (a : Automaton) : StateId → List Symbol → Prop
  | nil : LeadsTo a 0 []
  | concat {s t : StateId} {row : List Symbol} {X : Symbol} : LeadsTo a s row → a.goto? s X = some t →
      LeadsTo a t (row ++ [X])

theorem Tracks.valid_start (ha : a.Tracks g) : (⟨g.startRule, 0⟩ : Item).Valid g :=
  ha.valid ((ha.start _).mpr (.kernel rfl))

/-- **The items of a state are supported** by every row that leads to it. -/
theorem LeadsTo.supported (ha : a.Tracks g) (hg : g.Proper) {s : StateId} {row : List Symbol}
    (h : a.LeadsTo s row) : ∀ i ∈ a.items s, g.Supports row i := by
  induction h with
  | nil =>
    intro i hi
    refine (Grammar.Predicts.supported ?_ ((ha.start i).mp hi)).1
    rintro _ rfl
    exact ⟨Grammar.supports_start hg, ha.valid_start⟩
  | concat _ hgoto ih =>
    intro i hi
    refine (Grammar.Predicts.supported ?_ ((ha.target hgoto i).mp hi)).1
    rintro _ ⟨j, hj, hbefore, rfl⟩
    exact ⟨(ih j hj).advance hbefore, ha.valid (ha.advance_mem hj hbefore hgoto)⟩

/-- A state that a row leads to has items. -/
theorem LeadsTo.exists_item (ha : a.Tracks g) {s : StateId} {row : List Symbol} (h : a.LeadsTo s row) :
    ∃ i, i ∈ a.items s := by
  cases h with
  | nil => exact ⟨_, (ha.start _).mpr (.kernel rfl)⟩
  | concat _ hgoto =>
    obtain ⟨i, hi, hbefore⟩ := ha.before hgoto
    exact ⟨_, ha.advance_mem hi hbefore hgoto⟩

/-- What leads to a state is the beginning of a row that the start nonterminal derives. -/
theorem LeadsTo.viable (ha : a.Tracks g) (hg : g.Proper) {s : StateId} {row : List Symbol}
    (h : a.LeadsTo s row) :
    ∃ back, g.Expands [.nonterminal g.start] (row ++ back) ∧ ∀ X ∈ back, X ∈ Grammar.rhsSymbols g.rules := by
  obtain ⟨i, hi⟩ := h.exists_item ha
  obtain ⟨rest, hrest⟩ := Grammar.exists_choice ((g.rule i.rule).rhs.drop i.point)
  obtain ⟨back, hderives, hback⟩ := (h.supported ha hg i hi).complete (ha.valid hi) hrest
  exact ⟨rest ++ back, by rwa [← List.append_assoc], hback⟩

end Automaton

end Lode
