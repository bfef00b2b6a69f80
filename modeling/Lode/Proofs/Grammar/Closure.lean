/-
# Closures of item sets

`Grammar.closure` adds what its items predict, round by round.  Here it is compared with prediction as a
relation: an item belongs to the closure exactly if a chain of predictions leads to it from the kernel
(`mem_closure`).

The rounds are bounded by the number of rules.  They suffice because every round but the last finds a rule
whose item with the point in front was not in the set before: what is predicted is always an item with the
point in front, so there are no more of these than rules.  The count has to be made of rules and not of
items, since the kernel may hold any number of items whose points have moved on.

A set of items is a list in increasing order, and the closure of one is one (`increasing_closure`), so that
two states are the same exactly if their lists are.
-/
import Lode.Proofs.Grammar.Order
import Mathlib.Data.Finset.Card
import Mathlib.Data.Finset.Range

namespace Lode

/-! ## 1. Rules and items -/

/-- The rules of a nonterminal are those whose left-hand side it is. -/
theorem Grammar.mem_rulesOf {rules : List Rule} {name : String} {id : RuleId} :
    id ∈ rulesOf rules name ↔ ∃ rule, rules[id]? = some rule ∧ rule.lhs = name := by
  simp only [rulesOf, List.mem_map, List.mem_filter, beq_iff_eq, Prod.exists]
  constructor
  · rintro ⟨rule, i, ⟨hmem, hname⟩, rfl⟩
    exact ⟨rule, List.mem_zipIdx_iff_getElem?.mp hmem, hname⟩
  · rintro ⟨rule, hrule, hname⟩
    exact ⟨rule, id, ⟨List.mem_zipIdx_iff_getElem?.mpr hrule, hname⟩, rfl⟩

theorem Grammar.rule_eq_of_getElem? {g : Grammar} {id : RuleId} {rule : Rule}
    (h : g.rules[id]? = some rule) : g.rule id = rule := by
  simp [Grammar.rule, h]

theorem Grammar.rule_mem {g : Grammar} {id : RuleId} (h : id < g.rules.length) : g.rule id ∈ g.rules := by
  rw [rule, List.getElem?_eq_getElem h]
  exact List.getElem_mem h

theorem Grammar.mem_productionsOf {g : Grammar} {name : String} {id : RuleId} :
    id ∈ g.productionsOf name ↔ id < g.rules.length ∧ (g.rule id).lhs = name := by
  unfold productionsOf
  rw [mem_rulesOf]
  constructor
  · rintro ⟨rule, hrule, hname⟩
    exact ⟨(List.getElem?_eq_some_iff.mp hrule).1, by rw [rule_eq_of_getElem? hrule, hname]⟩
  · rintro ⟨hlt, hname⟩
    refine ⟨_, List.getElem?_eq_getElem hlt, ?_⟩
    rwa [rule_eq_of_getElem? (List.getElem?_eq_getElem hlt)] at hname

theorem Symbol.nonterminal?_eq_some {s : Symbol} {name : String} :
    s.nonterminal? = some name ↔ s = .nonterminal name := by
  cases s <;> simp [nonterminal?]

theorem Item.mem_expected {g : Grammar} {item : Item} {name : String} :
    name ∈ item.expected g ↔ ∃ slot, item.next? g = some slot ∧ .nonterminal name ∈ slot.symbols := by
  unfold Item.expected
  cases h : item.next? g with
  | none => simp
  | some slot => simp [List.mem_filterMap, Symbol.nonterminal?_eq_some]

/-- The item has the point before a slot with the given symbol. -/
def Item.Before (g : Grammar) (item : Item) (symbol : Symbol) : Prop :=
  ∃ slot, item.next? g = some slot ∧ symbol ∈ slot.symbols

/-- An item predicts the rules of the nonterminals behind its point, untouched. -/
theorem Item.mem_predicted {g : Grammar} {item other : Item} :
    other ∈ item.predicted g ↔ ∃ id, other = ⟨id, 0⟩ ∧ id < g.rules.length ∧
      item.Before g (.nonterminal (g.rule id).lhs) := by
  simp only [Item.predicted, List.mem_flatMap, List.mem_map, Item.mem_expected,
    Grammar.mem_productionsOf]
  constructor
  · rintro ⟨name, hname, id, ⟨hlt, hlhs⟩, rfl⟩
    exact ⟨id, rfl, hlt, by rw [hlhs]; exact hname⟩
  · rintro ⟨id, rfl, hlt, hbefore⟩
    exact ⟨_, hbefore, id, ⟨hlt, rfl⟩, rfl⟩

/-- What stands in a slot stands in a right-hand side. -/
theorem Grammar.mem_rhsSymbols {g : Grammar} {id : RuleId} {slot : Slot} {X : Symbol}
    (hslot : slot ∈ (g.rule id).rhs) (hX : X ∈ slot.symbols) : X ∈ rhsSymbols g.rules := by
  unfold Grammar.rule at hslot
  cases hrule : g.rules[id]? with
  | none => simp [hrule] at hslot
  | some rule =>
    rw [hrule, Option.getD_some] at hslot
    exact List.mem_flatMap.mpr ⟨rule, List.mem_of_getElem? hrule,
      List.mem_flatMap.mpr ⟨slot, hslot, hX⟩⟩

theorem Item.Before.mem_rhsSymbols {g : Grammar} {item : Item} {X : Symbol}
    (h : item.Before g X) : X ∈ Grammar.rhsSymbols g.rules := by
  obtain ⟨slot, hslot, hX⟩ := h
  exact Grammar.mem_rhsSymbols (List.mem_of_getElem? hslot) hX

/-- A grammar as `Grammar.ofRules` makes it: there is one start rule, and the end terminals are in
order. -/
structure Grammar.Proper (g : Grammar) : Prop where
  startRule_lt : g.startRule < g.rules.length
  lhs_startRule : (g.rule g.startRule).lhs = g.start
  startRule_unique : ∀ id, id < g.rules.length → (g.rule id).lhs = g.start → id = g.startRule
  ends : Sorted.Increasing g.ends

/-- A grammar has the rules and the end terminals that it is made of, and one start rule. -/
theorem Grammar.ofRules_eq {start : String} {rules : List Rule} {ends : List Terminal}
    {g : Grammar} (h : ofRules start rules ends = .ok g) :
    g.start = start ∧ g.rules = rules ∧ g.ends = Sorted.ofList ends ∧
      rulesOf rules start = [g.startRule] := by
  unfold ofRules at h
  split at h
  · rename_i id ids hproblems hrules
    obtain rfl := Except.ok.inj h
    refine ⟨rfl, rfl, rfl, ?_⟩
    cases ids with
    | nil => exact hrules
    | cons id' ids => simp [problems, hrules] at hproblems
  · simp at h

/-- A grammar that is made of rules is proper. -/
theorem Grammar.proper_ofRules {start : String} {rules : List Rule} {ends : List Terminal}
    {g : Grammar} (h : ofRules start rules ends = .ok g) : g.Proper := by
  obtain ⟨rfl, rfl, hends, hrules⟩ := ofRules_eq h
  have hmem : ∀ id, id < g.rules.length ∧ (g.rule id).lhs = g.start ↔ id = g.startRule := by
    intro id
    rw [← mem_productionsOf, productionsOf, hrules, List.mem_singleton]
  refine ⟨((hmem _).mpr rfl).1, ((hmem _).mpr rfl).2, fun id hlt hlhs => (hmem id).mp ⟨hlt, hlhs⟩,
    ?_⟩
  rw [hends]
  exact Sorted.increasing_ofList ends

/-- A list of letters, which may be empty. -/
def Grammar.letters : Grammar :=
  ⟨"text", [⟨"text", [.one (.nonterminal "letters")], none, false, none, none⟩,
    ⟨"letters", [], none, false, none, none⟩,
    ⟨"letters", [.one (.nonterminal "letters"), .one (.terminal (.kind "letter"))], none, false, none, none⟩],
    [.eof], 0⟩

theorem Grammar.ofRules_letters : ofRules "text" letters.rules [.eof] = .ok letters := rfl

/-! ## 2. Prediction -/

/-- What a set of items predicts: its own items, and the rules of every nonterminal after a point. -/
inductive Grammar.Predicts (g : Grammar) (kernel : Item → Prop) : Item → Prop
  | kernel {item : Item} : kernel item → Predicts g kernel item
  | rule {item : Item} {id : RuleId} : Predicts g kernel item → id < g.rules.length →
      item.Before g (.nonterminal (g.rule id).lhs) → Predicts g kernel ⟨id, 0⟩

/-- An item with its point inside a right-hand side is predicted only by itself. -/
theorem Grammar.Predicts.kernel_of_pos {g : Grammar} {kernel : Item → Prop} {item : Item}
    (h : g.Predicts kernel item) (hpos : 0 < item.point) : kernel item := by
  cases h with
  | kernel h => exact h
  | rule _ _ _ => simp at hpos

theorem Grammar.Predicts.mono {g : Grammar} {kernel kernel' : Item → Prop} {item : Item}
    (h : g.Predicts kernel item) (hk : ∀ i, kernel i → kernel' i) : g.Predicts kernel' item := by
  induction h with
  | kernel h => exact .kernel (hk _ h)
  | rule _ hlt hbefore ih => exact .rule ih hlt hbefore

/-! ## 3. Rounds of prediction -/

/-- The rules whose item with the point in front is missing. -/
def Grammar.missing (g : Grammar) (items : List Item) : Finset RuleId :=
  (Finset.range g.rules.length).filter fun id => (⟨id, 0⟩ : Item) ∉ items

theorem Grammar.mem_missing {g : Grammar} {items : List Item} {id : RuleId} :
    id ∈ g.missing items ↔ id < g.rules.length ∧ (⟨id, 0⟩ : Item) ∉ items := by
  simp [missing]

/-- Rounds add nothing but what is predicted. -/
theorem Grammar.closeFrom_sound {g : Grammar} {kernel : Item → Prop} : ∀ (fuel : Nat)
    (frontier items : List Item), (∀ i ∈ frontier, g.Predicts kernel i) →
    (∀ i ∈ items, g.Predicts kernel i) → ∀ i ∈ g.closeFrom fuel frontier items, g.Predicts kernel i
  | 0, _, _, _, hi => hi
  | fuel + 1, frontier, items, hf, hi => by
    have hnew : ∀ i ∈ Sorted.ofList (frontier.flatMap (Item.predicted g)), g.Predicts kernel i := by
      intro i him
      obtain ⟨j, hj, hij⟩ := List.mem_flatMap.mp (Sorted.mem_ofList.mp him)
      obtain ⟨id, rfl, hlt, hbefore⟩ := Item.mem_predicted.mp hij
      exact .rule (hf j hj) hlt hbefore
    simp only [closeFrom]
    split
    · exact hi
    · refine closeFrom_sound fuel _ _ (fun i him => hnew i (List.mem_of_mem_filter him)) ?_
      intro i him
      rcases Sorted.mem_union.mp him with him | him
      · exact hi i him
      · exact hnew i (List.mem_of_mem_filter him)

/-- Rounds keep what is there. -/
theorem Grammar.subset_closeFrom {g : Grammar} : ∀ (fuel : Nat) (frontier items : List Item),
    ∀ i ∈ items, i ∈ g.closeFrom fuel frontier items
  | 0, _, _, _, hi => hi
  | fuel + 1, frontier, items, i, hi => by
    simp only [closeFrom]
    split
    · exact hi
    · exact subset_closeFrom fuel _ _ i (Sorted.mem_union.mpr (.inl hi))

/-- With more rounds than rules are missing the result is closed.  Only the items of the frontier
may lack predictions before the first round. -/
theorem Grammar.closeFrom_closed {g : Grammar} : ∀ (fuel : Nat) (frontier items : List Item),
    (g.missing items).card < fuel →
    (∀ i ∈ items, i ∉ frontier → ∀ j ∈ i.predicted g, j ∈ items) →
    ∀ i ∈ g.closeFrom fuel frontier items, ∀ j ∈ i.predicted g, j ∈ g.closeFrom fuel frontier items
  | 0, _, _, hfuel, _ => absurd hfuel (Nat.not_lt_zero _)
  | fuel + 1, frontier, items, hfuel, hclosed => by
    simp only [closeFrom]
    set new := (Sorted.ofList (frontier.flatMap (Item.predicted g))).filter (!items.contains ·)
      with hnewdef
    have mem_new : ∀ i, i ∈ new ↔ (∃ f ∈ frontier, i ∈ f.predicted g) ∧ i ∉ items := by
      intro i
      simp [hnewdef, List.mem_filter, List.mem_flatMap]
    split
    · -- nothing new: what the frontier predicts is there already
      rename_i hempty
      intro i hi j hj
      by_cases hif : i ∈ frontier
      · by_contra hji
        have hmem : j ∈ new := (mem_new j).mpr ⟨⟨i, hif, hj⟩, hji⟩
        simp [List.isEmpty_iff.mp hempty] at hmem
      · exact hclosed i hi hif j hj
    · rename_i hne
      refine closeFrom_closed fuel _ _ ?_ ?_
      · obtain ⟨i, hi⟩ := List.exists_mem_of_ne_nil new (by simpa using hne)
        obtain ⟨⟨f, _, hp⟩, hnot⟩ := (mem_new i).mp hi
        obtain ⟨id, rfl, hlt, _⟩ := Item.mem_predicted.mp hp
        have hsub : g.missing (Sorted.union items new) ⊆ (g.missing items).erase id := by
          intro r hr
          obtain ⟨hrlt, hrnot⟩ := mem_missing.mp hr
          rw [Sorted.mem_union, not_or] at hrnot
          refine Finset.mem_erase.mpr ⟨?_, mem_missing.mpr ⟨hrlt, hrnot.1⟩⟩
          rintro rfl
          exact hrnot.2 hi
        have hcard := Finset.card_le_card hsub
        have herase := Finset.card_erase_lt_of_mem (mem_missing.mpr ⟨hlt, hnot⟩)
        omega
      · intro i hi hinew j hj
        rw [Sorted.mem_union] at hi ⊢
        have hi : i ∈ items := hi.resolve_right hinew
        by_cases hji : j ∈ items
        · exact .inl hji
        · by_cases hif : i ∈ frontier
          · exact .inr ((mem_new j).mpr ⟨⟨i, hif, hj⟩, hji⟩)
          · exact .inl (hclosed i hi hif j hj)

/-! ## 4. Closures -/

/-- **The closure is what the kernel predicts.** -/
theorem Grammar.mem_closure {g : Grammar} {kernel : List Item} {item : Item} :
    item ∈ g.closure kernel ↔ g.Predicts (· ∈ kernel) item := by
  unfold closure
  constructor
  · intro h
    exact closeFrom_sound _ _ _ (fun i hi => .kernel hi)
      (fun i hi => .kernel (Sorted.mem_ofList.mp hi)) item h
  · intro h
    have hfuel : (g.missing (Sorted.ofList kernel)).card < g.rules.length + 1 := by
      have := Finset.card_filter_le (Finset.range g.rules.length)
        fun id => (⟨id, 0⟩ : Item) ∉ Sorted.ofList kernel
      simp only [Finset.card_range] at this
      exact Nat.lt_succ_of_le this
    have hclosed := closeFrom_closed (g := g) _ kernel (Sorted.ofList kernel) hfuel
      (fun i hi hnot => absurd (Sorted.mem_ofList.mp hi) hnot)
    induction h with
    | kernel h => exact subset_closeFrom _ _ _ _ (Sorted.mem_ofList.mpr h)
    | rule _ hlt hbefore ih => exact hclosed _ ih _ (Item.mem_predicted.mpr ⟨_, rfl, hlt, hbefore⟩)

theorem Grammar.increasing_closeFrom {g : Grammar} : ∀ (fuel : Nat) (frontier items : List Item),
    Sorted.Increasing items → Sorted.Increasing (g.closeFrom fuel frontier items)
  | 0, _, _, h => h
  | fuel + 1, frontier, items, h => by
    simp only [closeFrom]
    split
    · exact h
    · exact increasing_closeFrom fuel _ _ (Sorted.increasing_union h)

theorem Grammar.increasing_closure (g : Grammar) (kernel : List Item) :
    Sorted.Increasing (g.closure kernel) :=
  increasing_closeFrom _ _ _ (Sorted.increasing_ofList kernel)

end Lode
