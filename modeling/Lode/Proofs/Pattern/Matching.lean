/-
# What patterns match

`Pattern.Matches` says what a pattern means, apart from how a match is looked for.  A match of a value comes
with two lists: the lengths of the runs that the pattern leaves open, and what it captures, both in the
order in which the pattern is read.  The parts of a sequence split its cells: one cell for a single element,
any number of cells with nodes for a run.

A value may have several matches, which differ in the lengths of their runs.  Matching finds the one whose
lengths come first when longer runs are preferred from left to right, and captures just what that match
captures (`match?_exact`).  For a pattern without requirements it never fails.

That a pattern decides its matches is one notion for all parts of patterns (`Decides`), and there is a lemma
for each way in which parts are put together: one after the other, with another capture, with a run of the
longest length first.  As lengths are compared from the left, the preferred match of a sequence is the
preferred one of its first part with the preferred one of the rest, if the rest has any, and else a less
preferred one of the first; this is where matching goes back (`longestFirst`).

That a pattern admits no other attributes is decided by counting them, so the attributes of a node must have
different names, as they have in every node that is built (`Value.Tidy`).
-/
import Lode.Pattern.Basic
import Lode.Proofs.Language.Operators
import Lode.Proofs.Sorted
import Lode.Proofs.Tree.Walk

namespace Lode

/-! ## 1. Meanings -/

/-- Adds captures in the order in which they were made. -/
def Bindings.bindAll (b : Bindings) (captures : List (String × Captured)) : Bindings :=
  captures.foldl (fun b entry => b.bind entry.1 entry.2) b

theorem Bindings.bindAll_append (b : Bindings) (first second : List (String × Captured)) :
    b.bindAll (first ++ second) = (b.bindAll first).bindAll second := List.foldl_append

/-- The names of attribute patterns, as they are written. -/
def FieldPatterns.written : FieldPatterns → List String
  | nil => []
  | cons name _ others => name :: others.written

mutual

/-- A pattern without requirements. -/
def Pattern.Lenient : Pattern → Prop
  | .any | .eq _ | .lt _ | .when _ => True
  | .node _ attributes _ _ _ => attributes.Lenient
  | .capture _ p => p.Lenient
  | .require _ _ => False
  | .sequence items _ => items.Lenient

/-- Attribute patterns without requirements. -/
def FieldPatterns.Lenient : FieldPatterns → Prop
  | .nil => True
  | .cons _ p others => p.Lenient ∧ others.Lenient

/-- Patterns of elements without requirements. -/
def ItemPatterns.Lenient : ItemPatterns → Prop
  | .nil => True
  | .one p others => p.Lenient ∧ others.Lenient
  | .many _ p others => p.Lenient ∧ others.Lenient

end

mutual

/-- The value matches the pattern, with runs of these lengths and with these captures. -/
def Pattern.Matches : Pattern → Value → List Nat → List (String × Captured) → Prop
  | .any, _, runs, captures => runs = [] ∧ captures = []
  | .eq expected, v, runs, captures => v = expected ∧ runs = [] ∧ captures = []
  | .lt bound, v, runs, captures => (∃ n, v = .int n ∧ n < bound) ∧ runs = [] ∧ captures = []
  | .when test, v, runs, captures => test v = true ∧ runs = [] ∧ captures = []
  | .node tag attributes absent exhaustive span, v, runs, captures =>
    ∃ n, v = .node n ∧ n.tag = tag ∧ (∀ name ∈ absent, n.has name = false) ∧
      (exhaustive = true → ∀ name, n.has name = true ↔ name ∈ attributes.written) ∧
      ∃ inner, attributes.Matches n runs inner ∧
        captures = inner ++ span.toList.map fun name => (name, .span n.span)
  | .capture name p, v, runs, captures =>
    ∃ inner, p.Matches v runs inner ∧ captures = inner ++ [(name, .value v)]
  | .require p _, v, runs, captures => p.Matches v runs captures
  | .sequence items rest, v, runs, captures =>
    ∃ n, v = .node n ∧ n.tag.isSequence = true ∧ items.Matches n.cells rest runs captures

/-- Every named attribute is there and matches. -/
def FieldPatterns.Matches : FieldPatterns → Node → List Nat → List (String × Captured) → Prop
  | .nil, _, runs, captures => runs = [] ∧ captures = []
  | .cons name p others, n, runs, captures =>
    ∃ v runs₁ captures₁ runs₂ captures₂, n.get? name = some v ∧ p.Matches v runs₁ captures₁ ∧
      others.Matches n runs₂ captures₂ ∧ runs = runs₁ ++ runs₂ ∧ captures = captures₁ ++ captures₂

/-- The cells split into single ones and runs of matching elements, and none is left over unless there
is a name for the rest. -/
def ItemPatterns.Matches : ItemPatterns → List Node → Option String → List Nat →
    List (String × Captured) → Prop
  | .nil, cells, rest, runs, captures =>
    (rest = none → cells = []) ∧ runs = [] ∧
      captures = rest.toList.map fun name => (name, .rest cells.head?)
  | .one p others, cells, rest, runs, captures =>
    ∃ cell after v runs₁ captures₁ runs₂ captures₂, cells = cell :: after ∧
      Pattern.cellElement? cell = some v ∧ p.Matches v runs₁ captures₁ ∧
      others.Matches after rest runs₂ captures₂ ∧ runs = runs₁ ++ runs₂ ∧
      captures = captures₁ ++ captures₂
  | .many name p others, cells, rest, runs, captures =>
    ∃ taken after elements runs₂ captures₂, cells = taken ++ after ∧
      taken.map Pattern.cellElement? = elements.map (fun e => some (.node e)) ∧
      (∀ e ∈ elements, ∃ runs₁ captures₁, p.Matches (.node e) runs₁ captures₁) ∧
      others.Matches after rest runs₂ captures₂ ∧ runs = elements.length :: runs₂ ∧
      captures = (name, .nodes elements) :: captures₂

end

/-! ## 2. The number of runs -/

mutual

/-- The number of runs that a pattern leaves open. -/
def Pattern.runCount : Pattern → Nat
  | .any | .eq _ | .lt _ | .when _ => 0
  | .node _ attributes _ _ _ => attributes.runCount
  | .capture _ p | .require p _ => p.runCount
  | .sequence items _ => items.runCount

/-- The number of runs that attribute patterns leave open. -/
def FieldPatterns.runCount : FieldPatterns → Nat
  | .nil => 0
  | .cons _ p others => p.runCount + others.runCount

/-- The number of runs that patterns of elements leave open, those inside of runs left out. -/
def ItemPatterns.runCount : ItemPatterns → Nat
  | .nil => 0
  | .one p others => p.runCount + others.runCount
  | .many _ _ others => others.runCount + 1

end

mutual

/-- All matches have a length for each run that is left open. -/
theorem Pattern.Matches.length_runs : ∀ {p : Pattern} {v : Value} {runs : List Nat}
    {captures : List (String × Captured)}, p.Matches v runs captures → runs.length = p.runCount
  | .any, _, _, _, ⟨hruns, _⟩ | .eq _, _, _, _, ⟨_, hruns, _⟩ | .lt _, _, _, _, ⟨_, hruns, _⟩
  | .when _, _, _, _, ⟨_, hruns, _⟩ => by rw [hruns]; rfl
  | .node _ _ _ _ _, _, _, _, ⟨_, _, _, _, _, _, h, _⟩ => FieldPatterns.Matches.length_runs h
  | .capture _ p, _, _, _, ⟨_, h, _⟩ => Pattern.Matches.length_runs (p := p) h
  | .require p _, _, _, _, h => Pattern.Matches.length_runs (p := p) h
  | .sequence _ _, _, _, _, ⟨_, _, _, h⟩ => ItemPatterns.Matches.length_runs h

theorem FieldPatterns.Matches.length_runs : ∀ {fields : FieldPatterns} {n : Node} {runs : List Nat}
    {captures : List (String × Captured)}, fields.Matches n runs captures →
    runs.length = fields.runCount
  | .nil, _, _, _, ⟨hruns, _⟩ => by rw [hruns]; rfl
  | .cons _ _ _, _, _, _, ⟨_, _, _, _, _, _, h₁, h₂, hruns, _⟩ => by
    rw [hruns, List.length_append, Pattern.Matches.length_runs h₁,
      FieldPatterns.Matches.length_runs h₂]
    rfl

theorem ItemPatterns.Matches.length_runs : ∀ {items : ItemPatterns} {cells : List Node}
    {rest : Option String} {runs : List Nat} {captures : List (String × Captured)},
    items.Matches cells rest runs captures → runs.length = items.runCount
  | .nil, _, _, _, _, ⟨_, hruns, _⟩ => by rw [hruns]; rfl
  | .one _ _, _, _, _, _, ⟨_, _, _, _, _, _, _, _, _, h₁, h₂, hruns, _⟩ => by
    rw [hruns, List.length_append, Pattern.Matches.length_runs h₁, ItemPatterns.Matches.length_runs h₂]
    rfl
  | .many _ _ _, _, _, _, _, ⟨_, _, _, _, _, _, _, _, h, hruns, _⟩ => by
    rw [hruns, List.length_cons, ItemPatterns.Matches.length_runs h]
    rfl

end

/-! ## 3. Preferred matches -/

/-- Rows of lengths are compared where they first differ. -/
theorem lex_append {b b' : List Nat} : ∀ {a a' : List Nat}, a'.length = a.length →
    List.Lex (· < ·) a' a → List.Lex (· < ·) (a' ++ b') (a ++ b)
  | _ :: _, _ :: _, _, .rel h => .rel h
  | _ :: _, _ :: _, hlength, .cons h => .cons (lex_append (Nat.succ_inj.mp hlength) h)

/-- Rows of lengths with the same beginning are compared by what follows. -/
theorem lex_append_left {b b' : List Nat} (h : List.Lex (· < ·) b' b) : ∀ a : List Nat,
    List.Lex (· < ·) (a ++ b') (a ++ b)
  | [] => h
  | _ :: a => .cons (lex_append_left h a)

/-- The outcome of matching under given captures is the preferred one of the given matches, or there is
no match. -/
def Decides (result : Pattern.Result) (b : Bindings) (M : List Nat → List (String × Captured) → Prop) :
    Prop :=
  (∃ runs captures, M runs captures ∧ result = .ok (some (b.bindAll captures)) ∧
    ∀ runs' captures', M runs' captures' →
      (runs' = runs ∧ captures' = captures) ∨ List.Lex (· < ·) runs' runs) ∨
  (result = .ok none ∧ ∀ runs captures, ¬ M runs captures)

namespace Decides

variable {result : Pattern.Result} {b : Bindings} {M N : List Nat → List (String × Captured) → Prop}

theorem congr (h : Decides result b M) (hMN : ∀ runs captures, N runs captures ↔ M runs captures) :
    Decides result b N := by
  obtain rfl : N = M := funext fun runs => funext fun captures => propext (hMN runs captures)
  exact h

theorem reject (h : ∀ runs captures, ¬ M runs captures) : Decides (.ok none) b M := .inr ⟨rfl, h⟩

/-- A match without runs. -/
theorem accept (captures : List (String × Captured)) : Decides (.ok (some (b.bindAll captures))) b
    fun runs captures' => runs = [] ∧ captures' = captures := by
  refine .inl ⟨[], captures, ⟨rfl, rfl⟩, rfl, ?_⟩
  rintro _ _ ⟨rfl, rfl⟩
  exact .inl ⟨rfl, rfl⟩

/-- A test without runs and captures. -/
theorem test {P : Prop} [Decidable P] : Decides (.ok (if P then some b else none)) b
    fun runs captures => P ∧ runs = [] ∧ captures = [] := by
  by_cases h : P
  · rw [if_pos h]
    exact (accept []).congr fun _ _ => and_iff_right h
  · rw [if_neg h]
    exact reject fun _ _ hM => h hM.1

/-- Whether there is a match. -/
theorem answer (h : Decides result b M) : ∃ answer, (do return (← result).isSome) = Except.ok answer ∧
    (answer = true ↔ ∃ runs captures, M runs captures) := by
  rcases h with ⟨runs, captures, h, rfl, -⟩ | ⟨rfl, hnone⟩
  · exact ⟨true, rfl, iff_of_true rfl ⟨runs, captures, h⟩⟩
  · exact ⟨false, rfl, by simpa using hnone⟩

/-- One pattern after the other: what the second one captures comes after what the first one did. -/
theorem seq (h : Decides result b M) {count : Nat}
    (hcount : ∀ runs captures, M runs captures → runs.length = count)
    {next : Bindings → Pattern.Result} (hnext : ∀ b, Decides (next b) b N) :
    Decides (do match ← result with
      | none => return none
      | some b => next b) b fun runs captures =>
      ∃ runs₁ captures₁ runs₂ captures₂, M runs₁ captures₁ ∧ N runs₂ captures₂ ∧
        runs = runs₁ ++ runs₂ ∧ captures = captures₁ ++ captures₂ := by
  rcases h with ⟨runs₁, captures₁, h₁, rfl, hbest₁⟩ | ⟨rfl, hnone⟩
  · change Decides (next (b.bindAll captures₁)) b _
    rcases hnext (b.bindAll captures₁) with ⟨runs₂, captures₂, h₂, hresult, hbest₂⟩ | ⟨hresult, hnone⟩
    · refine .inl ⟨_, _, ⟨runs₁, captures₁, runs₂, captures₂, h₁, h₂, rfl, rfl⟩, ?_, ?_⟩
      · rw [hresult, Bindings.bindAll_append]
      · rintro _ _ ⟨runs₁', captures₁', runs₂', captures₂', h₁', h₂', rfl, rfl⟩
        have hlength : runs₁'.length = runs₁.length := by rw [hcount _ _ h₁', hcount _ _ h₁]
        rcases hbest₁ _ _ h₁' with ⟨rfl, rfl⟩ | hless
        · rcases hbest₂ _ _ h₂' with ⟨rfl, rfl⟩ | hless
          · exact .inl ⟨rfl, rfl⟩
          · exact .inr (lex_append_left hless _)
        · exact .inr (lex_append hlength hless)
    · refine .inr ⟨hresult, ?_⟩
      rintro _ _ ⟨_, _, _, _, _, h₂, _⟩
      exact hnone _ _ h₂
  · refine .inr ⟨rfl, ?_⟩
    rintro _ _ ⟨_, _, _, _, h₁, _⟩
    exact hnone _ _ h₁

/-- More captures after those of a pattern. -/
theorem capture (h : Decides result b M) (added : List (String × Captured)) :
    Decides (do match ← result with
      | none => return none
      | some b => return some (b.bindAll added)) b
      fun runs captures => ∃ inner, M runs inner ∧ captures = inner ++ added := by
  rcases h with ⟨runs, captures, h, rfl, hbest⟩ | ⟨rfl, hnone⟩
  · refine .inl ⟨runs, captures ++ added, ⟨captures, h, rfl⟩, ?_, ?_⟩
    · rw [ok_bind, Bindings.bindAll_append]
      rfl
    · rintro _ _ ⟨inner, h', rfl⟩
      rcases hbest _ _ h' with ⟨rfl, rfl⟩ | hless
      · exact .inl ⟨rfl, rfl⟩
      · exact .inr hless
  · refine .inr ⟨rfl, ?_⟩
    rintro _ _ ⟨inner, h', _⟩
    exact hnone _ _ h'

/-- Runs of `n` elements and less, the longest one first. -/
theorem longestFirst {attempt : Nat → Pattern.Result} {name : String} {run : Nat → Captured}
    {M : Nat → List Nat → List (String × Captured) → Prop} : ∀ {n : Nat},
    (∀ k ≤ n, Decides (attempt k) (b.bind name (run k)) (M k)) →
    Decides (Pattern.longestFirst attempt n) b fun runs captures =>
      ∃ k ≤ n, ∃ runs₂ captures₂, M k runs₂ captures₂ ∧ runs = k :: runs₂ ∧
        captures = (name, run k) :: captures₂
  | n, h => by
    -- a match with `n` elements is preferred to those with less
    have htop : ∀ runs₂ captures₂, M n runs₂ captures₂ →
        attempt n = .ok (some ((b.bind name (run n)).bindAll captures₂)) →
        (∀ runs' captures', M n runs' captures' →
          (runs' = runs₂ ∧ captures' = captures₂) ∨ List.Lex (· < ·) runs' runs₂) →
        Decides (attempt n) b fun runs captures => ∃ k ≤ n, ∃ runs₂ captures₂, M k runs₂ captures₂ ∧
          runs = k :: runs₂ ∧ captures = (name, run k) :: captures₂ := by
      intro runs₂ captures₂ h₂ hresult hbest
      refine .inl ⟨_, _, ⟨n, le_rfl, runs₂, captures₂, h₂, rfl, rfl⟩, hresult, ?_⟩
      rintro _ _ ⟨k, hk, runs', captures', h', rfl, rfl⟩
      rcases Nat.lt_or_eq_of_le hk with hlt | rfl
      · exact .inr (.rel hlt)
      · rcases hbest _ _ h' with ⟨rfl, rfl⟩ | hless
        · exact .inl ⟨rfl, rfl⟩
        · exact .inr (.cons hless)
    cases n with
    | zero =>
      rcases h 0 le_rfl with ⟨runs₂, captures₂, h₂, hresult, hbest⟩ | ⟨hresult, hnone⟩
      · exact htop runs₂ captures₂ h₂ hresult hbest
      · refine .inr ⟨hresult, ?_⟩
        rintro _ _ ⟨k, hk, runs₂, captures₂, h₂, _⟩
        exact hnone _ _ (Nat.le_zero.mp hk ▸ h₂)
    | succ n =>
      rw [Pattern.longestFirst]
      rcases h (n + 1) le_rfl with ⟨runs₂, captures₂, h₂, hresult, hbest⟩ | ⟨hresult, hnone⟩
      · have hall := htop runs₂ captures₂ h₂ hresult hbest
        rw [hresult] at hall ⊢
        exact hall
      · rw [hresult, ok_bind]
        refine (longestFirst fun k hk => h k (Nat.le_succ_of_le hk)).congr fun runs captures => ?_
        constructor
        · rintro ⟨k, hk, runs₂, captures₂, h₂, heq⟩
          rcases Nat.lt_or_eq_of_le hk with hlt | rfl
          · exact ⟨k, Nat.le_of_lt_succ hlt, runs₂, captures₂, h₂, heq⟩
          · exact absurd h₂ (hnone _ _)
        · rintro ⟨k, hk, rest⟩
          exact ⟨k, Nat.le_succ_of_le hk, rest⟩

end Decides

/-! ## 4. Attributes -/

namespace Fields

theorem has_eq_true {name : String} : ∀ {fields : Fields}, fields.has name = true ↔ name ∈ fields.names
  | nil => by simp [has, get?, names, toList]
  | cons first v rest => by
    have ih : (rest.get? name).isSome = true ↔ name ∈ rest.toList.map (·.1) := has_eq_true
    by_cases h : name = first <;> simp [has, get?, names, toList, h, ih]

theorem increasing_names : ∀ {fields : Fields}, fields.ordered = true → Sorted.Increasing fields.names
  | nil, _ => .nil
  | cons first _ rest, h => by
    simp only [ordered, Bool.and_eq_true] at h
    exact .cons (lt_of_mem_names h.2 h.1) (increasing_names h.2)

theorem length_names : ∀ fields : Fields, fields.names.length = fields.size
  | nil => rfl
  | cons _ _ rest => congrArg (· + 1) (length_names rest)

/-- A node that is found is among the children. -/
theorem mem_nodes_of_get? {name : String} {n : Node} : ∀ {fields : Fields},
    fields.get? name = some (.node n) → (name, n) ∈ fields.nodes
  | cons first v rest, h => by
    by_cases heq : name = first
    · obtain rfl : v = .node n := by simpa [get?, heq] using h
      rw [heq]
      exact List.mem_cons_self
    · have hrest : (name, n) ∈ rest.nodes := mem_nodes_of_get? (by simpa [get?, heq] using h)
      cases v with
      | node m => exact List.mem_cons_of_mem _ hrest
      | _ => exact hrest

end Fields

namespace FieldPatterns

theorem mem_names {name : String} : ∀ {fields : FieldPatterns},
    name ∈ fields.names ↔ name ∈ fields.written
  | nil => Iff.rfl
  | cons _ _ others => by rw [names, Sorted.mem_insert, mem_names, written, List.mem_cons]

theorem increasing_names : ∀ fields : FieldPatterns, Sorted.Increasing fields.names
  | nil => .nil
  | cons _ _ others => Sorted.increasing_insert (increasing_names others)

end FieldPatterns

/-- To have as many attributes as are named, and only these, is to have all of them. -/
theorem Pattern.hasExactly_iff {n : Node} (h : n.fields.ordered = true) {attributes : FieldPatterns} :
    hasExactly n attributes.names = true ↔ ∀ name, n.has name = true ↔ name ∈ attributes.written := by
  have hnames := Fields.increasing_names h
  simp only [hasExactly, Bool.and_eq_true, beq_iff_eq, List.all_eq_true, List.contains_iff_mem,
    ← Fields.length_names, Node.has, Fields.has_eq_true, ← FieldPatterns.mem_names]
  constructor
  · rintro ⟨hlength, hsubset⟩ name
    have hperm := (List.subperm_of_subset hnames.nodup hsubset).perm_of_length_le hlength.ge
    exact hperm.mem_iff
  · intro hsame
    rw [hnames.eq_of_mem_iff attributes.increasing_names hsame]
    exact ⟨rfl, fun _ => id⟩

/-! ## 5. Tidy values -/

/-- The attributes of the nodes in a value are in order. -/
def Value.Tidy (v : Value) : Prop := ∀ n, v = .node n → n.Everywhere fun m => m.fields.ordered = true

namespace Node

variable {n : Node}

theorem tidy_of_mem_nodes (h : (Value.node n).Tidy) {entry : String × Node}
    (hentry : entry ∈ n.fields.nodes) : (Value.node entry.2).Tidy := by
  rintro _ ⟨⟩
  cases h n rfl with
  | intro _ hfields => exact hfields entry hentry

theorem tidy_of_get? (h : (Value.node n).Tidy) {name : String} {v : Value}
    (hv : n.get? name = some v) : v.Tidy := by
  rintro m rfl
  exact tidy_of_mem_nodes h (Fields.mem_nodes_of_get? hv) m rfl

theorem tidy_of_cellElement? (h : (Value.node n).Tidy) {v : Value}
    (hv : Pattern.cellElement? n = some v) : v.Tidy := by
  obtain ⟨name, -, hname⟩ := Option.bind_eq_some_iff.mp hv
  exact tidy_of_get? h hname

end Node

mutual

/-- The cells of a tidy chain are tidy. -/
theorem Node.tidy_of_mem_cells : ∀ {n : Node}, (Value.node n).Tidy →
    ∀ cell ∈ n.cells, (Value.node cell).Tidy
  | .mk tag fields span, h, cell, hcell => by
    rw [Node.cells, List.mem_cons] at hcell
    rcases hcell with rfl | hcell
    · exact h
    · exact Fields.tidy_of_mem_nextCells (fun entry => Node.tidy_of_mem_nodes h) cell hcell

theorem Fields.tidy_of_mem_nextCells {tag : Tag} : ∀ {fields : Fields},
    (∀ entry ∈ fields.nodes, (Value.node entry.2).Tidy) →
    ∀ cell ∈ fields.nextCells tag, (Value.node cell).Tidy
  | .nil, _, cell, hcell => by simp [Fields.nextCells] at hcell
  | .cons name v rest, h, cell, hcell => by
    cases v with
    | node n =>
      obtain ⟨hn, hrest⟩ := List.forall_mem_cons.mp h
      rw [Fields.nextCells] at hcell
      split at hcell
      · split at hcell
        · exact Node.tidy_of_mem_cells hn cell hcell
        · cases hcell
      · exact Fields.tidy_of_mem_nextCells hrest cell hcell
    | _ =>
      simp only [Fields.nextCells] at hcell
      split at hcell
      · cases hcell
      · exact @Fields.tidy_of_mem_nextCells tag rest h cell hcell

end

/-! ## 6. Runs -/

/-- The runs at the front of a chain are the prefixes of the longest one. -/
theorem Pattern.takeRun_longest {accepts : Value → Except Error Bool} {Accepted : Node → Prop} :
    ∀ {cells : List Node},
    (∀ cell ∈ cells, ∀ e, cellElement? cell = some (.node e) →
      ∃ answer, accepts (.node e) = .ok answer ∧ (answer = true ↔ Accepted e)) →
    ∃ run, takeRun accepts cells = .ok run ∧ run.length ≤ cells.length ∧
      ∀ taken after elements, cells = taken ++ after →
        (taken.map cellElement? = elements.map (fun e => some (.node e)) ∧
          (∀ e ∈ elements, Accepted e) ↔ elements <+: run ∧ elements.length = taken.length)
  | [], _ => by
    refine ⟨[], rfl, Nat.le_refl _, fun taken after elements h => ?_⟩
    obtain ⟨rfl, rfl⟩ := List.append_eq_nil_iff.mp h.symm
    cases elements <;> simp
  | cell :: cells, h => by
    obtain ⟨hcell, hcells⟩ := List.forall_mem_cons.mp h
    -- no run begins with a cell that is not accepted
    have hempty : (∀ e, cellElement? cell = some (.node e) → ¬ Accepted e) →
        ∀ taken after elements, cell :: cells = taken ++ after →
        (taken.map cellElement? = elements.map (fun e => some (.node e)) ∧
          (∀ e ∈ elements, Accepted e) ↔ elements <+: [] ∧ elements.length = taken.length) := by
      intro hnone taken after elements heq
      cases taken with
      | nil => cases elements <;> simp
      | cons c taken =>
        obtain ⟨rfl, -⟩ := List.cons.inj heq
        cases elements with
        | nil => simp
        | cons e elements =>
          have := hnone e
          grind
    rw [takeRun]
    split
    · rename_i e he
      obtain ⟨answer, hanswer, haccepted⟩ := hcell e he
      rw [hanswer, ok_bind]
      cases answer with
      | false =>
        refine ⟨[], rfl, Nat.zero_le _, hempty fun e' he' => ?_⟩
        obtain rfl : e = e' := by simpa [he] using he'
        simpa using haccepted
      | true =>
        obtain ⟨run, hrun, hle, hspec⟩ := takeRun_longest hcells
        refine ⟨e :: run, by rw [hrun]; rfl, Nat.succ_le_succ hle, fun taken after elements heq => ?_⟩
        cases taken with
        | nil => cases elements <;> simp
        | cons c taken =>
          obtain ⟨rfl, tail_eq⟩ := List.cons.inj heq
          cases elements with
          | nil => simp
          | cons e' elements =>
            have := hspec taken after elements tail_eq
            have haccepted : Accepted e := haccepted.mp rfl
            simp only [List.map_cons, List.cons.injEq, he, Option.some.injEq, Value.node.injEq,
              List.forall_mem_cons, List.cons_prefix_cons, List.length_cons, Nat.add_right_cancel_iff]
            grind
    · rename_i hnone
      exact ⟨[], rfl, Nat.zero_le _, hempty fun e he => absurd he (hnone e)⟩

/-! ## 7. Matching decides -/

mutual

/-- **Patterns decide their matches.** -/
theorem Pattern.decides : ∀ {p : Pattern}, p.Lenient → ∀ {v : Value}, v.Tidy → ∀ b : Bindings,
    Decides (p.match? v b) b (p.Matches v)
  | .any, _, _, _, _ => Decides.accept []
  | .eq expected, _, v, _, b => Decides.test
  | .lt bound, _, v, _, b => by
    refine Decides.test.congr fun runs captures => ?_
    cases v <;> simp [Pattern.Matches, Value.int?]
  | .when t, _, v, _, b => Decides.test
  | .node tag attributes absent exhaustive span, hp, v, hv, b => by
    cases v with
    | node n =>
      rw [Pattern.match?]
      split
      · rename_i hbad
        -- the node is not the one that is asked for: its tag, an absent name or a further attribute
        refine .reject ?_
        rintro _ _ ⟨_, ⟨⟩, htag, habsent, hexact, -⟩
        have hexact : exhaustive = true → Pattern.hasExactly n attributes.names = true := fun h =>
          (Pattern.hasExactly_iff (hv n rfl).here).mpr (hexact h)
        simp only [ne_eq, Bool.or_eq_true, decide_eq_true_eq, List.any_eq_true, Bool.and_eq_true,
          Bool.not_eq_true'] at hbad
        grind
      · rename_i hgood
        simp only [ne_eq, Bool.or_eq_true, decide_eq_true_eq, List.any_eq_true, Bool.and_eq_true,
          Bool.not_eq_true', not_or, Decidable.not_not, not_exists, not_and, Bool.not_eq_true,
          Bool.not_eq_false] at hgood
        obtain ⟨⟨htag, habsent⟩, hexact⟩ := hgood
        -- only its attributes are left to be matched
        have h := (FieldPatterns.decides hp hv b).capture
          (span.toList.map fun name => (name, .span n.span))
        have hmatches : ∀ runs captures, (Pattern.node tag attributes absent exhaustive span).Matches
            (.node n) runs captures ↔ ∃ inner, attributes.Matches n runs inner ∧
              captures = inner ++ span.toList.map fun name => (name, .span n.span) := by
          intro runs captures
          constructor
          · rintro ⟨_, ⟨⟩, _, _, _, h⟩
            exact h
          · exact fun h => ⟨n, rfl, htag, habsent, fun he =>
              (Pattern.hasExactly_iff (hv n rfl).here).mp (hexact he), h⟩
        cases span with
        | none => exact h.congr hmatches
        | some name => exact h.congr hmatches
    | _ =>
      refine .reject ?_
      rintro _ _ ⟨n, h, _⟩
      cases h
  | .capture name p, hp, v, hv, b => by
    have h := (Pattern.decides (p := p) hp hv b).capture [(name, .value v)]
    rw [Pattern.match?]
    exact h
  | .require _ _, hp, _, _, _ => hp.elim
  | .sequence items rest, hp, v, hv, b => by
    cases v with
    | node n =>
      rw [Pattern.match?]
      by_cases htag : n.tag.isSequence = true
      · rw [if_pos htag]
        refine (ItemPatterns.decides hp (Node.tidy_of_mem_cells hv) rest b).congr fun _ _ => ?_
        constructor
        · rintro ⟨_, ⟨⟩, _, h⟩
          exact h
        · exact fun h => ⟨n, rfl, htag, h⟩
      · rw [if_neg htag]
        refine .reject ?_
        rintro _ _ ⟨_, ⟨⟩, h, _⟩
        exact htag h
    | _ =>
      refine .reject ?_
      rintro _ _ ⟨n, h, _⟩
      cases h

/-- Attribute patterns decide their matches. -/
theorem FieldPatterns.decides : ∀ {fields : FieldPatterns}, fields.Lenient → ∀ {n : Node},
    (Value.node n).Tidy → ∀ b : Bindings, Decides (fields.match? n b) b (fields.Matches n)
  | .nil, _, _, _, _ => Decides.accept []
  | .cons name p others, hp, n, hn, b => by
    rw [FieldPatterns.match?]
    cases hv : n.get? name with
    | none =>
      refine .reject ?_
      rintro _ _ ⟨v, _, _, _, _, h, _⟩
      rw [hv] at h
      cases h
    | some v =>
      have h := Decides.seq (Pattern.decides hp.1 (Node.tidy_of_get? hn hv) b)
        (fun _ _ => Pattern.Matches.length_runs) (FieldPatterns.decides hp.2 hn)
      refine h.congr fun runs captures => ?_
      constructor
      · rintro ⟨_, runs₁, captures₁, runs₂, captures₂, hv', h₁, h₂, heq⟩
        obtain rfl := Option.some.inj (hv.symm.trans hv')
        exact ⟨runs₁, captures₁, runs₂, captures₂, h₁, h₂, heq⟩
      · rintro ⟨runs₁, captures₁, runs₂, captures₂, h₁, h₂, heq⟩
        exact ⟨v, runs₁, captures₁, runs₂, captures₂, hv, h₁, h₂, heq⟩

/-- Patterns of elements decide their matches. -/
theorem ItemPatterns.decides : ∀ {items : ItemPatterns}, items.Lenient → ∀ {cells : List Node},
    (∀ cell ∈ cells, (Value.node cell).Tidy) → ∀ (rest : Option String) (b : Bindings),
    Decides (items.match? cells rest b) b (items.Matches cells rest)
  | .nil, _, cells, _, rest, b => by
    cases rest with
    | some name =>
      refine (Decides.accept [(name, .rest cells.head?)]).congr fun runs captures => ?_
      simp [ItemPatterns.Matches]
    | none =>
      refine (Decides.test (P := cells.isEmpty = true)).congr fun runs captures => ?_
      simp [ItemPatterns.Matches]
  | .one p others, hp, cells, hcells, rest, b => by
    cases cells with
    | nil =>
      rw [ItemPatterns.match?]
      refine .reject ?_
      rintro _ _ ⟨_, _, _, _, _, _, _, h, _⟩
      cases h
    | cons cell after =>
      obtain ⟨hcell, hafter⟩ := List.forall_mem_cons.mp hcells
      rw [ItemPatterns.match?]
      cases hv : Pattern.cellElement? cell with
      | none =>
        refine .reject ?_
        rintro _ _ ⟨_, _, v, _, _, _, _, ⟨⟩, h, _⟩
        rw [hv] at h
        cases h
      | some v =>
        have h := Decides.seq (Pattern.decides hp.1 (Node.tidy_of_cellElement? hcell hv) b)
          (fun _ _ => Pattern.Matches.length_runs) (ItemPatterns.decides hp.2 hafter rest)
        refine h.congr fun runs captures => ?_
        constructor
        · rintro ⟨_, _, _, runs₁, captures₁, runs₂, captures₂, ⟨⟩, hv', h₁, h₂, heq⟩
          obtain rfl := Option.some.inj (hv.symm.trans hv')
          exact ⟨runs₁, captures₁, runs₂, captures₂, h₁, h₂, heq⟩
        · rintro ⟨runs₁, captures₁, runs₂, captures₂, h₁, h₂, heq⟩
          exact ⟨cell, after, v, runs₁, captures₁, runs₂, captures₂, rfl, hv, h₁, h₂, heq⟩
  | .many name p others, hp, cells, hcells, rest, b => by
    rw [ItemPatterns.match?]
    have haccepts : ∀ cell ∈ cells, ∀ e, Pattern.cellElement? cell = some (.node e) →
        ∃ answer, (do return (← p.match? (.node e) b).isSome : Except Error Bool) = .ok answer ∧
          (answer = true ↔ ∃ runs captures, p.Matches (.node e) runs captures) := fun cell hcell e he =>
      (Pattern.decides hp.1 (Node.tidy_of_cellElement? (hcells cell hcell) he) b).answer
    -- the run goes as far as cells are accepted, and any shorter one may be taken
    obtain ⟨run, hrun, hle, hspec⟩ := @Pattern.takeRun_longest
      (fun v => do return (← p.match? v b).isSome) _ _ haccepts
    rw [hrun, ok_bind]
    refine (Decides.longestFirst fun k _ => ItemPatterns.decides hp.2
      (fun cell hcell => hcells cell (List.mem_of_mem_drop hcell)) rest _).congr fun runs captures => ?_
    constructor
    · rintro ⟨taken, after, elements, runs₂, captures₂, hsplit, helements, hall, h, hruns, hcaptures⟩
      obtain ⟨hbegins, hlength⟩ := (hspec taken after elements hsplit).mp ⟨helements, hall⟩
      refine ⟨elements.length, hbegins.length_le, runs₂, captures₂, ?_, hruns, ?_⟩
      · rwa [hsplit, hlength, List.drop_left]
      · rwa [← List.prefix_iff_eq_take.mp hbegins]
    · rintro ⟨k, hk, runs₂, captures₂, h, hruns, hcaptures⟩
      have hlength : (run.take k).length = (cells.take k).length := by simp; omega
      obtain ⟨helements, hall⟩ := (hspec (cells.take k) (cells.drop k) (run.take k)
        (List.take_append_drop k cells).symm).mpr ⟨List.take_prefix k run, hlength⟩
      refine ⟨_, _, _, runs₂, captures₂, (List.take_append_drop k cells).symm, helements, hall, h, ?_,
        hcaptures⟩
      rw [hruns, List.length_take, Nat.min_eq_left hk]

end

/-- **Matching is what patterns mean.**  Without requirements it gives an answer, which is a match exactly
if there is one.  The captures are added to the given ones in the order in which they were made, and they
are those of the match that makes every run as long as possible, from left to right. -/
theorem match?_exact {p : Pattern} (hp : p.Lenient) {v : Value} (hv : v.Tidy) (b : Bindings) :
    ∃ result, p.match? v b = .ok result ∧
      (result.isSome = true ↔ ∃ runs captures, p.Matches v runs captures) ∧
      ∀ found ∈ result, ∃ runs captures, p.Matches v runs captures ∧ found = b.bindAll captures ∧
        ∀ runs' captures', p.Matches v runs' captures' →
          (runs' = runs ∧ captures' = captures) ∨ List.Lex (· < ·) runs' runs := by
  rcases Pattern.decides hp hv b with ⟨runs, captures, h, hresult, hbest⟩ | ⟨hresult, hnone⟩
  · refine ⟨_, hresult, iff_of_true rfl ⟨runs, captures, h⟩, ?_⟩
    rintro _ ⟨⟩
    exact ⟨runs, captures, h, rfl, hbest⟩
  · refine ⟨_, hresult, ?_, nofun⟩
    simpa using hnone

/-- The last of some arguments, and those before it. -/
def lastArgument : Pattern := .sequence (.many "front" .any (.one (.capture "last" .any) .nil)) none

/-- Two arguments. -/
def twoArguments (first second : Node) : Node := .mk .args
  (.cons "arg" (.node first)
    (.cons "next" (.node (.mk .args (.cons "arg" (.node second) .nil) .nowhere)) .nil)) .nowhere

/-- The run takes both arguments at first, and gives one back. -/
theorem match?_lastArgument : ∃ runs captures,
    lastArgument.Matches (.node (twoArguments (.mk .number .nil .nowhere) (.mk .string .nil .nowhere)))
      runs captures ∧
    Bindings.bindAll [] captures = [("front", .nodes [.mk .number .nil .nowhere]),
      ("last", .value (.node (.mk .string .nil .nowhere)))] ∧
    ∀ runs' captures', lastArgument.Matches
        (.node (twoArguments (.mk .number .nil .nowhere) (.mk .string .nil .nowhere))) runs' captures' →
      (runs' = runs ∧ captures' = captures) ∨ List.Lex (· < ·) runs' runs := by
  have hp : lastArgument.Lenient := by
    simp [lastArgument, Pattern.Lenient, ItemPatterns.Lenient]
  have hv : (Value.node (twoArguments (.mk .number .nil .nowhere) (.mk .string .nil .nowhere))).Tidy := by
    rintro _ ⟨⟩
    have hleaf : ∀ tag, (Node.mk tag .nil .nowhere).Everywhere fun m => m.fields.ordered = true :=
      fun tag => .intro rfl nofun
    exact .intro (by decide) (List.forall_mem_cons.mpr ⟨hleaf _, List.forall_mem_cons.mpr
      ⟨.intro (by decide) (List.forall_mem_cons.mpr ⟨hleaf _, nofun⟩), nofun⟩⟩)
  obtain ⟨result, hresult, -, hfound⟩ := match?_exact hp hv []
  obtain rfl := Except.ok.inj hresult
  obtain ⟨runs, captures, h, heq, hbest⟩ := hfound _ rfl
  exact ⟨runs, captures, h, heq.symm, hbest⟩

end Lode
