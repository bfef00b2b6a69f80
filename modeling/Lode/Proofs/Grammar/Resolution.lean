/-
# How precedences decide between actions

Before a terminal a state has as candidates the shift, if there is a move over the terminal, and the
completed rules with the terminal among their lookaheads.  `Beats` compares two of them by precedence.  The
entry of a table is the candidate that beats all others (`action?_iff_strongest`).

The rules are taken one after the other, and each is compared with the strongest before it.  A conflict is
therefore one between two candidates that their precedences leave open (`conflict_undecided`), but it is
reported also where a rule that comes later would beat them both.

To compare with the strongest so far is enough because the comparison is transitive (`Beats.trans`): what
was beaten by an earlier entry is beaten by whatever replaces that.  The invariant of the additions is that
each candidate taken so far is the entry or beaten by it (`Decided`).  It holds as long as no conflict was
recorded, and conflicts are kept, so it holds for a table that is made.

The shift takes part with a strength of its own, the precedence of the rules whose points stand before the
terminal; two rules are compared by their levels, and the same level leaves them open.  Both comparisons can
fail, and section 1 says for each what its answer means and what its failure means.
-/
import Lode.Proofs.Grammar.Table

namespace Lode

open Sorted (find? IncreasingKeys)

/-! ## 1. Candidates and their order -/

/-- The rule that an action completes; a shift completes none. -/
def Action.rule? : Action → Option RuleId
  | shift _ => none
  | reduce id => some id
  | accept id => some id

namespace ParseTable

variable {g : Grammar} {a : Automaton}

@[simp] theorem rule?_completion (g : Grammar) (id : RuleId) (t : Terminal) :
    (completion g id t).rule? = some id := by
  unfold completion
  split <;> rfl

/-- What precedence prefers: `none` is the shift, `some id` the completion of a rule. -/
inductive Beats (g : Grammar) (items : List Item) (t : Terminal) : Option RuleId → Option RuleId → Prop
  | shift {s : Strength} {id level : Nat} : shiftStrength g items t = some s →
      (g.rule id).precedence = some level → level < s.level ∨ (level = s.level ∧ s.right = true) →
      Beats g items t none (some id)
  | overShift {s : Strength} {id level : Nat} : shiftStrength g items t = some s →
      (g.rule id).precedence = some level → s.level < level ∨ (level = s.level ∧ s.right = false) →
      Beats g items t (some id) none
  | rule {id other p q : Nat} : (g.rule id).precedence = some p → (g.rule other).precedence = some q →
      q < p → Beats g items t (some id) (some other)

section Order

variable {items : List Item} {t : Terminal}

/-- **What beats the stronger of two beats the weaker one.** -/
theorem Beats.trans {x y z : Option RuleId} (h : Beats g items t x y) (h' : Beats g items t y z) :
    Beats g items t x z := by
  cases h with
  | shift hs hp hlt =>
    cases h' with
    | overShift hs' hp' hlt' =>
      obtain rfl := Option.some.inj (hs.symm.trans hs')
      obtain rfl := Option.some.inj (hp.symm.trans hp')
      -- at one strength the rule would group to the right and to the left
      rcases hlt with hlt | ⟨rfl, hright⟩
      · rcases hlt' with hlt' | ⟨rfl, -⟩ <;> omega
      · rcases hlt' with hlt' | ⟨-, hleft⟩
        · omega
        · rw [hright] at hleft
          cases hleft
    | rule hp' hq hlt' =>
      obtain rfl := Option.some.inj (hp.symm.trans hp')
      exact .shift hs hq (.inl (by omega))
  | overShift hs hp hlt =>
    cases h' with
    | shift hs' hp' hlt' =>
      obtain rfl := Option.some.inj (hs.symm.trans hs')
      refine .rule hp hp' ?_
      rcases hlt with hlt | ⟨rfl, hleft⟩
      · omega
      · rcases hlt' with hlt' | ⟨-, hright⟩
        · exact hlt'
        · rw [hright] at hleft
          cases hleft
  | rule hp hq hlt =>
    cases h' with
    | overShift hs hp' hlt' =>
      obtain rfl := Option.some.inj (hq.symm.trans hp')
      exact .overShift hs hp (.inl (by omega))
    | rule hp' hq' hlt' =>
      obtain rfl := Option.some.inj (hq.symm.trans hp')
      exact .rule hp hq' (by omega)

theorem Beats.irrefl {x : Option RuleId} (h : Beats g items t x x) : False := by
  cases h with
  | rule hp hq hlt =>
    obtain rfl := Option.some.inj (hp.symm.trans hq)
    exact Nat.lt_irrefl _ hlt

theorem Beats.levels {id other : RuleId} (h : Beats g items t (some id) (some other)) :
    ∃ p q, (g.rule id).precedence = some p ∧ (g.rule other).precedence = some q ∧ q < p := by
  cases h with
  | rule hp hq hlt => exact ⟨_, _, hp, hq, hlt⟩

/-- Between a shift and a rule both have a precedence. -/
theorem Beats.strength {id : RuleId} (h : Beats g items t none (some id) ∨ Beats g items t (some id) none) :
    ∃ s level, shiftStrength g items t = some s ∧ (g.rule id).precedence = some level := by
  rcases h with h | h
  · cases h with
    | shift hs hp _ => exact ⟨_, _, hs, hp⟩
  · cases h with
    | overShift hs hp _ => exact ⟨_, _, hs, hp⟩

/-- A decision between the shift and a rule is for the one that beats the other. -/
theorem shiftWins_ok {id : RuleId} {wins : Bool}
    (h : shiftWins (shiftStrength g items t) (g.rule id) = .ok wins) :
    if wins then Beats g items t none (some id) else Beats g items t (some id) none := by
  unfold shiftWins at h
  split at h
  · rename_i s level hs hp
    obtain rfl := Except.ok.inj h
    split
    · rename_i hwins
      exact .shift hs hp (by simpa using hwins)
    · rename_i hwins
      simp only [Bool.or_eq_true, Bool.and_eq_true, decide_eq_true_eq, beq_iff_eq, not_or, not_and] at hwins
      refine .overShift hs hp ((Nat.lt_or_eq_of_le (Nat.le_of_not_lt hwins.1)).imp_right fun heq => ?_)
      exact ⟨heq.symm, by simpa using hwins.2 heq.symm⟩
  · cases h

/-- Without a decision neither beats the other. -/
theorem shiftWins_error {id : RuleId} {clash : Clash}
    (h : shiftWins (shiftStrength g items t) (g.rule id) = .error clash) :
    ¬ Beats g items t none (some id) ∧ ¬ Beats g items t (some id) none := by
  unfold shiftWins at h
  split at h
  · cases h
  · rename_i hopen
    have hnot : ¬ (Beats g items t none (some id) ∨ Beats g items t (some id) none) := fun hbeats =>
      have ⟨_, _, hs, hp⟩ := Beats.strength hbeats
      hopen _ _ hs hp
    exact not_or.mp hnot

/-- A decision between two rules is for the one that beats the other. -/
theorem firstWins_ok {first second : RuleId} {wins : Bool}
    (h : firstWins (g.rule first) (g.rule second) = .ok wins) :
    if wins then Beats g items t (some first) (some second)
    else Beats g items t (some second) (some first) := by
  unfold firstWins at h
  split at h
  · rename_i p q hp hq
    split at h
    · cases h
    · rename_i hne
      obtain rfl := Except.ok.inj h
      have hne : p ≠ q := by simpa using hne
      split
      · rename_i hwins
        exact .rule hp hq (of_decide_eq_true hwins)
      · rename_i hwins
        exact .rule hq hp (Nat.lt_of_le_of_ne (Nat.le_of_not_lt (by simpa using hwins)) hne)
  · cases h

/-- Without a decision neither rule beats the other. -/
theorem firstWins_error {first second : RuleId} {clash : Clash}
    (h : firstWins (g.rule first) (g.rule second) = .error clash) :
    ¬ Beats g items t (some first) (some second) ∧ ¬ Beats g items t (some second) (some first) := by
  unfold firstWins at h
  split at h
  · rename_i p q hp hq
    split at h
    · rename_i heq
      obtain rfl := beq_iff_eq.mp heq
      have hsame : ∀ {x y : RuleId}, (g.rule x).precedence = some p → (g.rule y).precedence = some p →
          ¬ Beats g items t (some x) (some y) := fun hx hy hbeats => by
        obtain ⟨_, _, hx', hy', hlt⟩ := hbeats.levels
        obtain rfl := Option.some.inj (hx.symm.trans hx')
        obtain rfl := Option.some.inj (hy.symm.trans hy')
        exact Nat.lt_irrefl _ hlt
      exact ⟨hsame hp hq, hsame hq hp⟩
    · cases h
  · rename_i hopen
    refine ⟨fun hbeats => ?_, fun hbeats => ?_⟩
    · obtain ⟨_, _, hp, hq, -⟩ := hbeats.levels
      exact hopen _ _ hp hq
    · obtain ⟨_, _, hq, hp, -⟩ := hbeats.levels
      exact hopen _ _ hp hq

/-- A rule is compared with what is in the entry: the shift, or another rule. -/
theorem resolve_some (g : Grammar) (items : List Item) (t : Terminal) (id : RuleId) (present : Action) :
    resolve g items t id (completion g id t) (some present) =
      match present.rule? with
      | none => do
        let wins ← shiftWins (shiftStrength g items t) (g.rule id)
        return if wins then present else completion g id t
      | some other =>
        if other == id then .ok (completion g id t)
        else do
          let wins ← firstWins (g.rule other) (g.rule id)
          return if wins then present else completion g id t := by
  cases present <;> rfl

/-- What is put into an entry: what was there, if it beats the rule, or else the rule. -/
theorem resolve_ok {id : RuleId} {present action : Action}
    (h : resolve g items t id (completion g id t) (some present) = .ok action) :
    (action = present ∧ Beats g items t present.rule? (some id)) ∨
      (action = completion g id t ∧
        (present.rule? = some id ∨ Beats g items t (some id) present.rule?)) := by
  rw [resolve_some] at h
  split at h
  · rename_i hrule
    rw [hrule]
    obtain ⟨wins, hwins, h⟩ := bind_eq_ok.mp h
    have hbeats := shiftWins_ok hwins
    cases wins with
    | true => exact .inl ⟨(Except.ok.inj h).symm, hbeats⟩
    | false => exact .inr ⟨(Except.ok.inj h).symm, .inr hbeats⟩
  · rename_i other hrule
    rw [hrule]
    split at h
    · rename_i heq
      exact .inr ⟨(Except.ok.inj h).symm, .inl (congrArg some (beq_iff_eq.mp heq))⟩
    · obtain ⟨wins, hwins, h⟩ := bind_eq_ok.mp h
      have hbeats : if wins then Beats g items t (some other) (some id)
          else Beats g items t (some id) (some other) := firstWins_ok hwins
      cases wins with
      | true => exact .inl ⟨(Except.ok.inj h).symm, hbeats⟩
      | false => exact .inr ⟨(Except.ok.inj h).symm, .inr hbeats⟩

/-- A clash is between two candidates of which neither beats the other. -/
theorem resolve_error {id : RuleId} {existing : Option Action} {clash : Clash}
    (h : resolve g items t id (completion g id t) existing = .error clash) :
    ∃ present, existing = some present ∧ present.rule? ≠ some id ∧
      ¬ Beats g items t present.rule? (some id) ∧ ¬ Beats g items t (some id) present.rule? := by
  cases existing with
  | none => cases h
  | some present =>
    refine ⟨present, rfl, ?_⟩
    rw [resolve_some] at h
    split at h
    · rename_i hrule
      rw [hrule]
      rcases bind_eq_error.mp h with h | ⟨_, _, h⟩
      · exact ⟨by simp, shiftWins_error h⟩
      · cases h
    · rename_i other hrule
      rw [hrule]
      split at h
      · cases h
      · rename_i hne
        rcases bind_eq_error.mp h with h | ⟨_, _, h⟩
        · exact ⟨by simpa using hne, firstWins_error h⟩
        · cases h

end Order

/-! ## 2. The strongest so far -/

/-- For every candidate taken so far the row has an entry that is this candidate or beats it. -/
structure Decided (g : Grammar) (items : List Item) (taken : Terminal → Option RuleId → Prop)
    (actions : List (Terminal × Action)) : Prop where
  keys : IncreasingKeys actions
  best : ∀ t y, taken t y → ∃ x, find? t actions = some x ∧ (x.rule? = y ∨ Beats g items t x.rule? y)

theorem Decided.mono {items : List Item} {taken taken' : Terminal → Option RuleId → Prop}
    {actions : List (Terminal × Action)} (h : Decided g items taken actions)
    (hsub : ∀ t y, taken' t y → taken t y) : Decided g items taken' actions :=
  ⟨h.keys, fun t y hy => h.best t y (hsub t y hy)⟩

/-- Taking one more rule before one terminal keeps the entries decided. -/
theorem Decided.set {items : List Item} {taken : Terminal → Option RuleId → Prop}
    {actions : List (Terminal × Action)} (h : Decided g items taken actions) {t : Terminal} {id : RuleId}
    {action : Action} (hok : resolve g items t id (completion g id t) (find? t actions) = .ok action) :
    Decided g items (fun u y => taken u y ∨ (u = t ∧ y = some id)) (Sorted.set t action actions) := by
  refine ⟨Sorted.increasingKeys_alter _ _ h.keys, fun u y htaken => ?_⟩
  by_cases hu : u = t
  · subst hu
    refine ⟨action, Sorted.find?_alter_self _ _ h.keys, ?_⟩
    have htaken : taken u y ∨ y = some id := htaken.imp_right And.right
    cases hfind : find? u actions with
    | none =>
      rw [hfind] at hok
      obtain rfl := Except.ok.inj hok
      rcases htaken with htaken | rfl
      · obtain ⟨x, hx, -⟩ := h.best u y htaken
        rw [hfind] at hx
        cases hx
      · exact .inl (rule?_completion ..)
    | some present =>
      rw [hfind] at hok
      have hpresent : ∀ y, taken u y → present.rule? = y ∨ Beats g items u present.rule? y := fun y hy => by
        obtain ⟨x, hx, hbest⟩ := h.best u y hy
        obtain rfl := Option.some.inj (hfind.symm.trans hx)
        exact hbest
      rcases resolve_ok hok with ⟨rfl, hbeats⟩ | ⟨rfl, hbeats⟩
      · rcases htaken with htaken | rfl
        · exact hpresent y htaken
        · exact .inr hbeats
      · rw [rule?_completion]
        rcases htaken with htaken | rfl
        · -- the rule takes the place of an entry, and with it all that this beats
          rcases hbeats with heq | hbeats
          · exact heq ▸ hpresent y htaken
          · rcases hpresent y htaken with rfl | hy
            · exact .inr hbeats
            · exact .inr (hbeats.trans hy)
        · exact .inl rfl
  · rcases htaken with htaken | ⟨heq, -⟩
    · rw [Sorted.set, Sorted.find?_alter_ne hu]
      exact h.best u y htaken
    · exact absurd heq hu

/-- One rule is taken, before each of its lookaheads. -/
theorem addReductions_decided {items : List Item} {c : Completion} :
    ∀ {ts : List Terminal} {actions : List (Terminal × Action)} {problems : List GrammarProblem}
      {taken : Terminal → Option RuleId → Prop}, Decided g items taken actions →
    (addReductions g items c ts actions problems).2 = [] →
    Decided g items (fun t y => taken t y ∨ (t ∈ ts ∧ y = some c.rule))
      (addReductions g items c ts actions problems).1
  | [], _, _, _, h, _ => h.mono fun _ _ hy => hy.resolve_right (by simp)
  | t :: ts, actions, problems, taken, h, hnil => by
    simp only [addReductions] at hnil ⊢
    split at hnil
    · rename_i action hok
      refine (addReductions_decided (h.set hok) hnil).mono fun u y hy => ?_
      rw [List.mem_cons, or_and_right] at hy
      rwa [or_assoc]
    · have := addReductions_nil hnil
      simp at this

/-- **All rules are taken**, one after the other. -/
theorem addAll_decided : ∀ {completions : List (Completion × List Terminal)} {rows : Array TableRow}
    {problems : List GrammarProblem} {taken : StateId → Terminal → Option RuleId → Prop},
    (∀ c ts, (c, ts) ∈ completions → c.state < rows.size) →
    (∀ (s : StateId) row, rows[s]? = some row → Decided g (a.items s) (taken s) row.actions) →
    (addAll g a completions rows problems).2 = [] →
    ∀ (s : StateId) row, (addAll g a completions rows problems).1[s]? = some row →
      Decided g (a.items s) (fun t y => taken s t y ∨
        ∃ c ts, (c, ts) ∈ completions ∧ c.state = s ∧ t ∈ ts ∧ y = some c.rule) row.actions
  | [], _, _, _, _, h, _, s, row, hrow => (h s row hrow).mono fun _ _ hy => hy.resolve_right (by simp)
  | (c, ts) :: completions, rows, problems, taken, hlt, h, hnil, s, row, hrow => by
    simp only [addAll] at hnil hrow
    cases hfind : rows[c.state]? with
    | none =>
      exact absurd (hlt c ts List.mem_cons_self) (Nat.not_lt.mpr (Array.getElem?_eq_none_iff.mp hfind))
    | some present =>
      rw [hfind] at hnil hrow
      have hadded := addReductions_decided (h c.state present hfind) (addAll_nil hnil)
      have hrows : ∀ (s : StateId) row, (rows.setIfInBounds c.state { present with
          actions := (addReductions g (a.items c.state) c ts present.actions problems).1 })[s]? = some row →
          Decided g (a.items s) (fun t y => taken s t y ∨ (c.state = s ∧ t ∈ ts ∧ y = some c.rule))
            row.actions := by
        intro s row hs
        rcases getElem?_setActions hfind hs with ⟨rfl, rfl⟩ | ⟨hne, hs⟩
        · exact hadded.mono fun t y hy => hy.imp_right And.right
        · exact (h s row hs).mono fun t y hy => hy.resolve_right fun hy => hne hy.1.symm
      have hlt' : ∀ c' ts', (c', ts') ∈ completions → c'.state < (rows.setIfInBounds c.state { present with
          actions := (addReductions g (a.items c.state) c ts present.actions problems).1 }).size :=
        fun c' ts' hmem => by
          rw [Array.size_setIfInBounds]
          exact hlt c' ts' (List.mem_cons_of_mem _ hmem)
      refine (addAll_decided hlt' hrows hnil s row hrow).mono fun t y hy => ?_
      rcases hy with hy | ⟨c', ts', hmem, hy⟩
      · exact .inl (.inl hy)
      · rcases List.mem_cons.mp hmem with heq | hmem
        · obtain ⟨rfl, rfl⟩ := Prod.mk.inj heq
          exact .inl (.inr hy)
        · exact .inr ⟨c', ts', hmem, hy⟩

/-! ## 3. Entries and conflicts -/

/-- What a state may do before a terminal: shift it, or complete a rule that has it as lookahead. -/
inductive Candidate (g : Grammar) (a : Automaton) (paths : List PathRule) (s : StateId) (t : Terminal) :
    Action → Prop
  | shift {target : StateId} : a.goto? s (.terminal t) = some target → Candidate g a paths s t (.shift target)
  | rule {id : RuleId} {ts : List Terminal} : (⟨s, id⟩, ts) ∈ lookaheads g paths → t ∈ ts →
      Candidate g a paths s t (completion g id t)

/-- Candidates are known by the rules they complete. -/
theorem Candidate.eq_of_rule? {paths : List PathRule} {s : StateId} {t : Terminal} {x y : Action}
    (hx : Candidate g a paths s t x) (hy : Candidate g a paths s t y) (h : x.rule? = y.rule?) : x = y := by
  cases hx with
  | shift hgoto =>
    cases hy with
    | shift hgoto' => rw [Option.some.inj (hgoto.symm.trans hgoto')]
    | rule =>
      rw [rule?_completion] at h
      cases h
  | rule =>
    cases hy with
    | shift =>
      rw [rule?_completion] at h
      cases h
    | rule =>
      rw [rule?_completion, rule?_completion] at h
      rw [Option.some.inj h]

/-- The shifts are candidates. -/
theorem rows_candidate (h : Automaton.ofGrammar g = .ok a) (hstart : g.startRule < g.rules.length)
    (paths : List PathRule) (s : StateId) (row : TableRow)
    (hrow : (a.states.map rowOfMoves)[s]? = some row) :
    ∀ entry ∈ row.actions, Candidate g a paths s entry.1 entry.2 := by
  intro entry hentry
  rw [Array.getElem?_map, Option.map_eq_some_iff] at hrow
  obtain ⟨state, hstate, rfl⟩ := hrow
  obtain ⟨t, target, hmove, rfl⟩ := mem_shifts hentry
  have hkeys := Automaton.increasingKeys_moves h hstart hstate
  exact .shift (by simp [Automaton.goto?, hstate, Sorted.find?_of_mem hkeys hmove])

namespace Made

variable {table : ParseTable} {paths : List PathRule} (m : Made g table a paths)
include m

/-- Rules are completed in states of the automaton. -/
theorem state_lt {c : Completion} {ts : List Terminal} (hmem : (c, ts) ∈ lookaheads g paths) :
    c.state < a.states.size := by
  obtain ⟨path, hpath, rfl⟩ := mem_keys_lookaheads.mp (List.mem_map.mpr ⟨_, hmem, rfl⟩)
  obtain ⟨s, id, found, rhs, final, hitem, hfound, hw, rfl⟩ := (Automaton.mem_pathRules m.walks).mp hpath
  have hcomplete := (Automaton.path_of_mem_walks hfound hw).complete m.tracks (k := 0) List.drop_zero hitem
  obtain ⟨state, hstate, -⟩ := Automaton.mem_items_iff.mp hcomplete
  exact (Array.getElem?_eq_some_iff.mp hstate).1

/-- Every entry is a candidate. -/
theorem candidate {s : StateId} {t : Terminal} {action : Action} (h : table.action? s t = some action) :
    Candidate g a paths s t action := by
  have hall := addAll_forall (g := g) (a := a) (P := Candidate g a paths) (lookaheads g paths)
    (a.states.map rowOfMoves) [] (fun c ts t hmem ht => .rule hmem ht)
    (rows_candidate m.automaton m.proper.startRule_lt paths)
  obtain ⟨row, hrow, hfind⟩ := Option.bind_eq_some_iff.mp h
  rw [m.rows] at hall
  exact hall s row hrow _ (Sorted.mem_of_find? hfind)

/-- Every candidate has an entry in its place that is this candidate or beats it. -/
theorem exists_action {s : StateId} {t : Terminal} {other : Action}
    (h : Candidate g a paths s t other) : ∃ action, table.action? s t = some action ∧
      (action.rule? = other.rule? ∨ Beats g (a.items s) t action.rule? other.rule?) := by
  -- at the beginning only shifts are taken
  have hinitial : ∀ (s : StateId) row, (a.states.map rowOfMoves)[s]? = some row →
      Decided g (a.items s) (fun t y => y = none ∧ ∃ target, a.goto? s (.terminal t) = some target)
        row.actions := by
    intro s row hrow
    rw [Array.getElem?_map, Option.map_eq_some_iff] at hrow
    obtain ⟨state, hstate, rfl⟩ := hrow
    refine ⟨increasingKeys_shifts
      (Automaton.increasingKeys_moves m.automaton m.proper.startRule_lt hstate), ?_⟩
    rintro t _ ⟨rfl, target, hgoto⟩
    simp only [Automaton.goto?, hstate, Option.bind_some] at hgoto
    exact ⟨.shift target, (find?_shifts t state.moves).trans (by rw [hgoto]; rfl), .inl rfl⟩
  have hlt : ∀ c ts, (c, ts) ∈ lookaheads g paths → c.state < (a.states.map rowOfMoves).size :=
    fun c ts hmem => by
      rw [Array.size_map]
      exact m.state_lt hmem
  have hdecided := addAll_decided hlt hinitial (congrArg Prod.snd m.rows)
  rw [m.rows] at hdecided
  have htaken : s < a.states.size ∧
      ((other.rule? = none ∧ ∃ target, a.goto? s (.terminal t) = some target) ∨
        ∃ c ts, (c, ts) ∈ lookaheads g paths ∧ c.state = s ∧ t ∈ ts ∧ other.rule? = some c.rule) := by
    cases h with
    | shift hgoto =>
      obtain ⟨state, hstate, -⟩ := Option.bind_eq_some_iff.mp hgoto
      exact ⟨(Array.getElem?_eq_some_iff.mp hstate).1, .inl ⟨rfl, _, hgoto⟩⟩
    | rule hmem ht => exact ⟨m.state_lt hmem, .inr ⟨_, _, hmem, rfl, ht, rule?_completion ..⟩⟩
  have hrow : ∃ row, table.rows[s]? = some row := by
    have hstatic := m.static s
    rw [Array.getElem?_eq_getElem htaken.1, Option.map_some, Option.map_eq_some_iff] at hstatic
    exact hstatic.imp fun _ => And.left
  obtain ⟨row, hrow⟩ := hrow
  obtain ⟨action, hfind, hbest⟩ := (hdecided s row hrow).best t other.rule? htaken.2
  exact ⟨action, by rw [action?, hrow]; exact hfind, hbest⟩

/-- **The entry of a table is the candidate that beats all others.** -/
theorem action?_iff_strongest {s : StateId} {t : Terminal} {action : Action} :
    table.action? s t = some action ↔ Candidate g a paths s t action ∧
      ∀ other, Candidate g a paths s t other → other ≠ action →
        Beats g (a.items s) t action.rule? other.rule? := by
  constructor
  · intro h
    have hcandidate := m.candidate h
    refine ⟨hcandidate, fun other hother hne => ?_⟩
    obtain ⟨action', haction', hbest⟩ := m.exists_action hother
    obtain rfl := Option.some.inj (h.symm.trans haction')
    exact hbest.resolve_left fun heq => hne (hother.eq_of_rule? hcandidate heq.symm)
  · rintro ⟨hcandidate, hbeats⟩
    obtain ⟨action', haction', hbest⟩ := m.exists_action hcandidate
    have hcandidate' := m.candidate haction'
    by_cases heq : action' = action
    · rwa [heq] at haction'
    · have hover := hbeats action' hcandidate' heq
      rcases hbest with hsame | hbest
      · exact absurd (hcandidate'.eq_of_rule? hcandidate hsame) heq
      · exact absurd (hover.trans hbest) Beats.irrefl

end Made

/-- Two candidates of which neither beats the other. -/
def Undecided (g : Grammar) (a : Automaton) (paths : List PathRule) (s : StateId) (t : Terminal) : Prop :=
  ∃ x y, Candidate g a paths s t x ∧ Candidate g a paths s t y ∧ x ≠ y ∧
    ¬ Beats g (a.items s) t x.rule? y.rule? ∧ ¬ Beats g (a.items s) t y.rule? x.rule?

/-- Only conflicts between candidates that precedence leaves open. -/
def Open (g : Grammar) (a : Automaton) (paths : List PathRule) (problems : List GrammarProblem) : Prop :=
  ∀ s t clash, .conflict s t clash ∈ problems → Undecided g a paths s t

/-- Conflicts of one rule are between candidates that precedence leaves open. -/
theorem addReductions_open {paths : List PathRule} {c : Completion} :
    ∀ {ts : List Terminal} {actions : List (Terminal × Action)} {problems : List GrammarProblem},
    (∀ t ∈ ts, Candidate g a paths c.state t (completion g c.rule t)) →
    (∀ entry ∈ actions, Candidate g a paths c.state entry.1 entry.2) → Open g a paths problems →
    Open g a paths (addReductions g (a.items c.state) c ts actions problems).2
  | [], _, _, _, _, h => h
  | t :: ts, actions, problems, hts, hactions, h => by
    obtain ⟨ht, hts⟩ := List.forall_mem_cons.mp hts
    simp only [addReductions]
    split
    · rename_i action hok
      refine addReductions_open hts (fun entry hentry => ?_) h
      rcases Sorted.mem_alter hentry with hmem | ⟨_, _, hkey, hval⟩
      · exact hactions entry hmem
      · rw [hkey, hval]
        rcases resolve_eq hok with rfl | hexisting
        · exact ht
        · exact hactions _ (Sorted.mem_of_find? hexisting)
    · rename_i clash hclash
      refine addReductions_open hts hactions fun s u clash' hmem => ?_
      rcases List.mem_append.mp hmem with hmem | hmem
      · exact h s u clash' hmem
      · obtain ⟨rfl, rfl, -⟩ := GrammarProblem.conflict.inj (List.mem_singleton.mp hmem)
        obtain ⟨present, hpresent, hne, hleft, hright⟩ := resolve_error hclash
        refine ⟨present, completion g c.rule u, hactions _ (Sorted.mem_of_find? hpresent), ht, ?_, ?_⟩
        · rintro rfl
          exact hne (rule?_completion ..)
        · rw [rule?_completion]
          exact ⟨hleft, hright⟩

/-- Conflicts of all rules are between candidates that precedence leaves open. -/
theorem addAll_open {paths : List PathRule} : ∀ {completions : List (Completion × List Terminal)}
    {rows : Array TableRow} {problems : List GrammarProblem},
    (∀ c ts t, (c, ts) ∈ completions → t ∈ ts → Candidate g a paths c.state t (completion g c.rule t)) →
    (∀ (s : StateId) row, rows[s]? = some row →
      ∀ entry ∈ row.actions, Candidate g a paths s entry.1 entry.2) → Open g a paths problems →
    Open g a paths (addAll g a completions rows problems).2
  | [], _, _, _, _, h => h
  | (c, ts) :: completions, rows, problems, hc, hrows, h => by
    have hrest := fun c' ts' t' hmem => hc c' ts' t' (List.mem_cons_of_mem _ hmem)
    have hts : ∀ t ∈ ts, Candidate g a paths c.state t (completion g c.rule t) :=
      fun t => hc c ts t List.mem_cons_self
    simp only [addAll]
    cases hrow : rows[c.state]? with
    | none => exact addAll_open hrest hrows h
    | some row =>
      refine addAll_open hrest (fun s' row' hrow' => ?_) (addReductions_open hts (hrows c.state row hrow) h)
      rcases getElem?_setActions hrow hrow' with ⟨rfl, rfl⟩ | ⟨_, hrow'⟩
      · exact addReductions_forall (P := Candidate g a paths c.state) hts (hrows c.state row hrow)
      · exact hrows s' row' hrow'

/-- **A conflict is reported only where precedence leaves two candidates open.** -/
theorem conflict_undecided (hg : g.Proper) (ha : Automaton.ofGrammar g = .ok a) {paths : List PathRule}
    (hpaths : a.pathRules g = .ok paths) {problems : List GrammarProblem}
    (h : ofGrammar g = .error ⟨.grammar problems, none⟩) : Open g a paths problems := by
  simp only [ofGrammar, bind_eq_error, ha, hpaths, Except.ok.injEq, exists_eq_left', reduceCtorEq,
    false_or] at h
  have hopen : Open g a paths (addAll g a (lookaheads g paths) (a.states.map rowOfMoves) []).2 :=
    addAll_open (fun _ _ _ => .rule) (rows_candidate ha hg.startRule_lt paths)
      fun _ _ _ hmem => absurd hmem List.not_mem_nil
  split at h
  · cases h
  · rename_i rows found _ hrows
    rw [hrows] at hopen
    cases h
    exact hopen

end ParseTable

end Lode
