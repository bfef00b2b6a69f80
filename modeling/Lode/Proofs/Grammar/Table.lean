/-
# What the entries of a parse table mean

Every entry of a table comes from the automaton: a shift from a move over the terminal, a reduction from a
rule that is complete in the state, and acceptance from the start rule before an end terminal
(`action?_justified`).  Gotos are the moves over nonterminals (`goto?_eq`).

Without precedences the converse holds too, because a lookahead that two actions claim is a conflict and a
table is only made if there is none: every move over a terminal is a shift (`action?_shift`) and every
lookahead of a completed rule is a reduction (`action?_completion`).

The rows start with the shifts, and then reductions are added to them one after the other, each of which may
replace an entry, be dropped, or be recorded as a conflict.  Three kinds of statements are made about this.
Nothing else is put into a row (`addAll_forall`), which is all that the first result needs.  Gotos and modes
are not touched (`addAll_static`).  And if no conflict was recorded and no precedence is in play, then no
entry was replaced (`addAll_clean`), because a conflict, once recorded, is never forgotten (`addAll_nil`).

What precedences decide is the subject of `Resolution`.
-/
import Lode.Grammar.Table
import Lode.Proofs.Grammar.FirstFollow
import Lode.Proofs.Grammar.Walks

namespace Lode

open Sorted (find? IncreasingKeys Increasing)

/-! ## 1. Path rules and lookaheads -/

namespace Automaton

variable {g : Grammar} {a : Automaton}

theorem mem_items_iff {s : StateId} {i : Item} :
    i ∈ a.items s ↔ ∃ state, a.states[s]? = some state ∧ i ∈ state.items := by
  unfold Automaton.items
  cases a.states[s]? <;> simp

/-- The left-hand side of the walks of a rule from a state. -/
def lhsPath (g : Grammar) (a : Automaton) (s : StateId) (id : RuleId) : PathSymbol :=
  ⟨s, .nonterminal (g.rule id).lhs, a.goto? s (.nonterminal (g.rule id).lhs)⟩

/-- The states with the rules that begin there. -/
def pathStarts (a : Automaton) : List (StateId × RuleId) :=
  a.states.toList.zipIdx.flatMap fun (state, id) =>
    (state.items.filter (·.point == 0)).map fun item => (id, item.rule)

/-- A rule begins in the states that hold it untouched. -/
theorem mem_pathStarts {s : StateId} {id : RuleId} : (s, id) ∈ a.pathStarts ↔ ⟨id, 0⟩ ∈ a.items s := by
  simp only [pathStarts, List.mem_flatMap, List.mem_map, List.mem_filter, beq_iff_eq, Prod.mk.injEq,
    Prod.exists, mem_items_iff, List.mem_zipIdx_iff_getElem?, Array.getElem?_toList]
  constructor
  · rintro ⟨state, n, hstate, ⟨r, k⟩, ⟨hitem, rfl⟩, rfl, rfl⟩
    exact ⟨state, hstate, hitem⟩
  · rintro ⟨state, hstate, hitem⟩
    exact ⟨state, s, hstate, ⟨id, 0⟩, ⟨hitem, rfl⟩, rfl, rfl⟩

theorem pathRules_eq_ok {paths : List PathRule} : a.pathRules g = .ok paths ↔
    ∃ found, a.pathStarts.mapM (fun start => a.pathRulesOf g start.1 start.2) = .ok found ∧
      paths = found.flatten := by
  simp only [pathRules, bind_eq_ok, pure, Except.pure, Except.ok.injEq]
  exact exists_congr fun found => and_congr_right fun _ => eq_comm

theorem pathRulesOf_eq_ok {s : StateId} {id : RuleId} {rules : List PathRule} :
    a.pathRulesOf g s id = .ok rules ↔ ∃ found, a.walks (g.rule id).rhs s = .ok found ∧
      rules = found.map fun walk => ⟨id, lhsPath g a s id, walk.1, walk.2⟩ := by
  simp only [pathRulesOf, bind_eq_ok, pure, Except.pure, Except.ok.injEq, lhsPath]
  exact exists_congr fun found => and_congr_right fun _ => eq_comm

/-- The path rules are the walks of all items with the point in front. -/
theorem mem_pathRules {paths : List PathRule} (h : a.pathRules g = .ok paths) {path : PathRule} :
    path ∈ paths ↔ ∃ s id found rhs final, ⟨id, 0⟩ ∈ a.items s ∧
      a.walks (g.rule id).rhs s = .ok found ∧ (rhs, final) ∈ found ∧
      path = ⟨id, lhsPath g a s id, rhs, final⟩ := by
  obtain ⟨found, hfound, rfl⟩ := pathRules_eq_ok.mp h
  rw [List.mem_flatten]
  constructor
  · rintro ⟨rules, hrules, hpath⟩
    obtain ⟨⟨s, id⟩, hmem, hok⟩ := exists_of_mem_mapM hfound hrules
    obtain ⟨ws, hws, rfl⟩ := pathRulesOf_eq_ok.mp hok
    obtain ⟨⟨rhs, final⟩, hw, rfl⟩ := List.mem_map.mp hpath
    exact ⟨s, id, ws, rhs, final, mem_pathStarts.mp hmem, hws, hw, rfl⟩
  · rintro ⟨s, id, ws, rhs, final, hitem, hws, hw, rfl⟩
    obtain ⟨rules, hrules, hok⟩ := exists_mem_mapM hfound (mem_pathStarts.mpr hitem)
    obtain ⟨ws', hws', rfl⟩ := pathRulesOf_eq_ok.mp hok
    obtain rfl := Except.ok.inj (hws.symm.trans hws')
    exact ⟨_, hrules, List.mem_map.mpr ⟨(rhs, final), hw, rfl⟩⟩

/-- Over an automaton that tracks the grammar every rule has its walks. -/
theorem pathRules_ok (ha : a.Tracks g) : ∃ paths, a.pathRules g = .ok paths := by
  obtain ⟨found, hfound⟩ := (mapM_ok_iff (f := fun start : StateId × RuleId =>
    a.pathRulesOf g start.1 start.2)).mpr fun start hstart => by
    obtain ⟨walks, hwalks⟩ := walks_ok ha (k := 0) List.drop_zero (mem_pathStarts.mp hstart)
    exact ⟨_, pathRulesOf_eq_ok.mpr ⟨walks, hwalks, rfl⟩⟩
  exact ⟨_, pathRules_eq_ok.mpr ⟨found, hfound, rfl⟩⟩

end Automaton

/-- The productions over path symbols. -/
def pathProductions (paths : List PathRule) : List (Production PathSymbol) :=
  paths.map fun path => ⟨path.lhs, path.rhs⟩

/-- The Follow sets of path symbols. -/
def pathFollow (g : Grammar) (paths : List PathRule) : TerminalSets PathSymbol :=
  followSets (pathProductions paths) ⟨0, .nonterminal g.start, none⟩ g.ends

/-- **The lookaheads**: which completions have some, and which terminals they are. -/
theorem lookaheads_spec (follow : TerminalSets PathSymbol) : ∀ (paths : List PathRule)
    (found : List (Completion × List Terminal)), IncreasingKeys found →
    let result := paths.foldl (fun found path =>
      Sorted.alter ⟨path.final, path.rule⟩
        (fun old => Sorted.union (old.getD []) (follow.of path.lhs)) found) found
    IncreasingKeys result ∧ ∀ c t, t ∈ (find? c result).getD [] ↔
      (∃ path ∈ paths, c = ⟨path.final, path.rule⟩ ∧ t ∈ follow.of path.lhs) ∨
        t ∈ (find? c found).getD []
  | [], found, h => ⟨h, by simp⟩
  | path :: paths, found, h => by
    obtain ⟨hinc, hmem⟩ := lookaheads_spec follow paths _
      (Sorted.increasingKeys_alter ⟨path.final, path.rule⟩
        (fun old => Sorted.union (old.getD []) (follow.of path.lhs)) h)
    refine ⟨hinc, fun c t => ?_⟩
    rw [List.foldl_cons, hmem, List.exists_mem_cons_iff]
    by_cases hc : c = ⟨path.final, path.rule⟩
    · subst hc
      rw [Sorted.find?_alter_self _ _ h, Option.getD_some, Sorted.mem_union]
      simp only [true_and]
      rw [or_assoc]
      exact or_rotate.symm
    · rw [Sorted.find?_alter_ne hc]
      simp [hc]

/-- A rule may be reduced before a terminal if one of its walks to the state is followed by it. -/
theorem mem_lookaheads {g : Grammar} {paths : List PathRule} {c : Completion} {t : Terminal} :
    (∃ ts, (c, ts) ∈ lookaheads g paths ∧ t ∈ ts) ↔
      ∃ path ∈ paths, c = ⟨path.final, path.rule⟩ ∧ t ∈ (pathFollow g paths).of path.lhs := by
  obtain ⟨hinc, hmem⟩ := lookaheads_spec (pathFollow g paths) paths []
    List.Pairwise.nil
  have hmem := hmem c t
  simp only [find?, Option.getD_none, List.not_mem_nil, or_false] at hmem
  rw [← hmem]
  constructor
  · rintro ⟨ts, hts, ht⟩
    rw [Sorted.find?_of_mem hinc hts]
    exact ht
  · intro ht
    cases hfind : find? c (lookaheads g paths) with
    | none =>
      have hfind' := hfind
      unfold lookaheads at hfind'
      rw [pathFollow, pathProductions] at ht
      simp [hfind'] at ht
    | some ts =>
      refine ⟨ts, Sorted.mem_of_find? hfind, ?_⟩
      unfold lookaheads at hfind
      rw [pathFollow, pathProductions, hfind] at ht
      exact ht

/-- The completions are those of the walks. -/
theorem mem_keys_lookaheads {g : Grammar} {paths : List PathRule} {c : Completion} :
    c ∈ (lookaheads g paths).map Prod.fst ↔ ∃ path ∈ paths, c = ⟨path.final, path.rule⟩ := by
  have general : ∀ (follow : TerminalSets PathSymbol) (paths : List PathRule)
      (found : List (Completion × List Terminal)),
      c ∈ (paths.foldl (fun found path => Sorted.alter ⟨path.final, path.rule⟩
        (fun old => Sorted.union (old.getD []) (follow.of path.lhs)) found) found).map Prod.fst ↔
      (∃ path ∈ paths, c = ⟨path.final, path.rule⟩) ∨ c ∈ found.map Prod.fst := by
    intro follow paths
    induction paths with
    | nil => simp
    | cons path paths ih =>
      intro found
      rw [List.foldl_cons, ih, Sorted.mem_keys_alter, List.exists_mem_cons_iff, or_left_comm, or_assoc]
  exact (general _ paths []).trans (by simp)

/-! ## 2. Rows -/

/-- The shifts among the moves of a state. -/
def shifts (moves : List (Symbol × StateId)) : List (Terminal × Action) :=
  moves.filterMap fun (symbol, target) =>
    match symbol with
    | .terminal t => some (t, .shift target)
    | .nonterminal _ => none

/-- A shift is a move over a terminal. -/
theorem find?_shifts (t : Terminal) : ∀ moves : List (Symbol × StateId),
    find? t (shifts moves) = (find? (.terminal t) moves).map .shift
  | [] => rfl
  | (.nonterminal n, u) :: moves => by
    rw [Sorted.find?_cons_ne (by simp), ← find?_shifts t moves]
    rfl
  | (.terminal t', u) :: moves => by
    have ih := find?_shifts t moves
    by_cases ht : t = t'
    · subst ht
      rw [Sorted.find?_cons_self]
      exact Sorted.find?_cons_self _ _ _
    · rw [Sorted.find?_cons_ne (by simpa using ht), ← ih]
      exact Sorted.find?_cons_ne ht _ _

theorem mem_shifts {moves : List (Symbol × StateId)} {entry : Terminal × Action} :
    entry ∈ shifts moves → ∃ t target, (.terminal t, target) ∈ moves ∧
      entry = (t, .shift target) := by
  intro h
  obtain ⟨⟨X, target⟩, hmem, heq⟩ := List.mem_filterMap.mp h
  cases X with
  | terminal t => exact ⟨t, target, hmem, (Option.some.inj heq).symm⟩
  | nonterminal n => simp at heq

/-- Shifts are in the order of their terminals. -/
theorem increasingKeys_shifts : ∀ {moves : List (Symbol × StateId)}, IncreasingKeys moves →
    IncreasingKeys (shifts moves)
  | [], _ => List.Pairwise.nil
  | (.nonterminal n, u) :: moves, h => by
    have htail : IncreasingKeys moves := (List.pairwise_cons.mp h).2
    have ih := increasingKeys_shifts htail
    exact ih
  | (.terminal t, u) :: moves, h => by
    obtain ⟨hhead, htail⟩ := List.pairwise_cons.mp h
    refine List.pairwise_cons.mpr ⟨fun t' ht' => ?_, increasingKeys_shifts htail⟩
    obtain ⟨entry, hentry, rfl⟩ := List.mem_map.mp ht'
    obtain ⟨t', target, hmove, rfl⟩ := mem_shifts hentry
    have := hhead _ (List.mem_map.mpr ⟨_, hmove, rfl⟩)
    rwa [Symbol.compare_terminal] at this

namespace ParseTable

variable {g : Grammar} {a : Automaton}

/-- What is decided between two actions is one of them. -/
theorem resolve_eq {items : List Item} {t : Terminal} {id : RuleId} {candidate action : Action}
    {existing : Option Action} (h : resolve g items t id candidate existing = .ok action) :
    action = candidate ∨ existing = some action := by
  unfold resolve at h
  split at h
  · exact .inl (Except.ok.inj h).symm
  · obtain ⟨wins, _, h⟩ := bind_eq_ok.mp h
    cases wins with
    | true => exact .inr (congrArg some (Except.ok.inj h))
    | false => exact .inl (Except.ok.inj h).symm
  · exact settle_eq h
  · exact settle_eq h
where
  settle_eq {other : RuleId} {present : Action}
      (h : resolve.settle g id candidate other present = .ok action) :
      action = candidate ∨ some present = some action := by
    unfold resolve.settle at h
    split at h
    · exact .inl (Except.ok.inj h).symm
    · obtain ⟨wins, _, h⟩ := bind_eq_ok.mp h
      cases wins with
      | true => exact .inr (congrArg some (Except.ok.inj h))
      | false => exact .inl (Except.ok.inj h).symm

/-- The reductions of a rule put nothing else into a row. -/
theorem addReductions_forall {P : Terminal → Action → Prop} {items : List Item} {c : Completion} :
    ∀ {ts : List Terminal} {actions : List (Terminal × Action)} {problems : List GrammarProblem},
    (∀ t ∈ ts, P t (completion g c.rule t)) → (∀ entry ∈ actions, P entry.1 entry.2) →
    ∀ entry ∈ (addReductions g items c ts actions problems).1, P entry.1 entry.2
  | [], _, _, _, h => h
  | t :: ts, actions, problems, hts, h => by
    have hrest := fun u hu => hts u (List.mem_cons_of_mem _ hu)
    simp only [addReductions]
    split
    · rename_i action hresolve
      refine addReductions_forall hrest fun entry hentry => ?_
      rcases Sorted.mem_alter hentry with hmem | ⟨_, _, hkey, hval⟩
      · exact h entry hmem
      · rw [hkey, hval]
        rcases resolve_eq hresolve with rfl | hexisting
        · exact hts t List.mem_cons_self
        · exact h _ (Sorted.mem_of_find? hexisting)
    · exact addReductions_forall hrest h

/-- A row with other actions. -/
theorem getElem?_setActions {rows : Array TableRow} {s s' : StateId} {row row' : TableRow}
    {actions : List (Terminal × Action)} (hrow : rows[s]? = some row)
    (h : (rows.setIfInBounds s { row with actions := actions })[s']? = some row') :
    (s' = s ∧ row' = { row with actions := actions }) ∨ (s' ≠ s ∧ rows[s']? = some row') := by
  rw [Array.getElem?_setIfInBounds] at h
  by_cases heq : s = s'
  · subst heq
    rw [if_pos rfl, if_pos (Array.getElem?_eq_some_iff.mp hrow).1] at h
    exact .inl ⟨rfl, (Option.some.inj h).symm⟩
  · rw [if_neg heq] at h
    exact .inr ⟨Ne.symm heq, h⟩

/-- Adding reductions puts nothing else into the rows. -/
theorem addAll_forall {P : StateId → Terminal → Action → Prop} :
    ∀ (completions : List (Completion × List Terminal)) (rows : Array TableRow)
      (problems : List GrammarProblem),
    (∀ c ts t, (c, ts) ∈ completions → t ∈ ts → P c.state t (completion g c.rule t)) →
    (∀ (s : StateId) row, rows[s]? = some row → ∀ entry ∈ row.actions, P s entry.1 entry.2) →
    ∀ (s : StateId) row, (addAll g a completions rows problems).1[s]? = some row →
      ∀ entry ∈ row.actions, P s entry.1 entry.2
  | [], _, _, _, h => h
  | (c, ts) :: completions, rows, problems, hc, h => by
    have hrest := fun c' ts' t' hmem => hc c' ts' t' (List.mem_cons_of_mem _ hmem)
    simp only [addAll]
    cases hrow : rows[c.state]? with
    | none => exact addAll_forall completions rows problems hrest h
    | some row =>
      refine addAll_forall completions _ _ hrest fun s' row' hrow' => ?_
      rcases getElem?_setActions hrow hrow' with ⟨rfl, rfl⟩ | ⟨_, hrow'⟩
      · exact addReductions_forall (P := P c.state)
          (fun t ht => hc c ts t List.mem_cons_self ht) (h c.state row hrow)
      · exact h s' row' hrow'

/-- Adding reductions changes nothing but the actions. -/
theorem addAll_static : ∀ (completions : List (Completion × List Terminal))
    (rows : Array TableRow) (problems : List GrammarProblem) (s : StateId),
    ((addAll g a completions rows problems).1[s]?).map (fun row => (row.gotos, row.mode)) =
      (rows[s]?).map fun row => (row.gotos, row.mode)
  | [], _, _, _ => rfl
  | (c, ts) :: completions, rows, problems, s => by
    simp only [addAll]
    cases hrow : rows[c.state]? with
    | none => exact addAll_static completions rows problems s
    | some row =>
      rw [addAll_static completions _ _ s, Array.getElem?_setIfInBounds]
      by_cases heq : c.state = s
      · subst heq
        rw [if_pos rfl, if_pos (Array.getElem?_eq_some_iff.mp hrow).1, hrow]
        rfl
      · rw [if_neg heq]

/-! ## 3. Rows without precedences -/

/-- An entry that needs no precedence: a shift, or the completion of a rule. -/
def Plain (g : Grammar) (t : Terminal) (action : Action) : Prop :=
  (∃ target, action = .shift target) ∨ ∃ id, action = completion g id t

theorem completion_cases (g : Grammar) (id : RuleId) (t : Terminal) :
    completion g id t = .accept id ∨ completion g id t = .reduce id := by
  unfold completion
  split
  · exact .inl rfl
  · exact .inr rfl

/-- Without a precedence two different actions for a lookahead are a clash. -/
theorem resolve_plain {items : List Item} {t : Terminal} {id : RuleId} {action : Action}
    {existing : Option Action} (hnone : (g.rule id).precedence = none)
    (hplain : ∀ present, existing = some present → Plain g t present)
    (h : resolve g items t id (completion g id t) existing = .ok action) :
    action = completion g id t ∧ (existing = none ∨ existing = some action) := by
  cases existing with
  | none => exact ⟨(Except.ok.inj h).symm, .inl rfl⟩
  | some present =>
    rcases hplain present rfl with ⟨target, rfl⟩ | ⟨other, rfl⟩
    · simp [resolve, shiftWins, hnone, bind, Except.bind] at h
    · have hsettle : resolve.settle g id (completion g id t) other (completion g other t) =
          .ok action := by
        rcases completion_cases g other t with heq | heq
        · rw [heq] at h ⊢
          exact h
        · rw [heq] at h ⊢
          exact h
      unfold resolve.settle at hsettle
      split at hsettle
      · rename_i heq
        obtain rfl := beq_iff_eq.mp heq
        obtain rfl := Except.ok.inj hsettle
        exact ⟨rfl, .inr rfl⟩
      · simp [firstWins, hnone, bind, Except.bind] at hsettle

/-- A clash is never forgotten. -/
theorem addReductions_nil {items : List Item} {c : Completion} :
    ∀ {ts : List Terminal} {actions : List (Terminal × Action)} {problems : List GrammarProblem},
    (addReductions g items c ts actions problems).2 = [] → problems = []
  | [], _, _, h => h
  | t :: ts, actions, problems, h => by
    simp only [addReductions] at h
    split at h
    · exact addReductions_nil h
    · have := addReductions_nil h
      simp at this

/-- If no conflict is recorded in the end, none was before. -/
theorem addAll_nil : ∀ {completions : List (Completion × List Terminal)} {rows : Array TableRow}
    {problems : List GrammarProblem}, (addAll g a completions rows problems).2 = [] → problems = []
  | [], _, _, h => h
  | (c, ts) :: completions, rows, problems, h => by
    simp only [addAll] at h
    split at h
    · exact addAll_nil h
    · exact addReductions_nil (addAll_nil h)

/-- Reductions that clash with nothing are added and change no entry. -/
theorem addReductions_clean {items : List Item} {c : Completion}
    (hnone : (g.rule c.rule).precedence = none) :
    ∀ {ts : List Terminal} {actions : List (Terminal × Action)} {problems : List GrammarProblem},
    IncreasingKeys actions → (∀ entry ∈ actions, Plain g entry.1 entry.2) →
    (addReductions g items c ts actions problems).2 = [] →
    let result := (addReductions g items c ts actions problems).1
    IncreasingKeys result ∧
      (∀ t action, find? t actions = some action → find? t result = some action) ∧
      ∀ t ∈ ts, find? t result = some (completion g c.rule t)
  | [], actions, problems, hinc, _, _ => ⟨hinc, fun _ _ => id, by simp⟩
  | t :: ts, actions, problems, hinc, hplain, h => by
    simp only [addReductions] at h ⊢
    cases hresolve : resolve g items t c.rule (completion g c.rule t) (find? t actions) with
    | error clash =>
      rw [hresolve] at h
      have := addReductions_nil h
      simp at this
    | ok action =>
      rw [hresolve] at h
      obtain ⟨rfl, hexisting⟩ := resolve_plain hnone
        (fun present hfind => hplain _ (Sorted.mem_of_find? hfind)) hresolve
      have hplain' : ∀ entry ∈ Sorted.set t (completion g c.rule t) actions,
          Plain g entry.1 entry.2 := by
        intro entry hentry
        rcases Sorted.mem_alter hentry with hmem | ⟨_, _, hkey, hval⟩
        · exact hplain entry hmem
        · rw [hkey, hval]
          exact .inr ⟨c.rule, rfl⟩
      have hinc' : IncreasingKeys (Sorted.set t (completion g c.rule t) actions) :=
        Sorted.increasingKeys_alter _ _ hinc
      have hself : find? t (Sorted.set t (completion g c.rule t) actions) =
          some (completion g c.rule t) := Sorted.find?_alter_self _ _ hinc
      obtain ⟨hinc'', hkeep, hadded⟩ := addReductions_clean hnone hinc' hplain' h
      refine ⟨hinc'', fun u action hu => hkeep u action ?_, fun u hu => ?_⟩
      · by_cases heq : u = t
        · subst heq
          -- an entry for the same terminal was this reduction already
          rcases hexisting with hfree | hsame
          · rw [hfree] at hu
            simp at hu
          · exact hself.trans (hsame.symm.trans hu)
        · exact (Sorted.find?_alter_ne heq _ _).trans hu
      · rcases List.mem_cons.mp hu with rfl | hu
        · exact hkeep _ _ hself
        · exact hadded u hu

/-- Reductions of all rules that clash with nothing are added and change no entry. -/
theorem addAll_clean (hnone : ∀ id, (g.rule id).precedence = none) :
    ∀ {completions : List (Completion × List Terminal)} {rows : Array TableRow}
      {problems : List GrammarProblem},
    (∀ (s : StateId) row, rows[s]? = some row →
      IncreasingKeys row.actions ∧ ∀ entry ∈ row.actions, Plain g entry.1 entry.2) →
    (addAll g a completions rows problems).2 = [] →
    let result : ParseTable := ⟨g, (addAll g a completions rows problems).1⟩
    (∀ s t action, (⟨g, rows⟩ : ParseTable).action? s t = some action →
      result.action? s t = some action) ∧
    ∀ c ts t, (c, ts) ∈ completions → t ∈ ts → c.state < rows.size →
      result.action? c.state t = some (completion g c.rule t)
  | [], _, _, _, h => ⟨fun _ _ _ => id, by simp⟩
  | (c, ts) :: completions, rows, problems, hrows, h => by
    simp only [addAll] at h ⊢
    cases hrow : rows[c.state]? with
    | none =>
      rw [hrow] at h
      obtain ⟨hkeep, hadded⟩ := addAll_clean hnone hrows h
      refine ⟨hkeep, fun c' ts' t hmem ht hlt => ?_⟩
      rcases List.mem_cons.mp hmem with heq | hmem
      · obtain ⟨rfl, rfl⟩ := Prod.mk.injEq .. ▸ heq
        exact absurd hlt (Nat.not_lt.mpr (Array.getElem?_eq_none_iff.mp hrow))
      · exact hadded c' ts' t hmem ht hlt
    | some row =>
      rw [hrow] at h
      simp only at h ⊢
      obtain ⟨hinc, hplain⟩ := hrows c.state row hrow
      obtain ⟨hinc', hkeep', hadded'⟩ := addReductions_clean (hnone _) hinc hplain (addAll_nil h)
      have hplain' : ∀ entry ∈ (addReductions g (a.items c.state) c ts row.actions problems).1,
          Plain g entry.1 entry.2 :=
        addReductions_forall (P := Plain g) (fun t _ => .inr ⟨c.rule, rfl⟩) hplain
      -- the row of the state is replaced, and the others stay
      set added := addReductions g (a.items c.state) c ts row.actions problems
      set rows' := rows.setIfInBounds c.state { row with actions := added.1 } with hafter
      have hself : rows'[c.state]? = some { row with actions := added.1 } := by
        rw [hafter, Array.getElem?_setIfInBounds_self_of_lt (Array.getElem?_eq_some_iff.mp hrow).1]
      have hother : ∀ s : StateId, s ≠ c.state → rows'[s]? = rows[s]? := fun s hs => by
        rw [hafter, Array.getElem?_setIfInBounds_ne (Ne.symm hs)]
      have hrows' : ∀ (s : StateId) row', rows'[s]? = some row' →
          IncreasingKeys row'.actions ∧ ∀ entry ∈ row'.actions, Plain g entry.1 entry.2 := by
        intro s row' hrow'
        rcases getElem?_setActions hrow hrow' with ⟨rfl, rfl⟩ | ⟨_, hrow'⟩
        · exact ⟨hinc', hplain'⟩
        · exact hrows s row' hrow'
      obtain ⟨hkeep, hadded⟩ := addAll_clean hnone hrows' h
      refine ⟨fun s t action hs => hkeep s t action ?_, fun c' ts' t hmem ht hlt => ?_⟩
      · unfold action? at hs ⊢
        by_cases heq : s = c.state
        · subst heq
          simp only [hrow, hself, Option.bind_some] at hs ⊢
          exact hkeep' t action hs
        · rwa [hother s heq]
      · rcases List.mem_cons.mp hmem with heq | hmem
        · obtain ⟨rfl, rfl⟩ := Prod.mk.injEq .. ▸ heq
          refine hkeep _ _ _ ?_
          unfold action?
          rw [hself, Option.bind_some]
          exact hadded' t ht
        · exact hadded c' ts' t hmem ht (by rwa [hafter, Array.size_setIfInBounds])

/-! ## 4. Tables -/

/-- How a table came about. -/
structure Made (g : Grammar) (table : ParseTable) (a : Automaton) (paths : List PathRule) :
    Prop where
  proper : g.Proper
  automaton : Automaton.ofGrammar g = .ok a
  walks : a.pathRules g = .ok paths
  grammar : table.grammar = g
  rows : addAll g a (lookaheads g paths) (a.states.map rowOfMoves) [] = (table.rows, [])

/-- A table that is made came about in this way. -/
theorem made_ofGrammar {table : ParseTable} (hg : g.Proper) (h : ofGrammar g = .ok table) :
    ∃ a paths, Made g table a paths := by
  simp only [ofGrammar, bind_eq_ok] at h
  obtain ⟨a, ha, paths, hpaths, h⟩ := h
  split at h
  · rename_i rows hrows
    obtain rfl := Except.ok.inj h
    exact ⟨a, paths, hg, ha, hpaths, rfl, hrows⟩
  · simp [throw, throwThe, MonadExceptOf.throw] at h

/-- What an action in a state before a terminal needs. -/
def Justified (g : Grammar) (a : Automaton) (s : StateId) (t : Terminal) : Action → Prop
  | .shift target => a.goto? s (.terminal t) = some target
  | .reduce id => id ≠ g.startRule ∧ ⟨id, (g.rule id).rhs.length⟩ ∈ a.items s
  | .accept id => id = g.startRule ∧ t ∈ g.ends ∧ ⟨id, (g.rule id).rhs.length⟩ ∈ a.items s

/-- What stands in no right-hand side is no symbol of a path. -/
theorem not_mem_slots {paths : List PathRule} (hpaths : a.pathRules g = .ok paths)
    {X : Symbol} (hX : X ∉ Grammar.rhsSymbols g.rules) {x : PathSymbol} (hx : x.symbol = X) :
    ∀ p ∈ pathProductions paths, x ∉ p.slots.flatten := by
  intro p hp hmem
  obtain ⟨path, hpath, rfl⟩ := List.mem_map.mp hp
  obtain ⟨s, id, found, rhs, final, _, hfound, hw, rfl⟩ :=
    (Automaton.mem_pathRules hpaths).mp hpath
  have general : ∀ {slots : List Slot} {s final : StateId} {path : List (List PathSymbol)},
      a.Path slots s path final → x ∈ path.flatten → ∃ slot ∈ slots, x.symbol ∈ slot.symbols := by
    intro slots s final path hpath
    induction hpath with
    | nil => simp
    | cons _ _ _ hsymbols _ ih =>
      intro hmem
      rcases List.mem_append.mp hmem with hmem | hmem
      · obtain ⟨Y, hY, _, rfl⟩ := (hsymbols x).mp hmem
        exact ⟨_, List.mem_cons_self, hY⟩
      · obtain ⟨slot, hslot, hxs⟩ := ih hmem
        exact ⟨slot, List.mem_cons_of_mem _ hslot, hxs⟩
  obtain ⟨slot, hslot, hxs⟩ := general (Automaton.path_of_mem_walks hfound hw) hmem
  exact hX (hx ▸ Grammar.mem_rhsSymbols hslot hxs)

namespace Made

variable {table : ParseTable} {paths : List PathRule} (m : Made g table a paths)
include m

theorem tracks : a.Tracks g := Automaton.tracks_ofGrammar m.automaton m.proper.startRule_lt

theorem static (s : StateId) : (table.rows[s]?).map (fun row => (row.gotos, row.mode)) =
    (a.states[s]?).map fun state => ((rowOfMoves state).gotos, state.mode) := by
  have h := addAll_static (g := g) (a := a) (lookaheads g paths) (a.states.map rowOfMoves) [] s
  rw [m.rows] at h
  rw [h, Array.getElem?_map]
  cases a.states[s]? <;> rfl

/-- Gotos are the moves over nonterminals. -/
theorem goto?_eq (s : StateId) (name : String) :
    table.goto? s name = a.goto? s (.nonterminal name) := by
  have h := m.static s
  unfold goto? Automaton.goto?
  cases hs : a.states[s]? with
  | none =>
    rw [hs, Option.map_none, Option.map_eq_none_iff] at h
    simp [h]
  | some state =>
    rw [hs, Option.map_some, Option.map_eq_some_iff] at h
    obtain ⟨row, hrow, heq⟩ := h
    have hgotos : row.gotos = (rowOfMoves state).gotos := congrArg Prod.fst heq
    rw [hrow, Option.bind_some, Option.bind_some, hgotos]
    exact find?_filterMap_nonterminal name state.moves

/-- The mode of a state is that of the automaton. -/
theorem mode?_eq (s : StateId) : table.mode? s = (a.states[s]?).bind (·.mode) := by
  have h := m.static s
  unfold mode?
  cases hs : a.states[s]? with
  | none =>
    rw [hs, Option.map_none, Option.map_eq_none_iff] at h
    simp [h]
  | some state =>
    rw [hs, Option.map_some, Option.map_eq_some_iff] at h
    obtain ⟨row, hrow, heq⟩ := h
    rw [hrow, Option.bind_some, Option.bind_some]
    exact congrArg Prod.snd heq

/-- The modes are those of rules. -/
theorem exists_mode {s : StateId} {mode : String} (h : table.mode? s = some mode) :
    ∃ rule ∈ g.rules, rule.mode = some mode := by
  rw [m.mode?_eq, Option.bind_eq_some_iff] at h
  obtain ⟨state, hstate, hmode⟩ := h
  rw [(Automaton.getElem?_states m.automaton s state hstate).2.2] at hmode
  obtain ⟨i, hi, hrule⟩ := List.mem_filterMap.mp (Sorted.mem_ofList.mp (List.mem_of_mem_head? hmode))
  have hmem : i ∈ a.items s := by
    rw [Automaton.items, hstate]
    exact List.mem_of_mem_filter hi
  exact ⟨_, Grammar.rule_mem (m.tracks.valid hmem).1, hrule⟩

/-- What comes after the start symbol are the end terminals. -/
theorem follow_startRule (hfree : .nonterminal g.start ∉ Grammar.rhsSymbols g.rules)
    {s : StateId} {t : Terminal}
    (h : t ∈ (pathFollow g paths).of (Automaton.lhsPath g a s g.startRule)) : t ∈ g.ends := by
  have hslots := not_mem_slots m.walks hfree (x := Automaton.lhsPath g a s g.startRule)
    (by rw [← m.proper.lhs_startRule]; rfl)
  exact ((followSets_closed (pathProductions paths) ⟨0, .nonterminal g.start, none⟩
    m.proper.ends).2.2.1 _ hslots t h).2

/-- A completed rule with a lookahead is justified. -/
theorem completion_justified (hfree : .nonterminal g.start ∉ Grammar.rhsSymbols g.rules)
    {c : Completion} {ts : List Terminal} {t : Terminal} (hmem : (c, ts) ∈ lookaheads g paths)
    (ht : t ∈ ts) : Justified g a c.state t (completion g c.rule t) := by
  obtain ⟨path, hpath, rfl, hfollow⟩ := mem_lookaheads.mp ⟨ts, hmem, ht⟩
  obtain ⟨s, id, found, rhs, final, hitem, hfound, hw, rfl⟩ :=
    (Automaton.mem_pathRules m.walks).mp hpath
  have hcomplete := (Automaton.path_of_mem_walks hfound hw).complete m.tracks (k := 0)
    List.drop_zero hitem
  unfold completion
  split
  · rename_i hcond
    simp only [Bool.and_eq_true, beq_iff_eq, List.contains_eq_mem, decide_eq_true_eq] at hcond
    exact ⟨hcond.1, hcond.2, hcomplete⟩
  · rename_i hcond
    refine ⟨?_, hcomplete⟩
    rintro rfl
    simp [m.follow_startRule hfree hfollow] at hcond

/-- **Every entry of a table is justified by the automaton**, if the start nonterminal stands in no
right-hand side. -/
theorem action?_justified (hfree : .nonterminal g.start ∉ Grammar.rhsSymbols g.rules)
    {s : StateId} {t : Terminal} {action : Action} (h : table.action? s t = some action) :
    Justified g a s t action := by
  have hall := addAll_forall (g := g) (a := a) (P := Justified g a) (lookaheads g paths)
    (a.states.map rowOfMoves) []
    (fun c ts t hmem ht => m.completion_justified hfree hmem ht) ?_
  · unfold action? at h
    obtain ⟨row, hrow, hfind⟩ := Option.bind_eq_some_iff.mp h
    rw [m.rows] at hall
    exact hall s row hrow _ (Sorted.mem_of_find? hfind)
  · intro s row hrow entry hentry
    rw [Array.getElem?_map, Option.map_eq_some_iff] at hrow
    obtain ⟨state, hstate, rfl⟩ := hrow
    obtain ⟨t, target, hmove, rfl⟩ := mem_shifts hentry
    have hkeys := Automaton.increasingKeys_moves m.automaton m.proper.startRule_lt hstate
    simp [Justified, Automaton.goto?, hstate, Sorted.find?_of_mem hkeys hmove]

/-! ## 5. Tables without precedences -/

section Plain

variable (hnone : ∀ id, (g.rule id).precedence = none)
include hnone

theorem clean :
    (∀ s t action, (⟨g, a.states.map rowOfMoves⟩ : ParseTable).action? s t = some action →
      table.action? s t = some action) ∧
    ∀ c ts t, (c, ts) ∈ lookaheads g paths → t ∈ ts → c.state < a.states.size →
      table.action? c.state t = some (completion g c.rule t) := by
  have hrows : ∀ (s : StateId) row, (a.states.map rowOfMoves)[s]? = some row →
      IncreasingKeys row.actions ∧ ∀ entry ∈ row.actions, Plain g entry.1 entry.2 := by
    intro s row hrow
    rw [Array.getElem?_map, Option.map_eq_some_iff] at hrow
    obtain ⟨state, hstate, rfl⟩ := hrow
    refine ⟨increasingKeys_shifts
      (Automaton.increasingKeys_moves m.automaton m.proper.startRule_lt hstate), fun entry hentry => ?_⟩
    obtain ⟨t, target, _, rfl⟩ := mem_shifts hentry
    exact .inl ⟨target, rfl⟩
  have h := addAll_clean (a := a) hnone hrows (congrArg Prod.snd m.rows)
  rw [m.rows, Array.size_map] at h
  exact h

/-- Every move over a terminal is a shift. -/
theorem action?_shift {s target : StateId} {t : Terminal}
    (h : a.goto? s (.terminal t) = some target) : table.action? s t = some (.shift target) := by
  refine (m.clean hnone).1 s t _ ?_
  unfold Automaton.goto? at h
  obtain ⟨state, hstate, hfind⟩ := Option.bind_eq_some_iff.mp h
  unfold action?
  rw [Array.getElem?_map, hstate, Option.map_some, Option.bind_some]
  exact (find?_shifts t state.moves).trans (by rw [hfind]; rfl)

/-- Every terminal that follows a walk is a lookahead of its rule where the walk ends. -/
theorem action?_completion {path : PathRule} (hpath : path ∈ paths)
    (hfinal : path.final < a.states.size) {t : Terminal}
    (h : t ∈ (pathFollow g paths).of path.lhs) :
    table.action? path.final t = some (completion g path.rule t) := by
  obtain ⟨ts, hmem, ht⟩ := mem_lookaheads.mpr ⟨path, hpath, rfl, h⟩
  exact (m.clean hnone).2 _ ts t hmem ht hfinal

end Plain

/-- A grammar without the empty marker has no actions for it. -/
theorem action?_empty (hempty : .terminal .empty ∉ Grammar.rhsSymbols g.rules)
    (hends : .empty ∉ g.ends) (s : StateId) : table.action? s .empty = none := by
  have hall := addAll_forall (g := g) (a := a) (P := fun _ t _ => t ≠ .empty) (lookaheads g paths)
    (a.states.map rowOfMoves) [] ?_ ?_
  · rw [Option.eq_none_iff_forall_ne_some]
    intro action haction
    unfold action? at haction
    obtain ⟨row, hrow, hfind⟩ := Option.bind_eq_some_iff.mp haction
    rw [m.rows] at hall
    exact hall s row hrow _ (Sorted.mem_of_find? hfind) rfl
  · rintro c ts t hmem ht rfl
    obtain ⟨path, _, _, hfollow⟩ := mem_lookaheads.mp ⟨ts, hmem, ht⟩
    rcases (followSets_closed (pathProductions paths) ⟨0, .nonterminal g.start, none⟩
      m.proper.ends).2.2.2 _ _ hfollow with h | ⟨_, h⟩
    · exact hends h
    · exact h rfl
  · rintro s row hrow entry hentry heq
    rw [Array.getElem?_map, Option.map_eq_some_iff] at hrow
    obtain ⟨state, hstate, rfl⟩ := hrow
    obtain ⟨t, target, hmove, rfl⟩ := mem_shifts hentry
    obtain rfl : t = .empty := heq
    have hkeys := Automaton.increasingKeys_moves m.automaton m.proper.startRule_lt hstate
    have hgoto : a.goto? s (.terminal .empty) = some target := by
      simp [Automaton.goto?, hstate, Sorted.find?_of_mem hkeys hmove]
    obtain ⟨i, _, hbefore⟩ := m.tracks.before hgoto
    exact hempty hbefore.mem_rhsSymbols

end Made

end ParseTable

end Lode
