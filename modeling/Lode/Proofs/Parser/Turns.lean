/-
# What the tables do with states and kinds alone

Which actions a parser performs depends on nothing but the states on its stack and the kinds of the tokens
before it.  A configuration has just these two, and `turn` performs the action of the tables on it.  It is a
function, so a row of turns is given by where it begins, and it has at most one end.

For a grammar without precedences whose tables could be made, every action that a derivation asks for is the
only one in its place.  So the turns retrace any derivation: they shift the terminals of a right-hand side,
do the same for what its nonterminals yield, and reduce (`retrace`).

The induction is on the derivation, from left to right.  What stands behind the part that is retraced
matters only by its first kind, before which a rule may have to be reduced; so the hypothesis is that this
kind is in the lookaheads of the rule, or more precisely that it follows where the walk of the rule began
(`action?_lastState`).  When a nonterminal is entered, the kind behind it begins what its rule goes on with,
and when a rule is left, it is handed back.
-/
import Lode.Proofs.Grammar.Lookahead
import Lode.Proofs.Parser.Soundness

namespace Lode

variable {g : Grammar} {a : Automaton} {table : ParseTable}

/-! ## 1. Turns -/

/-- The states on a stack, the top first, and the kinds of the tokens that are left. -/
abbrev Configuration := List StateId × List Terminal

namespace ParseTable

/-- Performs the action for the first of the kinds, if it shifts or reduces. -/
def turn (table : ParseTable) : Configuration → Option Configuration
  | ([], _) => none
  | (s :: ss, word) =>
    match table.action? s (firstOr .eof word) with
    | some (.shift target) =>
      match word with
      | [] => none
      | _ :: rest => some (target :: s :: ss, rest)
    | some (.reduce id) =>
      match (s :: ss).drop (table.grammar.rule id).rhs.length with
      | [] => none
      | below :: ss =>
        (table.goto? below (table.grammar.rule id).lhs).map fun target => (target :: below :: ss, word)
    | _ => none

/-- Any number of turns. -/
def Turns (table : ParseTable) : Configuration → Configuration → Prop :=
  Relation.ReflTransGen fun c c' => table.turn c = some c'

/-- Turns that cannot go on end in one configuration. -/
theorem Turns.unique {c c₁ c₂ : Configuration} (h₁ : table.Turns c c₁) (h₂ : table.Turns c c₂)
    (hend₁ : table.turn c₁ = none) (hend₂ : table.turn c₂ = none) : c₁ = c₂ := by
  have hstuck : ∀ {c c' : Configuration}, table.turn c = none → table.Turns c c' → c = c' := by
    intro c c' hend h
    rcases h.cases_head with heq | ⟨_, hturn, _⟩
    · exact heq
    · rw [hend] at hturn
      cases hturn
  have hunique : Relator.RightUnique fun c c' => table.turn c = some c' :=
    fun _ _ _ h h' => Option.some.inj (h.symm.trans h')
  rcases Relation.ReflTransGen.total_of_right_unique hunique h₁ h₂ with h | h
  · exact hstuck hend₁ h
  · exact (hstuck hend₂ h).symm

theorem turn_shift {s target : StateId} {ss : List StateId} {t : Terminal} {word : List Terminal}
    (h : table.action? s t = some (.shift target)) :
    table.turn (s :: ss, t :: word) = some (target :: s :: ss, word) := by
  have h : table.action? s (firstOr .eof (t :: word)) = some (.shift target) := h
  simp only [turn, h]

theorem turn_reduce {s below target : StateId} {ss ss' : List StateId} {id : RuleId} {word : List Terminal}
    (h : table.action? s (firstOr .eof word) = some (.reduce id))
    (hdrop : (s :: ss).drop (table.grammar.rule id).rhs.length = below :: ss')
    (hgoto : table.goto? below (table.grammar.rule id).lhs = some target) :
    table.turn (s :: ss, word) = some (target :: below :: ss', word) := by
  simp only [turn, h, hdrop, hgoto, Option.map_some]

end ParseTable

/-! ## 2. Rows of states -/

theorem head?_reverse_append : ∀ (states : List StateId) (s : StateId) (ss : List StateId),
    (states.reverse ++ s :: ss).head? = some (lastState s states)
  | [], _, _ => rfl
  | t :: states, s, ss => by
    rw [List.reverse_cons, List.append_assoc]
    exact head?_reverse_append states t (s :: ss)

/-- The states of a walk on a stack, with the last one on top. -/
theorem exists_cons_lastState (states : List StateId) (s : StateId) (ss : List StateId) :
    ∃ rest, states.reverse ++ s :: ss = lastState s states :: rest := by
  have h := head?_reverse_append states s ss
  cases hrow : states.reverse ++ s :: ss with
  | nil => simp at hrow
  | cons t rest =>
    rw [hrow, List.head?_cons] at h
    exact ⟨rest, by rw [Option.some.inj h]⟩

/-! ## 3. Retracing a derivation -/

section Derivations

variable {paths : List PathRule} (m : ParseTable.Made g table a paths)
  (hnone : ∀ id, (g.rule id).precedence = none)
  (hstart : .nonterminal g.start ∉ Grammar.rhsSymbols g.rules)
  (hempty : .terminal .empty ∉ Grammar.rhsSymbols g.rules)
  (hends : g.ends = [.eof])

include m hempty hends in
/-- No state acts without looking at a token. -/
theorem lookaheadFree?_none (s : StateId) : table.lookaheadFree? s = none := by
  rw [Option.eq_none_iff_forall_ne_some]
  intro action haction
  have := Parser.action?_of_lookaheadFree? haction
  rw [m.action?_empty hempty (by simp [hends])] at this
  simp at this

include m hnone in
/-- A rule has its action where its walk ends, before everything that follows the walk. -/
theorem action?_lastState {s : StateId} {id : RuleId} {row : List Symbol}
    {path : List (List PathSymbol)} {states : List StateId} {t : Terminal}
    (hitem : ⟨id, 0⟩ ∈ a.items s) (htrail : Trail g a s row path states)
    (hpath : ⟨id, Automaton.lhsPath g a s id, path, lastState s states⟩ ∈ paths)
    (ht : t ∈ (pathFollow g paths).of (Automaton.lhsPath g a s id)) :
    table.action? (lastState s states) t = some (ParseTable.completion g id t) := by
  obtain ⟨state, hstate, _⟩ := Automaton.mem_items_iff.mp hitem
  exact m.action?_completion hnone hpath
    (htrail.lastState_lt m.tracks (Array.getElem?_eq_some_iff.mp hstate).1) ht

include m hnone hstart hempty

/-- **The turns retrace a derivation.**  They get along a trail whose row yields the next kinds, if what
comes after them follows the walk of the trail. -/
theorem retrace {row : List Symbol} {word : List Terminal} (h : g.Yields row word) :
    ∀ {s : StateId} {path : List (List PathSymbol)} {states : List StateId},
      Trail g a s row path states →
    ∀ {P : Production PathSymbol}, P ∈ pathProductions paths →
    ∀ {pre : List (List PathSymbol)}, P.slots = pre ++ path →
    ∀ {rest : List Terminal}, firstOr .eof rest ∈ (pathFollow g paths).of P.lhs →
    ∀ {ss : List StateId}, table.Turns (s :: ss, word ++ rest) (states.reverse ++ s :: ss, rest) := by
  induction h with
  | nil =>
    rintro s _ _ ⟨⟩ P _ pre _ rest _ ss
    exact .refl
  | terminal t _ ih =>
    rintro s _ _ (_ | ⟨i, hi, hbefore, hgoto, hplace, htrail⟩) P hP pre hslots rest hrest ss
    rw [List.reverse_cons, List.append_assoc]
    refine .head (ParseTable.turn_shift (m.action?_shift hnone hgoto)) ?_
    exact ih htrail hP (by rw [hslots, List.append_cons]) hrest
  | @nonterminal row choice word inner id hid hchoice hinner' hyields ihinner ih =>
    rintro s _ _ (_ | @⟨_, target, _, _, place, path, states, i, hi, hbefore, hgoto, hplace, htrail⟩)
      P hP pre hslots rest hrest ss
    have hitem := m.tracks.closed hi hid hbefore
    obtain ⟨path', states', htrail', hpath'⟩ := exists_trail m.tracks m.walks hitem hchoice
    have hlhs : Automaton.lhsPath g a s id = ⟨s, .nonterminal (g.rule id).lhs, some target⟩ := by
      rw [Automaton.lhsPath, hgoto]
    -- what comes after the nonterminal is a lookahead of its rule
    have hfollow : firstOr .eof (word ++ rest) ∈
        (pathFollow g paths).of (Automaton.lhsPath g a s id) := by
      rw [firstOr_append, hlhs]
      exact Trail.follow m.tracks m.walks hempty m.proper.ends hP hslots hplace rfl htrail hyields
        hrest
    have hid' : id ≠ g.startRule := by
      rintro rfl
      rw [m.proper.lhs_startRule] at hbefore
      exact hstart hbefore.mem_rhsSymbols
    have haction := action?_lastState m hnone hitem htrail' hpath' hfollow
    rw [ParseTable.completion, if_neg (by simp [hid'])] at haction
    have hlen : (table.grammar.rule id).rhs.length = states'.reverse.length := by
      rw [List.length_reverse, htrail'.length_eq, m.grammar, List.Forall₂.length_eq hchoice]
    have htarget : table.goto? s (table.grammar.rule id).lhs = some target := by
      rw [m.goto?_eq, m.grammar, hgoto]
    -- the states of the right-hand side lie on top, and the reduction takes them away
    have hreduce : table.turn (states'.reverse ++ s :: ss, word ++ rest) =
        some (target :: s :: ss, word ++ rest) := by
      have hdrop : (states'.reverse ++ s :: ss).drop (table.grammar.rule id).rhs.length = s :: ss :=
        List.drop_left' hlen.symm
      obtain ⟨states'', hstates⟩ := exists_cons_lastState states' s ss
      rw [hstates] at hdrop ⊢
      exact ParseTable.turn_reduce haction hdrop htarget
    rw [List.append_assoc, List.reverse_cons, List.append_assoc]
    refine (ihinner htrail' (List.mem_map.mpr ⟨_, hpath', rfl⟩) (List.nil_append _).symm hfollow).trans ?_
    refine .head hreduce ?_
    exact ih htrail hP (by rw [hslots, List.append_cons]) hrest

include hends

/-- For a word that the grammar derives the turns lead to a configuration in which it is accepted. -/
theorem turns_of_derives {word : List Terminal} (h : g.Derives [.nonterminal g.start] word) :
    ∃ states, states.length = (g.rule g.startRule).rhs.length ∧
      table.Turns ([0], word) (states.reverse ++ [0], []) ∧
      table.action? (lastState 0 states) .eof = some (.accept g.startRule) := by
  have hyields := Grammar.yields_of_derives h
  generalize hrow : [Symbol.nonterminal g.start] = row at hyields
  cases hyields with
  | nil => simp at hrow
  | terminal => simp at hrow
  | @nonterminal row choice word inner id hid hchoice hyields hnil =>
    obtain ⟨hlhs, rfl⟩ := List.cons.inj hrow
    obtain rfl := m.proper.startRule_unique id hid (Symbol.nonterminal.inj hlhs).symm
    cases hnil
    have hitem : ⟨g.startRule, 0⟩ ∈ a.items 0 := (m.tracks.start _).mpr (.kernel rfl)
    obtain ⟨path, states, htrail, hpath⟩ := exists_trail m.tracks m.walks hitem hchoice
    -- no move leads over the start nonterminal, so the walk has the start symbol on its left
    have hlhs : Automaton.lhsPath g a 0 g.startRule = ⟨0, .nonterminal g.start, none⟩ := by
      rw [Automaton.lhsPath, m.proper.lhs_startRule]
      congr 1
      rw [Option.eq_none_iff_forall_ne_some]
      intro t hgoto
      obtain ⟨i, _, hbefore⟩ := m.tracks.before hgoto
      exact hstart hbefore.mem_rhsSymbols
    have hfollow : firstOr .eof [] ∈
        (pathFollow g paths).of (Automaton.lhsPath g a 0 g.startRule) := by
      rw [hlhs]
      exact (followSets_closed (pathProductions paths) ⟨0, .nonterminal g.start, none⟩
        m.proper.ends).1 _ (by simp [hends, firstOr])
    have haction := action?_lastState m hnone hitem htrail hpath hfollow
    rw [ParseTable.completion, if_pos (by simp [hends, firstOr])] at haction
    refine ⟨states, ?_, ?_, haction⟩
    · rw [htrail.length_eq, List.Forall₂.length_eq hchoice]
    · exact retrace m hnone hstart hempty hyields htrail (List.mem_map.mpr ⟨_, hpath, rfl⟩)
        (List.nil_append _).symm hfollow

end Derivations

end Lode
