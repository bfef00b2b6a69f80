/-
# Parsers stop at the first token that cannot be right

A parser without precedences may perform reductions before it finds out that it has no action for a
token, because the lookaheads of its rules are those of all the contexts of a state.  But it never
shifts the token, and it never stops too early: the tokens before the one it stops at begin a sentence
of the grammar, and with that token they do not (`rejects_first_impossible`).

That a parse rejects a token is a matter of its tables (`rejected?`), what its caller sees is an error.
One says as much as the other: a parse that rejects a token ends with the error about it
(`error_of_rejected`), and every error but those that come from elsewhere, from the maker of values, from
a parser of another channel or from a defect of the program, is about a token that the parse rejects
(`rejected_of_error`).

The first half of the main result holds because the stack spells the beginning of a row that the start
nonterminal derives.  For the second half, a run makes the turns that the tables make on any input with
the same tokens (`Keeps`); a sentence would be accepted, and turns end in one configuration only.  It is
not enough that the run at hand stops, since another run over a longer input might read its tokens in
other modes: turns know of tokens only, and so they are the same for every input.
-/
import Lode.Proofs.Grammar.Viable
import Lode.Proofs.Parser.Actions

namespace Lode

/-- A lexer fails only if it has no such mode, or if no rule of the mode has a match: both are defects of its
table. -/
theorem Lexer.kind_next_error {lexer : Lexer} {mode : String} {s : Stream} {e : Error}
    (h : lexer.next mode s = .error e) : e.kind = .internal := by
  unfold Lexer.next at h
  split at h
  · cases h
  · split at h
    · obtain rfl := Except.error.inj h
      rfl
    · split at h
      · cases h
      · obtain rfl := Except.error.inj h
        rfl

namespace Parser

variable {V σ : Type} {g : Grammar} {a : Automaton} {lexer : Lexer} {p : Parser} {base : String}
  {build : Builder V σ}

/-! ## 1. Rejected tokens -/

/-- The token for which the tables have no action, if the run comes to one within the given number of
steps. -/
def rejected? (lexer : Lexer) (p : Parser) (base : String) (build : Builder V σ) :
    Nat → Run V → σ → Option Token
  | 0, _, _ => none
  | fuel + 1, run, state =>
    match step (delegateWith lexer fuel) lexer p base build run state with
    | .running run' state' => rejected? lexer p base build fuel run' state'
    | .stopped _ _ _ => (consulted lexer p base run).filter fun token =>
      p.table.action? (topState run.stack) token.kind == none && p.table.action? (topState run.stack) .empty == none

/-- A token at which a run looks and for which its tables have no action. -/
structure Stuck (lexer : Lexer) (p : Parser) (base : String) (run : Run V) (token : Token) : Prop where
  consulted : consulted lexer p base run = some token
  action : p.table.action? (topState run.stack) token.kind = none
  empty : p.table.action? (topState run.stack) .empty = none

/-- A run stops at a token without an action. -/
theorem Stuck.stops {delegate : Delegate} {run : Run V} {state : σ} {token : Token}
    (h : Stuck lexer p base run token) : ∃ stream, step delegate lexer p base build run state =
      .stopped (.error (p.unexpected run.stack token)) stream state := by
  obtain ⟨hconsulted, hnone, hempty⟩ := h
  have hconsult : ∀ stream, consult p base build { run with stream := stream } state token =
      .stopped (.error (p.unexpected run.stack token)) stream state := fun stream => by
    simp only [consult, hnone, hempty, Option.or_none]
  unfold Parser.consulted at hconsulted
  cases hlook : run.lookahead with
  | some t =>
    simp only [hlook, Option.some.injEq] at hconsulted
    subst hconsulted
    exact ⟨run.stream, by simp only [step, hlook]; exact hconsult run.stream⟩
  | none =>
    cases hfree : p.table.lookaheadFree? (topState run.stack) with
    | some action => simp [hlook, hfree] at hconsulted
    | none =>
      simp only [hlook, hfree] at hconsulted
      split at hconsulted
      · rename_i t stream hnext
        split at hconsulted
        · rename_i hchannel
          obtain rfl := Option.some.inj hconsulted
          exact ⟨stream, by
            simp only [step, hlook, hfree, hnext, hchannel, if_true]
            exact hconsult stream⟩
        · cases hconsulted
      · cases hconsulted

/-- The error of a parse is about the token that it rejects. -/
theorem error_of_rejected {token : Token} : ∀ {fuel : Nat} {run : Run V} {state : σ},
    rejected? lexer p base build fuel run state = some token →
    ∃ stack : List (Frame V),
      (drive lexer fuel p base build run state).1 = .error (p.unexpected stack token)
  | fuel + 1, run, state, h => by
    rw [rejected?] at h
    rw [drive_succ]
    cases hstep : step (delegateWith lexer fuel) lexer p base build run state with
    | running run' state' =>
      rw [hstep] at h
      exact error_of_rejected h
    | stopped result stream state' =>
      simp only [hstep, Option.filter_eq_some_iff, Bool.and_eq_true, beq_iff_eq] at h
      have hstuck : Stuck lexer p base run token := ⟨h.1, h.2.1, h.2.2⟩
      obtain ⟨stream', hstep'⟩ := hstuck.stops
      obtain ⟨rfl, rfl, rfl⟩ := Progress.stopped.inj (hstep.symm.trans hstep')
      exact ⟨run.stack, rfl⟩

/-! ## 2. Errors about other things -/

/-- An error that is not about a rejected token: one that only a defect of the program leads to, one that
the maker of values reports, or one with which a parser of another channel ends. -/
inductive Foreign (lexer : Lexer) (p : Parser) (build : Builder V σ) (e : Error) : Prop
  | internal : e.kind = .internal → Foreign lexer p build e
  | building {r : Reduction V} {state state' : σ} : build r state = (.error e, state') →
      Foreign lexer p build e
  | inner {name mode : String} {other : Parser} {fuel : Nat} {stream : Stream} :
      p.inner? name = some other → (drive lexer fuel other mode forget (start stream) ()).1 = .error e →
      Foreign lexer p build e

section Errors

variable {run : Run V} {state state' : σ} {stream : Stream} {e : Error}

/-- The stack is never too short for a rule, or the program has a defect. -/
theorem kind_popFrames_error {count : Nat} {stack : List (Frame V)} (h : popFrames count stack = .error e) :
    e.kind = .internal := by
  unfold popFrames at h
  split at h
  · obtain rfl := Except.error.inj h
    rfl
  · cases h

theorem reduce_error {id : RuleId} (h : reduce p base build run state id = .stopped (.error e) stream state') :
    Foreign lexer p build e := by
  unfold reduce at h
  split at h
  · rename_i hpop
    obtain ⟨⟨⟩, -, -⟩ := Progress.stopped.inj h
    exact .internal (kind_popFrames_error hpop)
  · dsimp only at h
    split at h
    · obtain ⟨⟨⟩, -, -⟩ := Progress.stopped.inj h
      exact .internal rfl
    · split at h
      · rename_i hbuild
        obtain ⟨⟨⟩, -, -⟩ := Progress.stopped.inj h
        exact .building hbuild
      · cases h

theorem accept_error {id : RuleId} (h : accept p base build run state id = .stopped (.error e) stream state') :
    Foreign lexer p build e := by
  unfold accept at h
  split at h
  · rename_i hpop
    obtain ⟨⟨⟩, -, -⟩ := Progress.stopped.inj h
    exact .internal (kind_popFrames_error hpop)
  · split at h
    · obtain ⟨⟨⟩, -, -⟩ := Progress.stopped.inj h
      exact .internal rfl
    · dsimp only at h
      split at h
      · rename_i hbuild
        obtain ⟨⟨⟩, -, -⟩ := Progress.stopped.inj h
        exact .building hbuild
      · split at h
        · cases h
        · split at h
          · cases h
          · obtain ⟨⟨⟩, -, -⟩ := Progress.stopped.inj h
            exact .internal rfl

theorem perform_error {action : Action}
    (h : perform p base build run state action = .stopped (.error e) stream state') :
    Foreign lexer p build e := by
  cases action with
  | shift target =>
    rw [perform] at h
    split at h
    · obtain ⟨⟨⟩, -, -⟩ := Progress.stopped.inj h
      exact .internal rfl
    · cases h
  | reduce id => exact reduce_error h
  | accept id => exact accept_error h

theorem consult_error {token : Token} {s : Stream} (hconsulted : consulted lexer p base run = some token)
    (h : consult p base build { run with stream := s } state token = .stopped (.error e) stream state') :
    (Stuck lexer p base run token ∧ e = p.unexpected run.stack token) ∨ Foreign lexer p build e := by
  simp only [consult] at h
  split at h
  · exact .inr (perform_error h)
  · rename_i hnone
    obtain ⟨hkind, hempty⟩ := Option.or_eq_none_iff.mp hnone
    obtain ⟨⟨⟩, -, -⟩ := Progress.stopped.inj h
    exact .inl ⟨⟨hconsulted, hkind, hempty⟩, rfl⟩

/-- **What an error is about.**  A step that ends with an error is stuck at a token, which the error names,
or the error comes from elsewhere. -/
theorem step_error {fuel : Nat}
    (h : step (delegateWith lexer fuel) lexer p base build run state = .stopped (.error e) stream state') :
    (∃ token, Stuck lexer p base run token ∧ e = p.unexpected run.stack token) ∨ Foreign lexer p build e := by
  unfold step at h
  cases hlook : run.lookahead with
  | some token =>
    simp only [hlook] at h
    have hconsulted : consulted lexer p base run = some token := by simp only [consulted, hlook]
    exact (consult_error hconsulted h).imp_left fun hstuck => ⟨token, hstuck⟩
  | none =>
    cases hfree : p.table.lookaheadFree? (topState run.stack) with
    | some action =>
      simp only [hlook, hfree] at h
      exact .inr (perform_error h)
    | none =>
      simp only [hlook, hfree] at h
      cases hnext : lexer.next (p.modeOver base run.stack) run.stream with
      | error e' =>
        simp only [hnext] at h
        obtain ⟨⟨⟩, -, -⟩ := Progress.stopped.inj h
        exact .inr (.internal (Lexer.kind_next_error hnext))
      | ok result =>
        obtain ⟨token, after⟩ := result
        simp only [hnext] at h
        split at h
        · rename_i hchannel
          -- the token is for the tables, which may have no action for it
          have hconsulted : consulted lexer p base run = some token := by
            simp only [consulted, hlook, hfree, hnext, hchannel, if_true]
          exact (consult_error hconsulted h).imp_left fun hstuck => ⟨token, hstuck⟩
        -- it is for another parser, or the stream could not be set back
        · refine .inr ?_
          split at h
          · split at h
            · cases h
            · rename_i hinner
              split at h
              · obtain ⟨⟨⟩, -, -⟩ := Progress.stopped.inj h
                exact .internal rfl
              · split at h
                · cases h
                · rename_i hdelegate
                  obtain ⟨⟨⟩, -, -⟩ := Progress.stopped.inj h
                  exact .inner hinner (congrArg Prod.fst hdelegate)
          · cases h

/-- **Other errors come from elsewhere.**  A parse that ends with an error rejects a token, which the error is
about, or the error comes from elsewhere. -/
theorem rejected_of_error : ∀ {fuel : Nat} {run : Run V} {state : σ},
    (drive lexer fuel p base build run state).1 = .error e →
    (∃ (stack : List (Frame V)) (token : Token), rejected? lexer p base build fuel run state = some token ∧
      e = p.unexpected stack token) ∨ Foreign lexer p build e
  | 0, run, state, h => by
    obtain rfl := Except.error.inj h
    exact .inr (.internal rfl)
  | fuel + 1, run, state, h => by
    rw [drive_succ] at h
    rw [rejected?]
    cases hstep : step (delegateWith lexer fuel) lexer p base build run state with
    | running run' state' =>
      rw [hstep] at h
      exact rejected_of_error h
    | stopped result stream state' =>
      rw [hstep] at h
      obtain rfl : result = .error e := h
      refine (step_error hstep).imp_left ?_
      rintro ⟨token, hstuck, he⟩
      refine ⟨run.stack, token, ?_, he⟩
      simp [hstuck.consulted, hstuck.action, hstuck.empty]

end Errors

/-! ## 3. Runs and turns -/

/-- What is kept between the steps of a run that has shifted some tokens: on every input that goes on
with the lookahead in hand, the tables get from the beginning to the states on the stack. -/
def Keeps (run : Run V) (shifted : List Token) (table : ParseTable) : Prop :=
  ∀ word, (∀ token, run.lookahead = some token → firstOr .eof word = token.kind) →
    table.Turns ([0], shifted.map Token.kind ++ word) (statesOf run.stack, word)

theorem keeps_start (stream : Stream) (table : ParseTable) :
    Keeps (start stream : Run V) [] table := fun _ _ => .refl

theorem statesOf_eq_cons (stack : List (Frame V)) :
    ∃ ss, statesOf stack = topState stack :: ss := by
  cases stack with
  | nil => exact ⟨[], rfl⟩
  | cons frame stack => exact ⟨statesOf stack, rfl⟩

theorem drop_statesOf {stack : List (Frame V)} {k : Nat} (h : k ≤ stack.length) :
    (statesOf stack).drop k = statesOf (stack.drop k) := by
  unfold statesOf
  rw [List.drop_append_of_le_length (by rwa [List.length_map]), List.map_drop]

/-- A reduction takes the states of the right-hand side away and adds the one behind them. -/
theorem statesOf_reduce {run run' : Run V} {state state' : σ} {id : RuleId}
    (h : reduce p base build run state id = .running run' state') : ∃ below ss target,
    (statesOf run.stack).drop (p.table.grammar.rule id).rhs.length = below :: ss ∧
      p.table.goto? below (p.table.grammar.rule id).lhs = some target ∧
      statesOf run'.stack = target :: below :: ss ∧ run'.lookahead = run.lookahead := by
  unfold reduce at h
  split at h
  · cases h
  · rename_i frames rest hpop
    unfold popFrames at hpop
    split at hpop
    · cases hpop
    · rename_i hle
      obtain ⟨-, rfl⟩ := Prod.mk.injEq .. ▸ Except.ok.inj hpop
      obtain ⟨ss, hss⟩ := statesOf_eq_cons (run.stack.drop (p.table.grammar.rule id).rhs.length)
      dsimp only at h
      split at h
      · cases h
      · rename_i target hgoto
        split at h
        · cases h
        · obtain ⟨rfl, -⟩ := Progress.running.inj h
          refine ⟨_, ss, target, ?_, hgoto, ?_, rfl⟩
          · rw [drop_statesOf (Nat.le_of_not_lt hle), hss]
          · rw [← hss]
            rfl

section Steps

variable {paths : List PathRule} (m : ParseTable.Made g p.table a paths)
  (hempty : .terminal .empty ∉ Grammar.rhsSymbols g.rules) (hends : g.ends = [.eof])
include m hempty hends

/-- **A step makes a turn**, or none. -/
theorem keeps_of_step {delegate : Delegate} {run run' : Run V} {state state' : σ} {shifted new : List Token}
    (h : Keeps run shifted p.table)
    (hstep : step delegate lexer p base build run state = .running run' state')
    (htokens : run.lookahead.toList ++ delivered lexer p base run = new ++ run'.lookahead.toList) :
    Keeps run' (shifted ++ new) p.table := by
  have hnone : ∀ s, p.table.action? s .empty = none := m.action?_empty hempty (by simp [hends])
  rcases step_running hnone hstep with ⟨hlook, hstack, hlook', hconsulted⟩ |
    ⟨token, stream, seen, action, hsees, haction, hperform⟩
  -- tokens were passed over, and nothing changed
  · obtain rfl : new = [] := by simpa [hlook, hlook', delivered, hconsulted] using htokens.symm
    intro word _
    rw [List.append_nil, hstack]
    exact h word (by simp [hlook])
  · obtain ⟨ss, hss⟩ := statesOf_eq_cons run.stack
    rw [hsees.append_delivered, Option.toList_some] at htokens
    have hlooks : ∀ t, run.lookahead = some t → t = token := by
      intro t ht
      cases hsees with
      | held hlook => exact Option.some.inj (ht.symm.trans hlook)
      | read hlook _ _ _ => simp [hlook] at ht
    cases action with
    | accept id => exact absurd hperform accept_ne_running
    | shift target =>
      obtain ⟨rfl, -⟩ := Progress.running.inj hperform
      obtain rfl : new = [token] := by simpa using htokens.symm
      intro word _
      -- the input goes on with the token that is shifted
      have hturns := h (token.kind :: word) fun t ht => by rw [hlooks t ht]; rfl
      rw [hss] at hturns
      rw [List.map_append, List.append_assoc]
      refine hturns.tail ?_
      rw [ParseTable.turn_shift haction, ← hss]
      rfl
    | reduce id =>
      obtain ⟨below, rest, target, hdrop, hgoto, hstates, hlook'⟩ := statesOf_reduce hperform
      obtain rfl : new = [] := by
        rw [hlook', Option.toList_some] at htokens
        simpa using htokens
      intro word hword
      -- the input begins with the token in hand, before which the rule is reduced
      have hkind : firstOr .eof word = token.kind := hword token hlook'
      have hturns := h word fun t ht => by rw [hlooks t ht, hkind]
      rw [hss] at hturns hdrop
      rw [List.append_nil, hstates]
      exact hturns.tail (ParseTable.turn_reduce (by rw [hkind]; exact haction) hdrop hgoto)

/-! ## 4. Rejecting runs -/

/-- What is known of a run that rejects a token: what lies on its stack, the word that this derives, and
the turns up to there. -/
structure Rejected (g : Grammar) (a : Automaton) (table : ParseTable) (before : List Token) (token : Token)
    (stack : List (Frame V)) (row : List (Grown V)) : Prop where
  linked : Linked a stack row
  expands : g.Expands (row.reverse.map Grown.symbol) ((before.map Token.kind).map .terminal)
  turns : ∀ rest, firstOr .eof rest = token.kind →
    table.Turns ([0], before.map Token.kind ++ rest) (statesOf stack, rest)
  stuck : table.action? (topState stack) token.kind = none

variable (hstart : .nonterminal g.start ∉ Grammar.rhsSymbols g.rules)
include hstart

theorem exists_rejected {token : Token} : ∀ {fuel : Nat} {run : Run V} {state : σ} {row : List (Grown V)}
    {log : List (Reduction V × V)} {shifted : List Token}, Stands a (fun _ => True) run row →
    Unfolds g log.reverse row.reverse (shifted.map .token) → Keeps run shifted p.table →
    rejected? lexer p base build fuel run state = some token →
    ∃ before stack row', shifted ++ run.lookahead.toList ++
        (transcript lexer p base build fuel run state).tokens = before ++ [token] ∧
      Rejected (V := V) g a p.table before token stack row'
  | fuel + 1, run, state, row, log, shifted, h, hlog, hkeeps, hrejects => by
    obtain ⟨log', hrec⟩ := step_recorded p base build run state [] (delegateWith lexer fuel) lexer
    have hout : Outcome g a lexer (delegateWith lexer fuel) p base build (fun _ => True) run state row _ :=
      step_outcome m hstart hempty h state
    rw [rejected?] at hrejects
    simp only [transcript]
    rw [hrec]
    cases hstep : step (delegateWith lexer fuel) lexer p base build run state with
    | stopped result stream state1 =>
      simp only [hstep, Option.filter_eq_some_iff, Bool.and_eq_true, beq_iff_eq] at hrejects
      obtain ⟨hconsulted, hstuck, -⟩ := hrejects
      -- the token is in hand, or this step reads it
      have htokens : run.lookahead.toList ++ delivered lexer p base run = [token] := by
        cases hlook : run.lookahead with
        | none => simp [delivered, hlook, hconsulted]
        | some t =>
          obtain rfl : t = token := by simpa [consulted, hlook] using hconsulted
          simp [delivered, hlook]
      refine ⟨shifted, run.stack, row, ?_, h.linked, ?_, fun rest hrest => hkeeps rest fun t ht => ?_, hstuck⟩
      · simp only [Progress.mapState]
        rw [List.append_assoc, htokens]
      · have := hlog.rightDerives.rewrites
        simpa [Grown.symbol, Function.comp_def] using this
      · obtain rfl : t = token := by simpa [consulted, ht] using hconsulted
        exact hrest
    | running run1 state1 =>
      rw [hstep] at hrejects hout
      obtain ⟨row1, entry, new, h1, hgrows, -, -, htokens⟩ := hout.running respects_true h
      obtain ⟨before, stack, row', hbefore, hrejected⟩ := exists_rejected h1 (hgrows.unfolds hlog)
        (keeps_of_step m hempty hends hkeeps hstep htokens) hrejects
      refine ⟨before, stack, row', ?_, hrejected⟩
      simp only [Progress.mapState]
      rw [← hbefore, ← List.append_assoc, List.append_assoc shifted, htokens, ← List.append_assoc]

end Steps

theorem leadsTo_of_linked {stack : List (Frame V)} {row : List (Grown V)} (h : Linked a stack row) :
    a.LeadsTo (topState stack) (row.reverse.map Grown.symbol) := by
  induction h with
  | nil => exact .nil
  | cons hgoto _ _ ih =>
    rw [List.reverse_cons, List.map_append]
    exact .concat ih hgoto

/-- **Errors are reported at the first impossible token.**  Take a grammar that ends at the end of the
input, has no precedences, keeps its start nonterminal, the end of the input and the empty marker out
of its right-hand sides, has tables, and of which every nonterminal derives some word.  If a parse comes
to a token without an action, then this is the last token that was delivered; the tokens before it begin a
word that the grammar derives, and no word that goes on with it does.  If the token is the end of the
input, the tokens before it are no such word. -/
theorem rejects_first_impossible {name : String} {rules : List Rule} {table : ParseTable}
    (hg : Grammar.ofRules name rules [.eof] = .ok g)
    (hplain : ∀ rule ∈ rules, rule.precedence = none)
    (hrules : ∀ X ∈ Grammar.rhsSymbols rules,
      X ≠ .nonterminal name ∧ X ≠ .terminal .eof ∧ X ≠ .terminal .empty)
    (hproductive : ∀ rule ∈ rules, ∃ word, g.Derives [.nonterminal rule.lhs] word)
    (htable : ParseTable.ofGrammar g = .ok table) (channel : Channel)
    (delimiters : List (String × String)) (lexer : Lexer) (base : String) (build : Builder V σ)
    (stream : Stream) (state : σ) (fuel : Nat) (token : Token)
    (hrejects : rejected? lexer (ofTable table channel delimiters) base build fuel (start stream) state =
      some token) :
    ∃ before : List Token,
      (transcript lexer (ofTable table channel delimiters) base build fuel (start stream) state).tokens =
        before ++ [token] ∧
      (∃ rest, g.Derives [.nonterminal name] (before.map Token.kind ++ rest)) ∧
      (token.kind ≠ .eof → ∀ rest,
        ¬ g.Derives [.nonterminal name] ((before ++ [token]).map Token.kind ++ rest)) ∧
      (token.kind = .eof → ¬ g.Derives [.nonterminal name] (before.map Token.kind)) := by
  set p := ofTable table channel delimiters
  have hproper := Grammar.proper_ofRules hg
  have hdefined := fun name => @Grammar.exists_rule g _ _ _ hg name
  obtain ⟨rfl, rfl, hends, _⟩ := Grammar.ofRules_eq hg
  have hends : g.ends = [.eof] := by rw [hends]; rfl
  have hstart : .nonterminal g.start ∉ Grammar.rhsSymbols g.rules := fun h => (hrules _ h).1 rfl
  have hempty : .terminal .empty ∉ Grammar.rhsSymbols g.rules := fun h => (hrules _ h).2.2 rfl
  have hnone : ∀ id, (g.rule id).precedence = none := by
    intro id
    unfold Grammar.rule
    cases hrule : g.rules[id]? with
    | none => rfl
    | some rule => exact hplain rule (List.mem_of_getElem? hrule)
  obtain ⟨a, paths, m⟩ := ParseTable.made_ofGrammar hproper htable
  have m : ParseTable.Made g p.table a paths := m
  have hlog : Unfolds g ([] : List (Reduction V × V)).reverse ([] : List (Grown V)).reverse
      (([] : List Token).map .token) := .refl _
  obtain ⟨before, stack, row, htokens, hrejected⟩ := exists_rejected m hempty hends hstart
    (stands_start stream) hlog (keeps_start stream p.table) hrejects
  -- a sentence that goes on with the token would be accepted, but the turns end before
  have himpossible : ∀ rest, firstOr .eof rest = token.kind →
      ¬ g.Derives [.nonterminal g.start] (before.map Token.kind ++ rest) := by
    intro rest hrest hderives
    obtain ⟨states, -, hturns, haccept⟩ := turns_of_derives m hnone hstart hempty hends hderives
    obtain ⟨ss, hss⟩ := statesOf_eq_cons stack
    obtain ⟨ss', hss'⟩ := exists_cons_lastState states 0 []
    have hstuck : p.table.turn (statesOf stack, rest) = none := by
      rw [hss, ParseTable.turn, hrest, hrejected.stuck]
    have hend : p.table.turn (states.reverse ++ [0], []) = none := by
      rw [hss', ParseTable.turn]
      simp only [firstOr, List.headD_nil, haccept]
    have heq := (hrejected.turns rest hrest).unique hturns hstuck hend
    obtain ⟨hstates, rfl⟩ := Prod.mk.injEq .. ▸ heq
    rw [hss, hss'] at hstates
    have hstuck := hrejected.stuck
    rw [(List.cons.inj hstates).1, ← hrest] at hstuck
    exact absurd (hstuck.symm.trans haccept) (by simp)
  refine ⟨before, by simpa [start] using htokens, ?_, fun hkind rest => ?_, fun hkind => ?_⟩
  · obtain ⟨back, hback, hsymbols⟩ := (leadsTo_of_linked hrejected.linked).viable m.tracks hproper
    obtain ⟨rest, hrest⟩ := @Grammar.exists_derives g back fun X hX => by
      obtain ⟨rule, hrule, rfl⟩ := hdefined _ (hsymbols _ hX)
      exact hproductive rule hrule
    refine ⟨rest, ?_⟩
    rw [Grammar.Derives, List.map_append]
    exact hback.trans (hrejected.expands.concat hrest)
  · rw [List.map_append, List.append_assoc]
    exact himpossible _ rfl
  · have := himpossible [] hkind.symm
    rwa [List.append_nil] at this

/-- Every nonterminal of the rows of brackets derives the empty word. -/
theorem productive_brackets (hg : Grammar.ofRules "text" bracketRules [.eof] = .ok g) :
    ∀ rule ∈ bracketRules, ∃ word, g.Derives [.nonterminal rule.lhs] word := by
  obtain ⟨-, hrules, -, -⟩ := Grammar.ofRules_eq hg
  have hrow : g.Derives [.nonterminal "row"] [] := by
    have h := @Grammar.Rewrites.expand g 1 [] [] [] (by rw [hrules]; decide)
      (by simp [Grammar.rule, hrules, bracketRules, Rule.Expands])
    simp only [Grammar.rule, hrules] at h
    exact .single h
  have htext : g.Derives [.nonterminal "text"] [] := by
    have h := @Grammar.Rewrites.expand g 0 [.nonterminal "row"] [] [] (by rw [hrules]; decide)
      (by simp [Grammar.rule, hrules, bracketRules, Rule.Expands, Slot.one])
    simp only [Grammar.rule, hrules] at h
    exact .head h hrow
  intro rule hrule
  simp only [bracketRules, List.mem_cons, List.not_mem_nil, or_false] at hrule
  rcases hrule with rfl | rfl | rfl
  · exact ⟨[], htext⟩
  · exact ⟨[], hrow⟩
  · exact ⟨[], hrow⟩

/-- In `( ))` the last bracket closes nothing: the parser stops there, and the others begin a row. -/
theorem rejects_first_impossible_brackets : ∃ g table before token,
    Grammar.ofRules "text" bracketRules [.eof] = .ok g ∧ ParseTable.ofGrammar g = .ok table ∧
    (transcript bracketLexer (ofTable table .default []) "text" forget 32 (start (.ofText "( ))")) ()).tokens =
      before ++ [token] ∧
    token.kind = .kind ")" ∧ (∃ rest, g.Derives [.nonterminal "text"] (before.map Token.kind ++ rest)) ∧
    ∀ rest, ¬ g.Derives [.nonterminal "text"] ((before ++ [token]).map Token.kind ++ rest) := by
  obtain ⟨g, hg⟩ : ∃ g, Grammar.ofRules "text" bracketRules [.eof] = .ok g := ⟨_, rfl⟩
  have hok : (((Grammar.ofRules "text" bracketRules [.eof]).bind ParseTable.ofGrammar).toOption.map
      fun table => (rejected? bracketLexer (ofTable table .default []) "text" forget 32
        (start (.ofText "( ))")) ()).map Token.kind) = some (some (.kind ")")) := by
    decide +kernel
  obtain ⟨table, htable, hrejected⟩ := Option.map_eq_some_iff.mp hok
  obtain ⟨token, hrejects, hkind⟩ := Option.map_eq_some_iff.mp hrejected
  have htable := eq_ok_of_bind_toOption hg htable
  obtain ⟨before, htokens, hbegins, himpossible, -⟩ := rejects_first_impossible hg (by decide)
    (by decide) (productive_brackets hg) htable .default [] bracketLexer "text" forget
    (.ofText "( ))") () 32 token hrejects
  exact ⟨g, table, before, token, hg, htable, htokens, hkind, hbegins,
    himpossible (by rw [hkind]; exact Terminal.noConfusion)⟩

end Parser

end Lode
