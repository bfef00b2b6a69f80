/-
# Steps and the actions of the tables

A step sees a token, or passes over tokens that are not for the tables (`step_cases`).  What it does then is
what the tables say for the token.  `step_running` says so of a step that was made, and `reduce_running` of
the reduction it may have been.  The other way round, `step_perform` and `step_skip` say which step will be
made.

A state may act without looking at a token, if the tables have an action for the empty terminal.  The tables
of a grammar whose rules do not have the empty terminal never do so, and this is assumed wherever a step is
taken apart; then every step that does not pass over something is an action for the token that it sees.

Both directions are for arguments about the steps of one given parser, where the entries of its tables are
known.  What steps can do at all, whatever the tables, is said by `step_outcome`.
-/
import Lode.Proofs.Parser.Completeness

namespace Lode.Parser

variable {V σ : Type} {g : Grammar} {a : Automaton} {lexer : Lexer} {delegate : Delegate} {p : Parser}
  {base : String} {build : Builder V σ}

/-! ## 1. Steps by what they see -/

/-- A step that sees a token asks the tables about it. -/
theorem step_sees {run : Run V} {state : σ} {token : Token} {stream : Stream} {new : List Token}
    (hsees : Sees lexer p base run (some token) stream new) :
    step delegate lexer p base build run state = consult p base build { run with stream := stream } state token := by
  cases hsees with
  | held hlook =>
    change _ = consult p base build run state token
    simp only [step, hlook]
  | read hlook hfree hnext hchannel => simp only [step, hlook, hfree, hnext, hchannel, if_true]

/-- A step that passes over something does nothing else. -/
theorem Skips.step {run : Run V} {stream : Stream} (hlook : run.lookahead = none)
    (hfree : p.table.lookaheadFree? (topState run.stack) = none)
    (h : Skips lexer delegate p base run stream) (state : σ) :
    step delegate lexer p base build run state = .running ⟨run.stack, none, run.previous, stream⟩ state := by
  cases h with
  | @drop token _ hnext hchannel hinner =>
    simp only [Parser.step, hlook, hfree, hnext, hchannel, Bool.false_eq_true, if_false]
    cases hname : token.channel with
    | hidden name => simp only [hinner name hname]
    | default => rfl
    | all => rfl
  | inner hnext hchannel hname hother hrewind hrun =>
    rw [hname] at hchannel
    simp only [Parser.step, hlook, hfree, hnext, hname, hchannel, Bool.false_eq_true, if_false, hother, hrewind,
      hrun]

/-- The step failed. -/
def Progress.Fails (progress : Progress V σ) : Prop :=
  ∃ e stream state, progress = .stopped (.error e) stream state

/-- **A step** sees a token, passes over something, or fails. -/
theorem step_cases {run : Run V} (hfree : p.table.lookaheadFree? (topState run.stack) = none) (state : σ) :
    (∃ token stream new, Sees lexer p base run (some token) stream new) ∨
      (∃ stream, run.lookahead = none ∧ Skips lexer delegate p base run stream) ∨
      (step delegate lexer p base build run state).Fails := by
  cases hlook : run.lookahead with
  | some token => exact .inl ⟨token, _, _, .held hlook⟩
  | none =>
    cases hnext : lexer.next (p.modeOver base run.stack) run.stream with
    | error e => exact .inr (.inr ⟨e, _, _, by simp only [step, hlook, hfree, hnext]; rfl⟩)
    | ok result =>
      obtain ⟨token, stream⟩ := result
      cases hchannel : token.channel == .all || token.channel == p.channel with
      | true => exact .inl ⟨token, stream, _, .read hlook hfree hnext hchannel⟩
      | false =>
        by_cases hinner : ∃ name other, token.channel = .hidden name ∧ p.inner? name = some other
        · obtain ⟨name, other, hname, hother⟩ := hinner
          have hrewind := Stream.rewind?_eq (Lexer.last_next hnext)
          cases hrun : delegate other (p.modeOver base run.stack)
              { stream with cursor := run.stream.cursor, last := none } with
          | mk result after =>
            cases result with
            | ok u => exact .inr (.inl ⟨after, rfl, .inner hnext hchannel hname hother hrewind hrun⟩)
            | error e =>
              refine .inr (.inr ⟨e, after, state, ?_⟩)
              rw [hname] at hchannel
              simp only [step, hlook, hfree, hnext, hname, hchannel, Bool.false_eq_true, if_false, hother,
                hrewind, hrun]
        · refine .inr (.inl ⟨stream, rfl, .drop hnext hchannel fun name hname => ?_⟩)
          cases hother : p.inner? name with
          | none => rfl
          | some other => exact absurd ⟨name, other, hname, hother⟩ hinner

/-! ## 2. Steps that were made -/

/-- Without actions for the empty terminal no state acts without looking at a token. -/
theorem lookaheadFree?_eq_none {table : ParseTable} (hempty : ∀ s, table.action? s .empty = none)
    (s : StateId) : table.lookaheadFree? s = none := by
  cases hfree : table.lookaheadFree? s with
  | none => rfl
  | some action =>
    have haction := action?_of_lookaheadFree? hfree
    rw [hempty] at haction
    cases haction

/-- An action that goes on is that of the tables for the token. -/
theorem consult_running (hempty : ∀ s, p.table.action? s .empty = none) {run run' : Run V}
    {state state' : σ} {token : Token} (h : consult p base build run state token = .running run' state') :
    ∃ action, p.table.action? (topState run.stack) token.kind = some action ∧
      perform p base build { run with lookahead := some token } state action = .running run' state' := by
  simp only [consult, hempty, Option.or_none] at h
  cases haction : p.table.action? (topState run.stack) token.kind with
  | none => simp [haction] at h
  | some action => exact ⟨action, rfl, by simpa [haction] using h⟩

/-- **A step that goes on** passed over tokens of other channels, or did what the tables say. -/
theorem step_running (hempty : ∀ s, p.table.action? s .empty = none) {run run' : Run V}
    {state state' : σ} (h : step delegate lexer p base build run state = .running run' state') :
    (run.lookahead = none ∧ run'.stack = run.stack ∧ run'.lookahead = none ∧
      consulted lexer p base run = none) ∨
    ∃ token stream new action, Sees lexer p base run (some token) stream new ∧
      p.table.action? (topState run.stack) token.kind = some action ∧
      perform p base build { run with lookahead := some token, stream := stream } state action =
        .running run' state' := by
  have hfree := lookaheadFree?_eq_none hempty (topState run.stack)
  rcases step_cases hfree state with ⟨token, stream, new, hsees⟩ | ⟨stream, hlook, hskips⟩ | ⟨e, _, _, hfail⟩
  · rw [step_sees hsees] at h
    obtain ⟨action, haction, hperform⟩ := consult_running hempty h
    exact .inr ⟨token, stream, new, action, hsees, haction, hperform⟩
  · rw [hskips.step hlook hfree] at h
    obtain ⟨rfl, -⟩ := Progress.running.inj h
    exact .inl ⟨hlook, rfl, rfl, hskips.consulted_eq hlook hfree⟩
  · cases h.symm.trans hfail

/-- What is accepted ends the run. -/
theorem accept_ne_running {run run' : Run V} {state state' : σ} {id : RuleId} :
    accept p base build run state id ≠ .running run' state' := by
  unfold accept
  split
  · simp
  · split
    · simp
    · dsimp only
      split
      · simp
      · split
        · simp
        · split <;> simp

/-- An action reads nothing. -/
theorem perform_running_stream {run run' : Run V} {state state' : σ} {action : Action}
    (h : perform p base build run state action = .running run' state') : run'.stream = run.stream := by
  cases action with
  | accept id => exact absurd h accept_ne_running
  | shift target =>
    dsimp only [perform] at h
    split at h
    · cases h
    · obtain ⟨rfl, -⟩ := Progress.running.inj h
      rfl
  | reduce id =>
    change reduce p base build run state id = .running run' state' at h
    unfold reduce at h
    split at h
    · cases h
    · dsimp only at h
      split at h
      · cases h
      · split at h
        · cases h
        · obtain ⟨rfl, -⟩ := Progress.running.inj h
          rfl

/-- **A reduction that was made**: the right-hand side lay on top of the stack. -/
theorem reduce_running {paths : List PathRule} (m : ParseTable.Made g p.table a paths)
    {run run' : Run V} {state state' : σ} {row : List (Grown V)} (hlinked : Linked a run.stack row)
    {id : RuleId} (hid : id ≠ g.startRule)
    (hitem : ⟨id, (g.rule id).rhs.length⟩ ∈ a.items (topState run.stack))
    (h : reduce p base build run state id = .running run' state') :
    ∃ r parts below v target span, row = parts.reverse ++ below ∧ Reduces g r parts ∧ r.rule = id ∧
      build r state = (.ok v, state') ∧
      a.goto? (topState (run.stack.drop parts.length)) (.nonterminal r.lhs) = some target ∧
      run' = { run with stack := ⟨target, .value v, span⟩ :: run.stack.drop parts.length } := by
  obtain ⟨parts, below, hrow, hlen, hle, hbelow, hreduces⟩ := reduces_of_complete m hlinked hitem
  obtain ⟨target, htable, hgoto⟩ := goto_of_rule m hid hbelow
  simp only [reduce, m.grammar, ← hlen, popFrames_eq hle, htable] at h
  split at h
  · cases h
  · rename_i v state1 hbuild
    obtain ⟨rfl, rfl⟩ := Progress.running.inj h
    have hred := hreduces (spanOf (run.stack.take parts.length).reverse run.previous run.lookahead)
      ((p.table.mode? target).getD (modeOver p base (run.stack.drop parts.length)))
    exact ⟨_, parts, below, v, target, _, hrow, hred, rfl, hbuild, by rw [hred.lhs]; exact hgoto, rfl⟩

/-! ## 3. Steps that will be made -/

/-- The action for the token that is seen is performed. -/
theorem step_perform {run : Run V} {state : σ} {token : Token} {stream : Stream} {new : List Token}
    {action : Action} (hsees : Sees lexer p base run (some token) stream new)
    (haction : p.table.action? (topState run.stack) token.kind = some action) :
    step delegate lexer p base build run state =
      perform p base build ⟨run.stack, some token, run.previous, stream⟩ state action := by
  rw [step_sees hsees]
  simp only [consult, haction, Option.some_or]

/-- A token of a channel that nobody reads is passed over. -/
theorem step_skip {run : Run V} {state : σ} {token : Token} {stream : Stream} {name : String}
    (hlook : run.lookahead = none) (hfree : p.table.lookaheadFree? (topState run.stack) = none)
    (hnext : lexer.next (p.modeOver base run.stack) run.stream = .ok (token, stream))
    (hchannel : token.channel = .hidden name) (hother : p.channel ≠ .hidden name)
    (hinner : p.inner? name = none) :
    step delegate lexer p base build run state =
      .running ⟨run.stack, none, run.previous, stream⟩ state := by
  refine Skips.step hlook hfree (.drop hnext ?_ fun other h => ?_) state
  · rw [hchannel]
    simpa using fun h => hother h.symm
  · rw [hchannel] at h
    obtain rfl := Channel.hidden.inj h
    exact hinner

theorem modeOver_cons {frame : Frame V} {stack : List (Frame V)} :
    p.modeOver base (frame :: stack) = (p.table.mode? frame.state).getD (p.modeOver base stack) := by
  rw [modeOver, modeOver, List.map_cons, List.cons_append, List.findSome?_cons]
  cases p.table.mode? frame.state <;> rfl

end Lode.Parser
