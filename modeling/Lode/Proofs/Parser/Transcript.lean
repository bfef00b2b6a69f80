/-
# Transcripts of parses

A parse returns a value and forgets how it came to it.  Its transcript keeps that: the tokens that reached
the tables, the reductions handed to the builder with the values it made of them, and the lookahead in hand
at the end.  The transcript is read off the steps of the very same parse (`step_recorded`), with a builder
that writes down what it is given.

The reductions of a transcript, last one first, take a row of values and tokens apart again.  Such a row is
a list of `Grown` symbols, and `Unfolds` is a rightmost derivation of rows of them.  It says more than a
derivation of symbols does, since it knows which value stood for each of them: the children of a reduction
are the very tokens and values that its slots were filled with (`Reduces`).  Leaving out the values makes it
a derivation (`rightDerives`).

A lookahead that was read last and never shifted belongs to what reached the tables, but not to the text
that is derived.  It may be given back to the stream, which is how one parser hands over to another, so a
transcript keeps it apart.
-/
import Lode.Parser
import Lode.Proofs.Grammar.Derivation

namespace Lode

variable {V σ : Type}

/-! ## 1. Grown symbols -/

/-- A grammar symbol with what a parse has put in its place. -/
inductive Grown (V : Type) where
  | token (t : Token)
  | value (name : String) (v : V)

namespace Grown

/-- The grammar symbol. -/
def symbol : Grown V → Symbol
  | token t => .terminal t.kind
  | value name _ => .nonterminal name

/-- What stands in its place. -/
def child : Grown V → Child V
  | token t => .token t
  | value _ v => .value v

end Grown

/-- The reduction is that of a rule of the grammar over the given parts: each part is a symbol of
its slot, and the children are what stands in the places of the parts, in order. -/
structure Reduces (g : Grammar) (r : Reduction V) (parts : List (Grown V)) : Prop where
  rule_lt : r.rule < g.rules.length
  lhs : r.lhs = (g.rule r.rule).lhs
  label : r.label = (g.rule r.rule).label
  slots : (g.rule r.rule).Expands (parts.map Grown.symbol)
  children : r.children = parts.map Grown.child

/-- Reductions with their values, the last one first, undone one after the other.  Behind the value
that is taken apart there are only tokens. -/
inductive Unfolds (g : Grammar) : List (Reduction V × V) → List (Grown V) → List (Grown V) → Prop
  | refl (row : List (Grown V)) : Unfolds g [] row row
  | undo {r : Reduction V} {v : V} {log : List (Reduction V × V)} {parts row : List (Grown V)}
      (front : List (Grown V)) (back : List Token) : Reduces g r parts →
      Unfolds g log (front ++ parts ++ back.map .token) row →
      Unfolds g ((r, v) :: log) (front ++ .value r.lhs v :: back.map .token) row

namespace Unfolds

variable {g : Grammar} {log : List (Reduction V × V)} {row row' : List (Grown V)}

/-- Tokens at the end do not matter. -/
theorem append_token (h : Unfolds g log row row') (t : Token) :
    Unfolds g log (row ++ [Grown.token t]) (row' ++ [Grown.token t]) := by
  induction h with
  | refl row => exact .refl _
  | @undo r v log parts row front back hr _ ih =>
    have h1 : Unfolds g log (front ++ parts ++ (back ++ [t]).map .token) (row ++ [Grown.token t]) := by
      simpa only [List.map_append, List.map_cons, List.map_nil, List.append_assoc] using ih
    have h2 := Unfolds.undo (v := v) front (back ++ [t]) hr h1
    simpa only [List.map_append, List.map_cons, List.map_nil, List.append_assoc,
      List.cons_append] using h2

/-- The rules of the reductions form a rightmost derivation. -/
theorem rightDerives (h : Unfolds g log row row') :
    g.RightDerives (log.map fun entry => entry.1.rule) (row.map Grown.symbol)
      (row'.map Grown.symbol) := by
  induction h with
  | refl row => exact .refl _
  | @undo r v log parts row front back hr _ ih =>
    have hback : (back.map (Grown.token (V := V))).map Grown.symbol =
        (back.map Token.kind).map Symbol.terminal := by
      simp [Grown.symbol, Function.comp_def]
    simp only [List.map_append, List.map_cons, hback, Grown.symbol, hr.lhs] at ih ⊢
    exact .expand (front.map Grown.symbol) (back.map Token.kind) hr.rule_lt hr.slots ih

end Unfolds

/-! ## 2. Steps that are written down -/

namespace Parser

/-- The builder that also writes down what it is given and what it makes of it. -/
def recorded (build : Builder V σ) : Builder V (σ × List (Reduction V × V)) := fun r (state, log) =>
  match build r state with
  | (.ok v, state) => (.ok v, (state, log ++ [(r, v)]))
  | (.error e, state) => (.error e, (state, log))

/-- What a step leads to, with another state of the builder. -/
def Progress.mapState {τ : Type} (f : σ → τ) : Progress V σ → Progress V τ
  | .running run state => .running run (f state)
  | .stopped result stream state => .stopped result stream (f state)

section Recorded

variable (p : Parser) (base : String) (build : Builder V σ) (run : Run V) (state : σ)
  (log : List (Reduction V × V))

/-- A reduction does the same when it is written down. -/
theorem reduce_recorded (id : RuleId) : ∃ log',
    reduce p base (recorded build) run (state, log) id =
      (reduce p base build run state id).mapState (·, log') := by
  unfold reduce
  cases popFrames (p.table.grammar.rule id).rhs.length run.stack with
  | error e => exact ⟨log, rfl⟩
  | ok frames =>
    obtain ⟨frames, below⟩ := frames
    simp only
    cases p.table.goto? (topState below) (p.table.grammar.rule id).lhs with
    | none => exact ⟨log, rfl⟩
    | some target =>
      simp only [recorded]
      cases build (p.reduction id (spanOf frames run.previous run.lookahead) frames
          ((p.table.mode? target).getD (modeOver p base below))) state with
      | mk result state' =>
        cases result with
        | error e => exact ⟨log, rfl⟩
        | ok v => exact ⟨_, rfl⟩

/-- Accepting does the same when it is written down. -/
theorem accept_recorded (id : RuleId) : ∃ log',
    accept p base (recorded build) run (state, log) id =
      (accept p base build run state id).mapState (·, log') := by
  unfold accept
  cases popFrames (p.table.grammar.rule id).rhs.length run.stack with
  | error e => exact ⟨log, rfl⟩
  | ok frames =>
    obtain ⟨frames, below⟩ := frames
    simp only
    cases below with
    | cons frame below => exact ⟨log, rfl⟩
    | nil =>
      simp only [recorded, List.isEmpty_nil, Bool.not_true, Bool.false_eq_true, if_false]
      cases build (p.reduction id (spanOf frames run.previous run.lookahead) frames
          (modeOver p base [])) state with
      | mk result state' =>
        cases result with
        | error e => exact ⟨log, rfl⟩
        | ok v =>
          simp only
          cases run.lookahead with
          | none => exact ⟨_, rfl⟩
          | some token =>
            simp only
            cases run.stream.rewind? token with
            | none => exact ⟨_, rfl⟩
            | some stream => exact ⟨_, rfl⟩

/-- An action does the same when its reductions are written down. -/
theorem perform_recorded (action : Action) : ∃ log',
    perform p base (recorded build) run (state, log) action =
      (perform p base build run state action).mapState (·, log') := by
  cases action with
  | shift target =>
    refine ⟨log, ?_⟩
    unfold perform
    cases run.lookahead <;> rfl
  | reduce id => exact reduce_recorded p base build run state log id
  | accept id => exact accept_recorded p base build run state log id

/-- The tables are asked alike. -/
theorem consult_recorded (token : Token) : ∃ log',
    consult p base (recorded build) run (state, log) token =
      (consult p base build run state token).mapState (·, log') := by
  simp only [consult]
  cases (p.table.action? (topState run.stack) token.kind).or
      (p.table.action? (topState run.stack) .empty) with
  | none => exact ⟨log, rfl⟩
  | some action => exact perform_recorded p base build _ state log action

/-- A step does the same whether its reductions are written down or not. -/
theorem step_recorded (delegate : Delegate) (lexer : Lexer) : ∃ log',
    step delegate lexer p base (recorded build) run (state, log) =
      (step delegate lexer p base build run state).mapState (·, log') := by
  unfold step
  cases run.lookahead with
  | some token => exact consult_recorded p base build run state log token
  | none =>
    cases p.table.lookaheadFree? (topState run.stack) with
    | some action => exact perform_recorded p base build run state log action
    | none =>
      simp only
      cases lexer.next (p.modeOver base run.stack) run.stream with
      | error e => exact ⟨log, rfl⟩
      | ok result =>
        obtain ⟨token, stream⟩ := result
        simp only
        split
        · exact consult_recorded p base build _ state log token
        · refine ⟨log, ?_⟩
          cases token.channel with
          | default => rfl
          | all => rfl
          | hidden name =>
            simp only
            cases p.inner? name with
            | none => rfl
            | some other =>
              simp only
              cases stream.rewind? token with
              | none => rfl
              | some stream =>
                simp only
                cases delegate other (p.modeOver base run.stack) stream with
                | mk result stream => cases result <;> rfl

end Recorded

/-! ## 3. Transcripts -/

/-- Inner parsers with a budget of steps. -/
def delegateWith (lexer : Lexer) (fuel : Nat) : Delegate := fun other mode stream =>
  let (result, stream, _) := drive lexer fuel other mode forget (start stream) ()
  (result, stream)

theorem drive_succ (lexer : Lexer) (fuel : Nat) (p : Parser) (base : String)
    (build : Builder V σ) (run : Run V) (state : σ) :
    drive lexer (fuel + 1) p base build run state =
      match step (delegateWith lexer fuel) lexer p base build run state with
      | .stopped result stream state => (result, stream, state)
      | .running run state => drive lexer fuel p base build run state := rfl

/-- The token at which a step looks: the lookahead in hand, or one that it reads.  A state that
needs no lookahead looks at none. -/
def consulted (lexer : Lexer) (p : Parser) (base : String) (run : Run V) : Option Token :=
  match run.lookahead, p.table.lookaheadFree? (topState run.stack) with
  | some token, _ => some token
  | none, some _ => none
  | none, none =>
    match lexer.next (p.modeOver base run.stack) run.stream with
    | .ok (token, _) =>
      if token.channel == .all || token.channel == p.channel then some token else none
    | .error _ => none

/-- The token that a step delivers to the tables: the one it looks at, if it is new. -/
def delivered (lexer : Lexer) (p : Parser) (base : String) (run : Run V) : List Token :=
  if run.lookahead.isNone then (consulted lexer p base run).toList else []

/-- What a parse went through. -/
structure Transcript (V : Type) where
  /-- The tokens delivered to the tables, in order. -/
  tokens : List Token
  /-- The reductions handed to the builder and the values it made, in order. -/
  reductions : List (Reduction V × V)
  /-- The token at which the last step looked. -/
  lookahead : Option Token

/-- The transcript of a run, step by step. -/
def transcript (lexer : Lexer) (p : Parser) (base : String) (build : Builder V σ) :
    Nat → Run V → σ → Transcript V
  | 0, run, _ => ⟨[], [], run.lookahead⟩
  | fuel + 1, run, state =>
    match step (delegateWith lexer fuel) lexer p base (recorded build) run (state, []) with
    | .stopped _ _ (_, log) => ⟨delivered lexer p base run, log, consulted lexer p base run⟩
    | .running run' (state', log) =>
      let rest := transcript lexer p base build fuel run' state'
      ⟨delivered lexer p base run ++ rest.tokens, log ++ rest.reductions, rest.lookahead⟩

end Parser

end Lode
