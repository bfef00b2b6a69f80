/-
# Runs that are alike

Two runs of a parser over different texts are alike if their stacks hold the same states, the same tokens
and the same values, up to the places and up to what the values say about places.  The tables cannot tell
such runs apart.  So if both see the same token next, they make the same step, and are alike again
(`step_alike`); and a run ends as the other does (`Ends.alike`), or gets as far (`Leads.alike`).

What it takes to see the same token is a matter of the texts and not of the parser: `Follows` says that
reading from one stream follows reading from another.  It is a hypothesis here, for all runs that are alike,
and whoever compares two texts has to show it.

That values are alike is a parameter too.  The builder has to make alike values of alike parts
(`Congruent`), which includes that it fails for both or for neither.  If it fails, nothing more is said: the
errors have places in them, and so may differ.
-/
import Lode.Proofs.Parser.Actions
import Lode.Proofs.Parser.Endings
import Mathlib.Data.Option.Basic
import Mathlib.Order.RelClasses

namespace Lode

variable {V σ : Type}

/-! ## 1. Up to places -/

/-- The tokens are the same up to their places. -/
structure Token.Alike (t t' : Token) : Prop where
  kind : t.kind = t'.kind
  text : t.text = t'.text
  channel : t.channel = t'.channel

section Alike

variable (same : V → V → Prop)

/-- What stands at a slot is the same up to places. -/
inductive Child.Alike : Child V → Child V → Prop
  | token {t t' : Token} : t.Alike t' → Child.Alike (.token t) (.token t')
  | value {v v' : V} : same v v' → Child.Alike (.value v) (.value v')

/-- Both values are there and alike, or neither is. -/
inductive SameResult : Except Error V → Except Error V → Prop
  | ok {v v' : V} : same v v' → SameResult (.ok v) (.ok v')
  | error (e e' : Error) : SameResult (.error e) (.error e')

/-- The reductions are those of the same rule, over parts that are alike. -/
structure Reduction.Alike (r r' : Reduction V) : Prop where
  rule : r.rule = r'.rule
  lhs : r.lhs = r'.lhs
  label : r.label = r'.label
  mode : r.mode = r'.mode
  children : List.Forall₂ (Child.Alike same) r.children r'.children

/-- From parts that are alike the builder makes values that are alike. -/
def Congruent (build : Builder V σ) : Prop :=
  ∀ {r r' : Reduction V}, r.Alike same r' → ∀ state, SameResult same (build r state).1 (build r' state).1 ∧
    (build r state).2 = (build r' state).2

end Alike

namespace Parser

variable {lexer : Lexer} {delegate : Delegate} {p : Parser} {base : String} {build : Builder V σ}

section Alike

variable (same : V → V → Prop) (S : Stream → Stream → Prop)

/-- The stack entries are the same up to places. -/
structure Frame.Alike (f f' : Frame V) : Prop where
  state : f.state = f'.state
  child : f.child.Alike same f'.child

/-- The runs are the same up to places, and their streams are related. -/
structure Run.Alike (run run' : Run V) : Prop where
  stack : List.Forall₂ (Frame.Alike same) run.stack run'.stack
  held : ∀ token ∈ run.lookahead, ∃ token' ∈ run'.lookahead, token.Alike token'
  free : run.lookahead = none → run'.lookahead = none
  stream : S run.stream run'.stream
  last : ∀ token ∈ run.lookahead, ∃ cursor, run.stream.last = some (token.span, cursor)
  last' : ∀ token ∈ run'.lookahead, ∃ cursor, run'.stream.last = some (token.span, cursor)

/-- What steps lead to is the same up to places. -/
inductive Progress.Alike : Progress V σ → Progress V σ → Prop
  | running {run run' : Run V} (state : σ) : run.Alike same S run' →
      Progress.Alike (.running run state) (.running run' state)
  | stopped {result result' : Except Error V} (stream stream' : Stream) (state : σ) :
      SameResult same result result' →
      Progress.Alike (.stopped result stream state) (.stopped result' stream' state)

end Alike

variable {same : V → V → Prop} {S : Stream → Stream → Prop} {run run' : Run V}

/-! ## 2. Stacks -/

theorem statesOf_alike {stack stack' : List (Frame V)} (h : List.Forall₂ (Frame.Alike same) stack stack') :
    stack.map Frame.state = stack'.map Frame.state := by
  induction h with
  | nil => rfl
  | cons hframe _ ih => rw [List.map_cons, List.map_cons, hframe.state, ih]

theorem topState_alike {stack stack' : List (Frame V)} (h : List.Forall₂ (Frame.Alike same) stack stack') :
    topState stack = topState stack' := by
  cases h with
  | nil => rfl
  | cons hframe _ => exact hframe.state

theorem modeOver_alike {stack stack' : List (Frame V)} (h : List.Forall₂ (Frame.Alike same) stack stack') :
    p.modeOver base stack = p.modeOver base stack' := by
  rw [modeOver, modeOver, statesOf_alike h]

theorem children_alike {frames frames' : List (Frame V)}
    (h : List.Forall₂ (Frame.Alike same) frames frames') :
    List.Forall₂ (Child.Alike same) (frames.map Frame.child) (frames'.map Frame.child) := by
  induction h with
  | nil => exact .nil
  | cons hframe _ ih => exact .cons hframe.child ih

/-- The frames of a right-hand side are alike, and so are the stacks below them. -/
theorem popFrames_alike {stack stack' : List (Frame V)} (h : List.Forall₂ (Frame.Alike same) stack stack')
    {count : Nat} {frames below : List (Frame V)} (hpop : popFrames count stack = .ok (frames, below)) :
    ∃ frames' below', popFrames count stack' = .ok (frames', below') ∧
      List.Forall₂ (Frame.Alike same) frames frames' ∧ List.Forall₂ (Frame.Alike same) below below' := by
  unfold popFrames at hpop
  split at hpop
  · cases hpop
  · rename_i hle
    obtain ⟨rfl, rfl⟩ := Prod.mk.inj (Except.ok.inj hpop)
    refine ⟨_, _, popFrames_eq (by rw [← h.length_eq]; omega), ?_, ?_⟩
    · exact List.forall₂_reverse_iff.mpr (List.forall₂_take count h)
    · exact List.forall₂_drop count h

/-! ## 3. Actions -/

section Actions

variable (hbuild : Congruent same build) (h : run.Alike same S run') (state : σ)
include hbuild h

/-- The same reduction of alike runs makes alike values, or both fail. -/
theorem reduce_alike (id : RuleId) : (reduce p base build run state id).Fails ∨
    (reduce p base build run state id).Alike same S (reduce p base build run' state id) := by
  cases hpop : popFrames (p.table.grammar.rule id).rhs.length run.stack with
  | error e =>
    simp only [reduce, hpop]
    exact .inl ⟨_, _, _, rfl⟩
  | ok popped =>
    obtain ⟨frames, below⟩ := popped
    obtain ⟨frames', below', hpop', hframes, hbelow⟩ := popFrames_alike h.stack hpop
    simp only [reduce, hpop, hpop', ← topState_alike hbelow, ← modeOver_alike hbelow]
    cases p.table.goto? (topState below) (p.table.grammar.rule id).lhs with
    | none => exact .inl ⟨_, _, _, rfl⟩
    | some target =>
      dsimp only
      set mode := (p.table.mode? target).getD (p.modeOver base below)
      have hreduction : (p.reduction id (spanOf frames run.previous run.lookahead) frames mode).Alike same
          (p.reduction id (spanOf frames' run'.previous run'.lookahead) frames' mode) :=
        ⟨rfl, rfl, rfl, rfl, children_alike hframes⟩
      obtain ⟨hresult, hstate⟩ := hbuild hreduction state
      generalize build (p.reduction id (spanOf frames run.previous run.lookahead) frames mode) state = built
        at hresult hstate
      generalize build (p.reduction id (spanOf frames' run'.previous run'.lookahead) frames' mode) state = built'
        at hresult hstate
      obtain ⟨result, after⟩ := built
      obtain ⟨result', after'⟩ := built'
      obtain rfl : after = after' := hstate
      cases hresult with
      | error e e' => exact .inl ⟨_, _, _, rfl⟩
      | ok hsame =>
        exact .inr (.running after
          ⟨.cons ⟨rfl, .value hsame⟩ hbelow, h.held, h.free, h.stream, h.last, h.last'⟩)

/-- Alike runs are accepted with alike values, or both fail. -/
theorem accept_alike (id : RuleId) : (accept p base build run state id).Fails ∨
    (accept p base build run state id).Alike same S (accept p base build run' state id) := by
  cases hpop : popFrames (p.table.grammar.rule id).rhs.length run.stack with
  | error e =>
    simp only [accept, hpop]
    exact .inl ⟨_, _, _, rfl⟩
  | ok popped =>
    obtain ⟨frames, below⟩ := popped
    obtain ⟨frames', below', hpop', hframes, hbelow⟩ := popFrames_alike h.stack hpop
    have hempty : below'.isEmpty = below.isEmpty := by cases hbelow <;> rfl
    simp only [accept, hpop, hpop', ← modeOver_alike hbelow, hempty]
    cases !below.isEmpty with
    | true => exact .inl ⟨_, _, _, rfl⟩
    | false =>
      simp only [Bool.false_eq_true, if_false]
      set mode := p.modeOver base below
      have hreduction : (p.reduction id (spanOf frames run.previous run.lookahead) frames mode).Alike same
          (p.reduction id (spanOf frames' run'.previous run'.lookahead) frames' mode) :=
        ⟨rfl, rfl, rfl, rfl, children_alike hframes⟩
      obtain ⟨hresult, hstate⟩ := hbuild hreduction state
      generalize build (p.reduction id (spanOf frames run.previous run.lookahead) frames mode) state = built
        at hresult hstate
      generalize build (p.reduction id (spanOf frames' run'.previous run'.lookahead) frames' mode) state = built'
        at hresult hstate
      obtain ⟨result, after⟩ := built
      obtain ⟨result', after'⟩ := built'
      obtain rfl : after = after' := hstate
      cases hresult with
      | error e e' => exact .inl ⟨_, _, _, rfl⟩
      | @ok v v' hsame =>
        dsimp only
        cases hrun : run.lookahead with
        | none =>
          rw [h.free hrun]
          exact .inr (.stopped _ _ _ (.ok hsame))
        | some token =>
          obtain ⟨token', hrun', -⟩ := h.held token hrun
          obtain ⟨cursor, hcursor⟩ := h.last token hrun
          obtain ⟨cursor', hcursor'⟩ := h.last' token' hrun'
          simp only [Option.mem_def.mp hrun', Stream.rewind?_eq hcursor, Stream.rewind?_eq hcursor']
          exact .inr (.stopped _ _ _ (.ok hsame))

/-- The same action does the same to runs that are alike. -/
theorem perform_alike (action : Action) : (perform p base build run state action).Fails ∨
    (perform p base build run state action).Alike same S (perform p base build run' state action) := by
  cases action with
  | shift target =>
    unfold perform
    cases hrun : run.lookahead with
    | none => exact .inl ⟨_, _, _, rfl⟩
    | some token =>
      obtain ⟨token', hrun', htoken⟩ := h.held token hrun
      rw [Option.mem_def.mp hrun']
      exact .inr (.running state ⟨.cons ⟨rfl, .token htoken⟩ h.stack, by simp, fun _ => rfl, h.stream,
        by simp, by simp⟩)
  | reduce id => exact reduce_alike hbuild h state id
  | accept id => exact accept_alike hbuild h state id

end Actions

/-! ## 4. Steps -/

variable (lexer delegate p base S) in
/-- What a parser reads for its tables from one stream it reads from the other as well, up to places, and
what it passes over in one stream it passes over in the other. -/
structure Follows (run run' : Run V) : Prop where
  reads : ∀ {token : Token} {stream : Stream},
    lexer.next (p.modeOver base run.stack) run.stream = .ok (token, stream) → p.takes token = true →
    ∃ token' stream', lexer.next (p.modeOver base run'.stack) run'.stream = .ok (token', stream') ∧
      token.Alike token' ∧ S stream stream'
  skips : ∀ {stream : Stream}, Skips lexer delegate p base run stream →
    ∃ stream', Skips lexer delegate p base run' stream' ∧ S stream stream'

section Steps

variable (hbuild : Congruent same build) (hfree : ∀ s, p.table.lookaheadFree? s = none)
include hbuild

/-- The tables do the same about tokens of one kind. -/
theorem consult_alike {token token' : Token} {stream stream' : Stream} (htoken : token.Alike token')
    (h : Run.Alike same S ⟨run.stack, some token, run.previous, stream⟩
      ⟨run'.stack, some token', run'.previous, stream'⟩) (state : σ) :
    (consult p base build { run with stream := stream } state token).Fails ∨
      (consult p base build { run with stream := stream } state token).Alike same S
        (consult p base build { run' with stream := stream' } state token') := by
  have hstack : topState run'.stack = topState run.stack := (topState_alike h.stack).symm
  simp only [consult, hstack, ← htoken.kind]
  cases (p.table.action? (topState run.stack) token.kind).or (p.table.action? (topState run.stack) .empty) with
  | none => exact .inl ⟨_, _, _, rfl⟩
  | some action => exact perform_alike hbuild h state action

include hfree

/-- **A step** of alike runs, if it sees the same in both, leads to alike runs or alike results. -/
theorem step_alike (h : run.Alike same S run')
    (hfollows : run.lookahead = none → Follows lexer delegate p base S run run') (state : σ) :
    (step delegate lexer p base build run state).Fails ∨
      (step delegate lexer p base build run state).Alike same S (step delegate lexer p base build run' state) := by
  rcases step_cases (hfree _) state with ⟨token, stream, new, hsees⟩ | ⟨stream, hlook, hskips⟩ | hfails
  · obtain ⟨token', stream', new', hsees', htoken, hstream, hlast, hlast'⟩ : ∃ token' stream' new',
        Sees lexer p base run' (some token') stream' new' ∧ token.Alike token' ∧ S stream stream' ∧
          (∃ cursor, stream.last = some (token.span, cursor)) ∧
          ∃ cursor, stream'.last = some (token'.span, cursor) := by
      cases hsees with
      | held hlook =>
        obtain ⟨token', hlook', htoken⟩ := h.held token hlook
        exact ⟨token', _, _, .held hlook', htoken, h.stream, h.last token hlook, h.last' token' hlook'⟩
      | read hlook hfree' hnext htakes =>
        obtain ⟨token', stream', hnext', htoken, hstream⟩ := (hfollows hlook).reads hnext htakes
        have htakes' : p.takes token' = true := by rw [takes, ← htoken.channel]; exact htakes
        exact ⟨token', stream', _, .read (h.free hlook) (hfree _) hnext' htakes', htoken, hstream,
          ⟨_, Lexer.last_next hnext⟩, ⟨_, Lexer.last_next hnext'⟩⟩
    rw [step_sees hsees, step_sees hsees']
    refine consult_alike hbuild htoken ⟨h.stack, ?_, nofun, hstream, ?_, ?_⟩ state
    · rintro _ ⟨⟩
      exact ⟨token', rfl, htoken⟩
    · rintro _ ⟨⟩
      exact hlast
    · rintro _ ⟨⟩
      exact hlast'
  · obtain ⟨stream', hskips', hstream⟩ := (hfollows hlook).skips hskips
    rw [hskips.step hlook (hfree _), hskips'.step (h.free hlook) (hfree _)]
    exact .inr (.running state ⟨h.stack, nofun, fun _ => rfl, hstream, nofun, nofun⟩)
  · exact .inl hfails

/-! ## 5. Runs -/

/-- **Alike runs** over streams that follow each other accept alike values. -/
theorem Ends.alike {run run' : Run V} {state state' : σ} {v : V} {stream : Stream}
    (hfollows : ∀ {run run' : Run V}, run.Alike same S run' → run.lookahead = none →
      Follows lexer delegate p base S run run')
    (h : run.Alike same S run')
    (hends : Ends delegate lexer p base build run state (.ok v, stream, state')) :
    ∃ v' stream', Ends delegate lexer p base build run' state (.ok v', stream', state') ∧ same v v' := by
  generalize hout : (Except.ok v, stream, state') = out at hends
  induction hends generalizing run' with
  | @stop run state _ _ _ hstep =>
    obtain ⟨rfl, rfl, rfl⟩ : _ ∧ _ ∧ _ := by simpa only [Prod.mk.injEq] using hout
    have hsteps := step_alike hbuild hfree h (hfollows h) state
    generalize hstep' : step delegate lexer p base build run' state = progress at hsteps
    rw [hstep] at hsteps
    rcases hsteps with ⟨_, _, _, ⟨⟩⟩ | hsteps
    cases hsteps with
    | stopped _ stream' _ hresult =>
      cases hresult with
      | ok hsame => exact ⟨_, stream', .stop hstep', hsame⟩
  | @go run next state after _ hstep _ ih =>
    have hsteps := step_alike hbuild hfree h (hfollows h) state
    generalize hstep' : step delegate lexer p base build run' state = progress at hsteps
    rw [hstep] at hsteps
    rcases hsteps with ⟨_, _, _, ⟨⟩⟩ | hsteps
    cases hsteps with
    | running _ halike =>
      obtain ⟨v', stream', hends', hsame⟩ := ih halike hout
      exact ⟨v', stream', .go hstep' hends', hsame⟩

/-- A run that leads to another leads to an alike one over another stream, if the streams follow each other
on the way. -/
theorem Leads.alike {origin last : Run V} {originState lastState : σ}
    (hfollows : ∀ {run run' next : Run V} {state nextState : σ},
      Leads delegate lexer p base build origin originState run state →
      step delegate lexer p base build run state = .running next nextState →
      Leads delegate lexer p base build next nextState last lastState →
      run.Alike same S run' → run.lookahead = none → Follows lexer delegate p base S run run')
    {run run' : Run V} {state : σ} (hbefore : Leads delegate lexer p base build origin originState run state)
    (hleads : Leads delegate lexer p base build run state last lastState) (h : run.Alike same S run') :
    ∃ last', Leads delegate lexer p base build run' state last' lastState ∧ last.Alike same S last' := by
  induction hleads generalizing run' with
  | refl run state => exact ⟨run', .refl run' state, h⟩
  | @go run next _ state nextState _ hstep hleads ih =>
    have hsteps := step_alike hbuild hfree h (hfollows hbefore hstep hleads h) state
    generalize hstep' : step delegate lexer p base build run' state = progress at hsteps
    rw [hstep] at hsteps
    rcases hsteps with ⟨_, _, _, ⟨⟩⟩ | hsteps
    cases hsteps with
    | running _ halike =>
      obtain ⟨last', hleads', hlast⟩ := ih hfollows (hbefore.trans (.go hstep (.refl _ _))) halike
      exact ⟨last', .go hstep' hleads', hlast⟩

end Steps

end Parser

end Lode
