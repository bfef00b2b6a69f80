/-
# Places are regions

No place that a parser works with ends before it begins.  Tokens are cut off the text from left to right;
the place of a reduction is the least one around its parts, or the gap before the lookahead; and both make
ordered places from ordered ones.  This holds of any tables, any lexer and any builder, since a builder does
not decide on the places of the stack.

What a builder does with other places therefore never matters (`parse_congr`): a parse is the same for any
two builders that agree on the reductions at ordered places.  A builder that checks its places and stops at
a wrong one is in particular the same as one that does not check.

The argument is one about pairs.  A step of both builders gives the same result and keeps the places
ordered, and neither half would go through alone: that the builders agree needs that the places are ordered,
and these are kept from step to step only as long as both make the same steps (`step_congr`).
-/
import Lode.Proofs.Parser.Steps

namespace Lode

/-! ## 1. Ordered places -/

theorem Position.before_iff {a b : Position} :
    a.before b = true ↔ a.line < b.line ∨ a.line = b.line ∧ a.col < b.col := by
  simp [before]

theorem Position.before_eq_false_iff {a b : Position} :
    a.before b = false ↔ b.line < a.line ∨ a.line = b.line ∧ b.col ≤ a.col := by
  rw [← Bool.not_eq_true, before_iff]
  omega

namespace Span

/-- A place that does not end before it begins. -/
def Ordered (s : Span) : Prop := s.stop.before s.start = false

theorem ordered_point (p : Position) : (point p).Ordered :=
  Position.before_eq_false_iff.mpr (.inr ⟨rfl, Nat.le_refl _⟩)

theorem Ordered.join {a b : Span} (ha : a.Ordered) (hb : b.Ordered) : (a.join b).Ordered := by
  unfold Ordered Span.join Position.earlier Position.later at *
  rw [Position.before_eq_false_iff] at *
  split <;> split <;> rename_i h₁ h₂ <;> rw [Position.before_iff] at h₁ h₂ <;> dsimp only <;> omega

/-- The gap between two places is ordered. -/
theorem ordered_between (a b : Span) : (between a b).Ordered := by
  unfold between
  split
  · rename_i h
    rw [Position.before_iff] at h
    exact Position.before_eq_false_iff.mpr (by dsimp only; omega)
  · exact ordered_point _

/-- The cover of ordered places is ordered. -/
theorem ordered_cover {spans : List Span} (h : ∀ s ∈ spans, s.Ordered) :
    ∀ s ∈ cover spans, s.Ordered := by
  have hfold : ∀ {spans : List Span} {first : Span}, first.Ordered → (∀ s ∈ spans, s.Ordered) →
      (spans.foldl join first).Ordered := by
    intro spans
    induction spans with
    | nil => exact fun hfirst _ => hfirst
    | cons s spans ih =>
      intro first hfirst h
      obtain ⟨hs, hspans⟩ := List.forall_mem_cons.mp h
      exact ih (hfirst.join hs) hspans
  cases spans with
  | nil => exact fun _ hs => nomatch hs
  | cons first spans =>
    obtain ⟨hfirst, hspans⟩ := List.forall_mem_cons.mp h
    rintro _ ⟨⟩
    exact hfold hfirst hspans

end Span

/-! ## 2. Tokens -/

/-- The place of a token is ordered when it is cut off. -/
theorem Stream.ordered_produce? {s s' : Stream} {kind : Terminal} {length : Nat} {channel : Channel}
    {token : Token} (h : s.produce? kind length channel = some (token, s')) : token.span.Ordered := by
  unfold Stream.produce? at h
  split at h
  · cases h
  · obtain ⟨_, _, heq⟩ := Option.map_eq_some_iff.mp h
    obtain ⟨rfl, -⟩ := Prod.mk.injEq .. ▸ heq
    exact Position.before_eq_false_iff.mpr (.inr ⟨rfl, Nat.le_add_right _ _⟩)

/-- The first token that is found has an ordered place. -/
theorem Lexer.ordered_firstMatch? {s s' : Stream} {token : Token} : ∀ {rules : List LexRule},
    firstMatch? s rules = some (token, s') → token.span.Ordered
  | [], h => by cases h
  | rule :: rules, h => by
    rw [firstMatch?] at h
    split at h
    · exact Stream.ordered_produce? h
    · exact ordered_firstMatch? h

/-- The places of tokens are ordered. -/
theorem Lexer.ordered_next {lexer : Lexer} {mode : String} {s s' : Stream} {token : Token}
    (h : lexer.next mode s = .ok (token, s')) : token.span.Ordered := by
  unfold Lexer.next at h
  split at h
  · obtain ⟨rfl, rfl⟩ := Prod.mk.injEq .. ▸ Except.ok.inj h
    exact Span.ordered_point _
  · split at h
    · cases h
    · split at h
      · rename_i hmatch
        obtain rfl := Except.ok.inj h
        exact ordered_firstMatch? hmatch
      · cases h

/-! ## 3. Runs -/

namespace Parser

variable {V σ : Type} {lexer : Lexer} {delegate : Delegate} {p : Parser} {base : String}
  {build build' : Builder V σ}

/-- The places of a run are ordered. -/
structure Run.Ordered (run : Run V) : Prop where
  stack : ∀ frame ∈ run.stack, frame.span.Ordered
  lookahead : ∀ token ∈ run.lookahead, token.span.Ordered

/-- The builders agree on the reductions at ordered places. -/
def AgreeOrdered (build build' : Builder V σ) : Prop :=
  ∀ r state, r.span.Ordered → build r state = build' r state

/-- The place of a right-hand side is ordered. -/
theorem ordered_spanOf {frames : List (Frame V)} (h : ∀ frame ∈ frames, frame.span.Ordered)
    (previous : Span) (lookahead : Option Token) : (spanOf frames previous lookahead).Ordered := by
  have hcover := @Span.ordered_cover (frames.map (·.span)) (by simpa using h)
  unfold spanOf
  split
  · rename_i span hspan
    exact hcover span hspan
  · exact Span.ordered_between ..
  · exact Span.ordered_point _

/-- What is taken off the stack was on it, and so was what is left. -/
theorem mem_of_popFrames {count : Nat} {stack frames below : List (Frame V)}
    (h : popFrames count stack = .ok (frames, below)) :
    (∀ frame ∈ frames, frame ∈ stack) ∧ ∀ frame ∈ below, frame ∈ stack := by
  unfold popFrames at h
  split at h
  · cases h
  · obtain ⟨rfl, rfl⟩ := Prod.mk.injEq .. ▸ Except.ok.inj h
    exact ⟨fun _ hf => List.mem_of_mem_take (List.mem_reverse.mp hf), fun _ => List.mem_of_mem_drop⟩

/-- If a step goes on, the places of the run are ordered. -/
def Progress.Ordered : Progress V σ → Prop
  | .running run _ => run.Ordered
  | .stopped _ _ _ => True

section Steps

variable (hagree : AgreeOrdered build build') {run : Run V} (h : run.Ordered) (state : σ)
include hagree h

/-- A reduction is the same for both builders. -/
theorem reduce_congr (id : RuleId) :
    reduce p base build run state id = reduce p base build' run state id ∧
      (reduce p base build run state id).Ordered := by
  unfold reduce
  cases hpop : popFrames (p.table.grammar.rule id).rhs.length run.stack with
  | error e => exact ⟨rfl, trivial⟩
  | ok popped =>
    obtain ⟨frames, below⟩ := popped
    obtain ⟨hframes, hbelow⟩ := mem_of_popFrames hpop
    have hspan := ordered_spanOf (fun f hf => h.stack f (hframes f hf)) run.previous run.lookahead
    have hbuild := fun mode =>
      hagree (p.reduction id (spanOf frames run.previous run.lookahead) frames mode) state hspan
    dsimp only
    cases p.table.goto? (topState below) (p.table.grammar.rule id).lhs with
    | none => exact ⟨rfl, trivial⟩
    | some target =>
      dsimp only
      rw [← hbuild]
      split
      · exact ⟨rfl, trivial⟩
      · refine ⟨rfl, fun frame hframe => ?_, h.lookahead⟩
        rcases List.mem_cons.mp hframe with rfl | hframe
        · exact hspan
        · exact h.stack _ (hbelow _ hframe)

/-- Both builders accept the same. -/
theorem accept_congr (id : RuleId) :
    accept p base build run state id = accept p base build' run state id ∧
      (accept p base build run state id).Ordered := by
  unfold accept
  cases hpop : popFrames (p.table.grammar.rule id).rhs.length run.stack with
  | error e => exact ⟨rfl, trivial⟩
  | ok popped =>
    obtain ⟨frames, below⟩ := popped
    have hspan := ordered_spanOf (fun f hf => h.stack f ((mem_of_popFrames hpop).1 f hf))
      run.previous run.lookahead
    have hbuild := fun mode =>
      hagree (p.reduction id (spanOf frames run.previous run.lookahead) frames mode) state hspan
    dsimp only
    split
    · exact ⟨rfl, trivial⟩
    · rw [← hbuild]
      refine ⟨rfl, ?_⟩
      split
      · trivial
      · split
        · trivial
        · split <;> trivial

/-- An action is the same for both builders. -/
theorem perform_congr (action : Action) :
    perform p base build run state action = perform p base build' run state action ∧
      (perform p base build run state action).Ordered := by
  cases action with
  | shift target =>
    refine ⟨rfl, ?_⟩
    unfold perform
    cases hlook : run.lookahead with
    | none => trivial
    | some token =>
      have htoken := h.lookahead token hlook
      refine ⟨fun frame hframe => ?_, fun _ hnone => nomatch hnone⟩
      rcases List.mem_cons.mp hframe with rfl | hframe
      · exact htoken
      · exact h.stack _ hframe
  | reduce id => exact reduce_congr hagree h state id
  | accept id => exact accept_congr hagree h state id

/-- The tables are asked by both builders alike. -/
theorem consult_congr {token : Token} (htoken : token.span.Ordered) :
    consult p base build run state token = consult p base build' run state token ∧
      (consult p base build run state token).Ordered := by
  have hlook : ({ run with lookahead := some token } : Run V).Ordered := by
    refine ⟨h.stack, ?_⟩
    rintro _ ⟨⟩
    exact htoken
  unfold consult
  dsimp only
  split
  · exact perform_congr hagree hlook state _
  · exact ⟨rfl, trivial⟩

/-- A step is the same for both builders, and the places stay ordered. -/
theorem step_congr : step delegate lexer p base build run state =
      step delegate lexer p base build' run state ∧
    (step delegate lexer p base build run state).Ordered := by
  unfold step
  cases hlook : run.lookahead with
  | some token => exact consult_congr hagree h state (h.lookahead token hlook)
  | none =>
    have hrest : ∀ stream : Stream, (⟨run.stack, none, run.previous, stream⟩ : Run V).Ordered :=
      fun _ => ⟨h.stack, fun _ hnone => nomatch hnone⟩
    cases p.table.lookaheadFree? (topState run.stack) with
    | some action => exact perform_congr hagree h state action
    | none =>
      dsimp only
      cases hnext : lexer.next (p.modeOver base run.stack) run.stream with
      | error e => exact ⟨rfl, trivial⟩
      | ok result =>
        obtain ⟨token, stream⟩ := result
        dsimp only
        split
        · exact consult_congr hagree (hrest stream) state (Lexer.ordered_next hnext)
        · refine ⟨rfl, ?_⟩
          split
          · split
            · exact hrest _
            · split
              · trivial
              · split
                · exact hrest _
                · trivial
          · exact hrest _

end Steps

/-- **What a builder does with places that end before they begin does not matter**, however the tables
and the lexer came about. -/
theorem parse_congr (hagree : AgreeOrdered build build') (fuel : Nat) (stream : Stream) (state : σ) :
    p.parse lexer fuel base build stream state = p.parse lexer fuel base build' stream state := by
  have hdrive : ∀ (fuel : Nat) {run : Run V}, run.Ordered → ∀ state : σ,
      drive lexer fuel p base build run state = drive lexer fuel p base build' run state := by
    intro fuel
    induction fuel with
    | zero => exact fun _ _ => rfl
    | succ fuel ih =>
      intro run h state
      obtain ⟨heq, hordered⟩ := @step_congr V σ lexer (delegateWith lexer fuel) p base build build' hagree run h state
      rw [drive_succ, drive_succ, ← heq]
      cases hstep : step (delegateWith lexer fuel) lexer p base build run state with
      | stopped result stream state => rfl
      | running run' state' =>
        rw [hstep] at hordered
        exact ih hordered state'
  exact hdrive fuel ⟨by simp [start], by simp [start]⟩ state

end Parser

end Lode
