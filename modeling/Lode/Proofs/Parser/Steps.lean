/-
# What a step of a parser can do

The states on the stack of a parser are a path through the automaton, and the symbols along the path are
those of the tokens and values on the stack (`Linked`).  If a rule is complete in the topmost state then its
right-hand side lies on top of the stack, slot by slot, and the state below it expects the left-hand side
(`Linked.pop`).

With it `step_outcome` lists once and for all what a step can lead to: it drops tokens, shifts, reduces,
accepts, or fails.  The failures are those of the lexer, of the builder, of another parser, or a token that
was not expected: the parser itself never runs into a state it cannot handle.

A step is taken apart as the program does it.  A rule that is complete is reduced (`reduce_outcome`) or
accepted (`accept_outcome`); the action of the tables is one of these or a shift (`perform_outcome`); and
the tables are asked about a token (`consult_outcome`) once it has been looked at.  The list of outcomes
says everything that later arguments use, so they go by its cases and never open the step again: soundness,
the bound on the number of steps, the places on the stack and the shape of what is built are each an
invariant over this one list.
-/
import Lode.Proofs.Grammar.Table
import Lode.Proofs.Parser.Transcript

namespace Lode

variable {V σ : Type}

/-! ## 1. Tokens and streams -/

/-- A stream remembers where the token began that it handed out. -/
theorem Stream.last_produce? {s s' : Stream} {kind : Terminal} {length : Nat} {channel : Channel}
    {token : Token} (h : s.produce? kind length channel = some (token, s')) :
    s'.last = some (token.span, s.cursor) := by
  unfold Stream.produce? at h
  cases hunread : s.cursor.unread with
  | nil => simp [hunread] at h
  | cons line lines =>
    simp only [hunread, Option.map_eq_some_iff] at h
    obtain ⟨⟨front, back⟩, _, heq⟩ := h
    obtain ⟨rfl, rfl⟩ := Prod.mk.injEq .. ▸ heq
    rfl

/-- The first token that is found can be given back. -/
theorem Lexer.last_firstMatch? {s s' : Stream} {token : Token} : ∀ {rules : List LexRule},
    firstMatch? s rules = some (token, s') → s'.last = some (token.span, s.cursor)
  | [], h => by simp [firstMatch?] at h
  | rule :: rules, h => by
    simp only [firstMatch?] at h
    split at h
    · exact Stream.last_produce? h
    · exact last_firstMatch? h

/-- A token that was just read can be given back. -/
theorem Lexer.last_next {lexer : Lexer} {mode : String} {s s' : Stream} {token : Token}
    (h : lexer.next mode s = .ok (token, s')) : s'.last = some (token.span, s.cursor) := by
  unfold Lexer.next at h
  split at h
  · obtain ⟨rfl, rfl⟩ := Prod.mk.injEq .. ▸ Except.ok.inj h
    rfl
  · split at h
    · simp at h
    · split at h
      · obtain rfl := Except.ok.inj h
        exact last_firstMatch? (by assumption)
      · simp at h

theorem Stream.rewind?_eq {s : Stream} {token : Token} {cursor : Cursor}
    (h : s.last = some (token.span, cursor)) :
    s.rewind? token = some { s with cursor := cursor, last := none } := by
  simp [Stream.rewind?, h]

namespace Parser

/-! ## 2. The stack -/

/-- The stack, top first, is a path through the automaton over the symbols of a row, last first. -/
inductive Linked (a : Automaton) : List (Frame V) → List (Grown V) → Prop
  | nil : Linked a [] []
  | cons {frame : Frame V} {stack : List (Frame V)} {c : Grown V} {row : List (Grown V)} :
      a.goto? (topState stack) c.symbol = some frame.state → frame.child = c.child →
      Linked a stack row → Linked a (frame :: stack) (c :: row)

namespace Linked

variable {a : Automaton} {g : Grammar} {stack : List (Frame V)} {row : List (Grown V)}

theorem length_eq (h : Linked a stack row) : stack.length = row.length := by
  induction h with
  | nil => rfl
  | cons _ _ _ ih => rw [List.length_cons, List.length_cons, ih]

theorem children (h : Linked a stack row) : stack.map Frame.child = row.map Grown.child := by
  induction h with
  | nil => rfl
  | cons _ hchild _ ih => rw [List.map_cons, List.map_cons, hchild, ih]

/-- What is below on the stack is linked too. -/
theorem drop (h : Linked a stack row) : ∀ k, Linked a (stack.drop k) (row.drop k) := by
  induction h with
  | nil => intro k; simpa using Linked.nil
  | cons hgoto hchild hstack ih =>
    intro k
    cases k with
    | zero => exact .cons hgoto hchild hstack
    | succ k => exact ih k

/-- **The right-hand side of an item lies on the stack.**  What has been read of the rule are the
topmost entries, each a symbol of its slot, and the state below them holds the rule untouched. -/
theorem pop (ha : a.Tracks g) {id : RuleId} : ∀ {k : Nat} {stack : List (Frame V)}
    {row : List (Grown V)}, Linked a stack row → ⟨id, k⟩ ∈ a.items (topState stack) →
    k ≤ stack.length ∧ ⟨id, 0⟩ ∈ a.items (topState (stack.drop k)) ∧
      List.Forall₂ (fun slot X => X ∈ slot.symbols) ((g.rule id).rhs.take k)
        ((row.take k).reverse.map Grown.symbol)
  | 0, stack, row, _, hitem => ⟨Nat.zero_le _, hitem, by simp⟩
  | k + 1, _, _, .nil, hitem => absurd (ha.point_eq_zero hitem) (Nat.succ_ne_zero k)
  | k + 1, frame :: stack, c :: row, .cons hgoto _ hstack, hitem => by
    obtain ⟨hitem', slot, hslot, hsymbol⟩ := ha.retreat_mem hgoto hitem
    obtain ⟨hle, hbelow, hslots⟩ := pop ha hstack hitem'
    refine ⟨Nat.succ_le_succ hle, hbelow, ?_⟩
    have htake : (g.rule id).rhs.take (k + 1) = (g.rule id).rhs.take k ++ [slot] := by
      rw [List.take_add_one]
      exact congrArg (_ ++ Option.toList ·) hslot
    rw [htake, List.take_succ_cons, List.reverse_cons, List.map_append]
    exact List.rel_append hslots (.cons hsymbol .nil)

end Linked

/-! ## 3. Failures -/

variable (g : Grammar) (a : Automaton) (lexer : Lexer) (delegate : Delegate) (p : Parser)
  (base : String) (build : Builder V σ) (good : Grown V → Prop)

/-- Where the failure of a step can come from. -/
inductive StepFailure (run : Run V) : Error → Prop
  /-- The lexer gave no token. -/
  | lexing {e : Error} : lexer.next (p.modeOver base run.stack) run.stream = .error e → StepFailure run e
  /-- The builder refused a reduction of a rule over good parts. -/
  | building {r : Reduction V} {parts : List (Grown V)} {state state' : σ} {e : Error} :
      Reduces g r parts → (∀ c ∈ parts, good c) → build r state = (.error e, state') → StepFailure run e
  /-- The tables have no action for a token. -/
  | unexpected (token : Token) : StepFailure run (p.unexpected run.stack token)
  /-- The parser of another channel failed. -/
  | inner {name : String} {other : Parser} {stream after : Stream} {e : Error} :
      p.inner? name = some other → delegate other (p.modeOver base run.stack) stream = (.error e, after) →
      stream.cursor = run.stream.cursor → StepFailure run e

/-! ## 4. Outcomes -/

/-- Where the text goes on behind the token that was shifted last. -/
def Run.rest (run : Run V) : Cursor :=
  match run.lookahead with
  | none => run.stream.cursor
  | some _ => (run.stream.last.map (·.2)).getD run.stream.cursor

/-- The lookahead that an action sees, the stream behind it, and the tokens read for it. -/
inductive Sees (run : Run V) : Option Token → Stream → List Token → Prop
  | held {token : Token} : run.lookahead = some token → Sees run (some token) run.stream []
  | free {action : Action} : run.lookahead = none →
      p.table.lookaheadFree? (topState run.stack) = some action → Sees run none run.stream []
  | read {token : Token} {stream : Stream} : run.lookahead = none →
      p.table.lookaheadFree? (topState run.stack) = none →
      lexer.next (p.modeOver base run.stack) run.stream = .ok (token, stream) →
      (token.channel == .all || token.channel == p.channel) = true →
      Sees run (some token) stream [token]

/-- Tokens of other channels are passed over, alone or with what another parser makes of them. -/
inductive Skips (run : Run V) : Stream → Prop
  | drop {token : Token} {stream : Stream} :
      lexer.next (p.modeOver base run.stack) run.stream = .ok (token, stream) →
      (token.channel == .all || token.channel == p.channel) = false →
      (∀ name, token.channel = .hidden name → p.inner? name = none) → Skips run stream
  | inner {token : Token} {stream before after : Stream} {name : String} {other : Parser} :
      lexer.next (p.modeOver base run.stack) run.stream = .ok (token, stream) →
      (token.channel == .all || token.channel == p.channel) = false →
      token.channel = .hidden name → p.inner? name = some other →
      stream.rewind? token = some before →
      delegate other (p.modeOver base run.stack) before = (.ok (), after) → Skips run after

/-- What a step leads to from a run whose stack holds a row of symbols, last first. -/
inductive Outcome (run : Run V) (state : σ) (row : List (Grown V)) : Progress V σ → Prop
  | skip {stream : Stream} : run.lookahead = none →
      p.table.lookaheadFree? (topState run.stack) = none →
      Skips lexer delegate p base run stream →
      Outcome run state row (.running ⟨run.stack, none, run.previous, stream⟩ state)
  | shift {token : Token} {stream : Stream} {new : List Token} {target : StateId} :
      Sees lexer p base run (some token) stream new →
      a.goto? (topState run.stack) (.terminal token.kind) = some target →
      Outcome run state row
        (.running ⟨⟨target, .token token, token.span⟩ :: run.stack, none, token.span, stream⟩ state)
  | reduce {look : Option Token} {stream : Stream} {new : List Token} {r : Reduction V}
      {parts below : List (Grown V)} {v : V} {state' : σ} {target : StateId} :
      Sees lexer p base run look stream new → row = parts.reverse ++ below → Reduces g r parts →
      r.span = spanOf (run.stack.take parts.length).reverse run.previous look →
      r.rule ≠ g.startRule → build r state = (.ok v, state') →
      a.goto? (topState (run.stack.drop parts.length)) (.nonterminal r.lhs) = some target →
      Outcome run state row (.running
        ⟨⟨target, .value v, r.span⟩ :: run.stack.drop parts.length, look, run.previous, stream⟩ state')
  | accept {look : Option Token} {stream stream' : Stream} {new : List Token} {r : Reduction V}
      {parts : List (Grown V)} {v : V} {state' : σ} :
      Sees lexer p base run look stream new → row = parts.reverse → Reduces g r parts →
      r.span = spanOf (run.stack.take parts.length).reverse run.previous look →
      r.rule = g.startRule → build r state = (.ok v, state') →
      (.empty ∈ g.ends ∨ ∃ token, look = some token ∧ token.kind ∈ g.ends) →
      stream'.cursor = (⟨run.stack, look, run.previous, stream⟩ : Run V).rest →
      Outcome run state row (.stopped (.ok v) stream' state')
  | fail {e : Error} {stream : Stream} {state' : σ} :
      StepFailure g lexer delegate p base build good run e →
      Outcome run state row (.stopped (.error e) stream state')

/-- What holds between steps: the stack is linked to a row of good symbols, and the lookahead is the
token that the stream handed out last. -/
structure Stands (run : Run V) (row : List (Grown V)) : Prop where
  linked : Linked a run.stack row
  all_good : ∀ c ∈ row, good c
  lookahead : ∀ token, run.lookahead = some token →
    good (.token token) ∧ ∃ cursor, run.stream.last = some (token.span, cursor)

variable {g a lexer delegate p base build good}

/-! ## 5. One action -/

theorem popFrames_eq {k : Nat} {stack : List (Frame V)} (h : k ≤ stack.length) :
    popFrames k stack = .ok ((stack.take k).reverse, stack.drop k) := by
  unfold popFrames
  rw [if_neg (Nat.not_lt.mpr h)]

/-- A state that acts without looking at a token does so for the empty terminal. -/
theorem action?_of_lookaheadFree? {table : ParseTable} {s : StateId} {action : Action}
    (h : table.lookaheadFree? s = some action) : table.action? s .empty = some action := by
  unfold ParseTable.lookaheadFree? at h
  split at h
  · rename_i row hrow
    obtain rfl := Option.some.inj h
    simp [ParseTable.action?, hrow, Sorted.find?_cons_self]
  · simp at h

section Actions

variable {paths : List PathRule} (m : ParseTable.Made g p.table a paths)
include m

/-- A rule that is complete in the topmost state can be reduced. -/
theorem reduces_of_complete {stack : List (Frame V)} {row : List (Grown V)}
    (hlinked : Linked a stack row) {id : RuleId}
    (hitem : ⟨id, (g.rule id).rhs.length⟩ ∈ a.items (topState stack)) :
    ∃ parts below, row = parts.reverse ++ below ∧ parts.length = (g.rule id).rhs.length ∧
      parts.length ≤ stack.length ∧ ⟨id, 0⟩ ∈ a.items (topState (stack.drop parts.length)) ∧
      ∀ span mode, Reduces g (p.reduction id span (stack.take parts.length).reverse mode) parts := by
  obtain ⟨hle, hbelow, hslots⟩ := hlinked.pop m.tracks hitem
  have hlen : ((row.take (g.rule id).rhs.length).reverse).length = (g.rule id).rhs.length := by
    rw [List.length_reverse, List.length_take, ← hlinked.length_eq, Nat.min_eq_left hle]
  refine ⟨(row.take (g.rule id).rhs.length).reverse, row.drop (g.rule id).rhs.length, ?_, hlen,
    ?_, ?_, fun span mode => ⟨(m.tracks.valid hitem).1, ?_, ?_, ?_, ?_⟩⟩
  · rw [List.reverse_reverse, List.take_append_drop]
  · rw [hlen]
    exact hle
  · rw [hlen]
    exact hbelow
  · rw [reduction, m.grammar]
  · rw [reduction, m.grammar]
  · rw [List.take_length] at hslots
    exact hslots
  · rw [reduction, hlen, List.map_reverse, List.map_reverse, List.map_take, List.map_take,
      hlinked.children]

/-- A state that holds a rule untouched has somewhere to go after its left-hand side. -/
theorem goto_of_rule {s : StateId} {id : RuleId} (hid : id ≠ g.startRule) (hitem : ⟨id, 0⟩ ∈ a.items s) :
    ∃ target, p.table.goto? s (g.rule id).lhs = some target ∧
      a.goto? s (.nonterminal (g.rule id).lhs) = some target := by
  obtain heq | ⟨i, hi, hbefore⟩ := m.tracks.predicted hitem
  · exact absurd heq hid
  · obtain ⟨target, htarget⟩ := m.tracks.move hi hbefore
    exact ⟨target, by rw [m.goto?_eq, htarget], htarget⟩

/-- **A reduction** of a rule that is complete. -/
theorem reduce_outcome {run : Run V} {row : List (Grown V)} (h : Stands a good run row)
    {look : Option Token} {stream : Stream} {new : List Token}
    (hsees : Sees lexer p base run look stream new) {id : RuleId} (hid : id ≠ g.startRule)
    (hitem : ⟨id, (g.rule id).rhs.length⟩ ∈ a.items (topState run.stack)) (state : σ) :
    Outcome g a lexer delegate p base build good run state row
      (reduce p base build { run with lookahead := look, stream := stream } state id) := by
  obtain ⟨parts, below, hrow, hlen, hle, hbelow, hreduces⟩ := reduces_of_complete m h.linked hitem
  obtain ⟨target, htable, hgoto⟩ := goto_of_rule m hid hbelow
  simp only [reduce, m.grammar, ← hlen, popFrames_eq hle, htable]
  set r := p.reduction id (spanOf (run.stack.take parts.length).reverse run.previous look)
    (run.stack.take parts.length).reverse
    ((p.table.mode? target).getD (modeOver p base (run.stack.drop parts.length))) with hr
  have hred : Reduces g r parts := hreduces _ _
  have hgood : ∀ c ∈ parts, good c := fun c hc =>
    h.all_good c (by rw [hrow]; exact List.mem_append_left _ (List.mem_reverse.mpr hc))
  cases hbuild : build r state with
  | mk result state' =>
    cases result with
    | error e => exact .fail (.building hred hgood hbuild)
    | ok v =>
      refine .reduce hsees hrow hred rfl hid hbuild ?_
      rw [hred.lhs]
      exact hgoto

variable (hstart : .nonterminal g.start ∉ Grammar.rhsSymbols g.rules)
include hstart

/-- **Accepting**, if the start rule is complete and the token may end the text. -/
theorem accept_outcome {run : Run V} {row : List (Grown V)} (h : Stands a good run row)
    {look : Option Token} {stream : Stream} {new : List Token}
    (hsees : Sees lexer p base run look stream new)
    (hlast : ∀ token, look = some token → ∃ cursor, stream.last = some (token.span, cursor))
    (hends : .empty ∈ g.ends ∨ ∃ token, look = some token ∧ token.kind ∈ g.ends)
    (hitem : ⟨g.startRule, (g.rule g.startRule).rhs.length⟩ ∈ a.items (topState run.stack))
    (state : σ) : Outcome g a lexer delegate p base build good run state row
      (accept p base build { run with lookahead := look, stream := stream } state g.startRule) := by
  obtain ⟨parts, below, hrow, hlen, hle, hbelow, hreduces⟩ := reduces_of_complete m h.linked hitem
  -- only the bottom of the stack holds the start rule, so nothing is left below
  have hnil : run.stack.drop parts.length = [] := by
    have hlinked := h.linked.drop parts.length
    cases hdrop : run.stack.drop parts.length with
    | nil => rfl
    | cons frame stack =>
      rw [hdrop] at hlinked hbelow
      generalize row.drop parts.length = rest at hlinked
      cases hlinked with
      | cons hgoto _ _ =>
        refine absurd hbelow (m.tracks.startRule_not_mem hgoto fun i hbefore => hstart ?_)
        rw [← m.proper.lhs_startRule]
        exact hbefore.mem_rhsSymbols
  have hparts : row = parts.reverse := by
    have hlt := List.drop_eq_nil_iff.mp hnil
    have hlength := h.linked.length_eq
    rw [hrow, List.length_append, List.length_reverse] at hlength
    rw [hrow, List.length_eq_zero_iff.mp (by omega : below.length = 0), List.append_nil]
  simp only [accept, m.grammar, ← hlen, popFrames_eq hle, hnil, List.isEmpty_nil, Bool.not_true,
    Bool.false_eq_true, if_false]
  set r := p.reduction g.startRule (spanOf (run.stack.take parts.length).reverse run.previous look)
    (run.stack.take parts.length).reverse (modeOver p base []) with hr
  have hred : Reduces g r parts := hreduces _ _
  cases hbuild : build r state with
  | mk result state' =>
    cases result with
    | error e =>
      refine .fail (.building hred (fun c hc => h.all_good c ?_) hbuild)
      rw [hparts]
      exact List.mem_reverse.mpr hc
    | ok v =>
      simp only
      cases look with
      | none => exact .accept hsees hparts hred rfl rfl hbuild hends rfl
      | some token =>
        obtain ⟨cursor, hcursor⟩ := hlast token rfl
        simp only [Stream.rewind?_eq hcursor]
        exact .accept hsees hparts hred rfl rfl hbuild hends (by simp [Run.rest, hcursor])

variable (hempty : .terminal .empty ∉ Grammar.rhsSymbols g.rules)
include hempty

/-- **An action** of the tables. -/
theorem perform_outcome {run : Run V} {row : List (Grown V)} (h : Stands a good run row)
    {look : Option Token} {stream : Stream} {new : List Token}
    (hsees : Sees lexer p base run look stream new)
    (hlast : ∀ token, look = some token → ∃ cursor, stream.last = some (token.span, cursor))
    {t : Terminal} {action : Action} (haction : p.table.action? (topState run.stack) t = some action)
    (ht : t = .empty ∨ ∃ token, look = some token ∧ token.kind = t) (state : σ) :
    Outcome g a lexer delegate p base build good run state row
      (perform p base build { run with lookahead := look, stream := stream } state action) := by
  have hjust := m.action?_justified hstart haction
  cases action with
  | shift target =>
    rcases ht with rfl | ⟨token, rfl, rfl⟩
    · obtain ⟨i, _, hbefore⟩ := m.tracks.before hjust
      exact absurd hbefore.mem_rhsSymbols hempty
    · exact .shift hsees hjust
  | reduce id => exact reduce_outcome m h hsees hjust.1 hjust.2 state
  | accept id =>
    obtain ⟨rfl, hend, hitem⟩ := hjust
    refine accept_outcome m hstart h hsees hlast ?_ hitem state
    rcases ht with rfl | ⟨token, hlook, rfl⟩
    · exact .inl hend
    · exact .inr ⟨token, hlook, hend⟩

/-- **Asking the tables** about a token. -/
theorem consult_outcome {run : Run V} {row : List (Grown V)} (h : Stands a good run row)
    {token : Token} {stream : Stream} {new : List Token}
    (hsees : Sees lexer p base run (some token) stream new)
    (hlast : ∃ cursor, stream.last = some (token.span, cursor)) (state : σ) :
    Outcome g a lexer delegate p base build good run state row
      (consult p base build { run with stream := stream } state token) := by
  simp only [consult]
  have hlast' : ∀ t, some token = some t → ∃ cursor, stream.last = some (t.span, cursor) := by
    rintro t ⟨⟩
    exact hlast
  cases haction : p.table.action? (topState run.stack) token.kind with
  | some action =>
    exact perform_outcome m hstart hempty h hsees hlast' haction (.inr ⟨token, rfl, rfl⟩) state
  | none =>
    cases hfree : p.table.action? (topState run.stack) .empty with
    | some action => exact perform_outcome m hstart hempty h hsees hlast' hfree (.inl rfl) state
    | none => exact .fail (.unexpected token)

/-! ## 6. One step -/

/-- **What a step can do.** -/
theorem step_outcome {run : Run V} {row : List (Grown V)} (h : Stands a good run row) (state : σ) :
    Outcome g a lexer delegate p base build good run state row
      (step delegate lexer p base build run state) := by
  unfold step
  cases hlook : run.lookahead with
  | some token =>
    exact consult_outcome m hstart hempty h (.held hlook) (h.lookahead token hlook).2 state
  | none =>
    cases hfree : p.table.lookaheadFree? (topState run.stack) with
    | some action =>
      -- a state that needs no lookahead acts at once
      have hout : Outcome g a lexer delegate p base build good run state row (perform p base build
          { run with lookahead := none, stream := run.stream } state action) :=
        perform_outcome m hstart hempty h (.free hlook hfree) (by simp)
          (action?_of_lookaheadFree? hfree) (.inl rfl) state
      rwa [← hlook] at hout
    | none =>
      simp only
      cases hnext : lexer.next (p.modeOver base run.stack) run.stream with
      | error e => exact .fail (.lexing hnext)
      | ok result =>
        obtain ⟨token, stream⟩ := result
        simp only
        -- the token is for the tables, for another parser, or for nobody
        cases hchannel : token.channel == .all || token.channel == p.channel with
        | true =>
          exact consult_outcome m hstart hempty h (.read hlook hfree hnext hchannel)
            ⟨_, Lexer.last_next hnext⟩ state
        | false =>
          simp only [Bool.false_eq_true, if_false]
          cases hname : token.channel with
          | default => exact .skip hlook hfree (.drop hnext hchannel (by simp [hname]))
          | all => exact .skip hlook hfree (.drop hnext hchannel (by simp [hname]))
          | hidden name =>
            simp only
            cases hother : p.inner? name with
            | none =>
              refine .skip hlook hfree (.drop hnext hchannel fun other h => ?_)
              rw [hname] at h
              obtain rfl := Channel.hidden.inj h
              exact hother
            | some other =>
              simp only [Stream.rewind?_eq (Lexer.last_next hnext)]
              cases hrun : delegate other (p.modeOver base run.stack)
                  { stream with cursor := run.stream.cursor, last := none } with
              | mk result after =>
                cases result with
                | error e => exact .fail (.inner hother hrun rfl)
                | ok u =>
                  exact .skip hlook hfree (.inner hnext hchannel hname hother
                    (Stream.rewind?_eq (Lexer.last_next hnext)) hrun)

end Actions

end Parser

end Lode
