/-
# Parsers without precedences accept exactly what their grammar derives

The tables of a grammar without precedences retrace any derivation, and a parser performs the turns of its
tables on its stack and its input (`Moves.of_turns`).  So it accepts what the grammar derives; together with
soundness this gives `parse_iff_derives`.

The input is what the lexer delivers, in whatever modes the parser reads it (`Delivers`).  A parser reads a
token in the mode of its stack, so the kinds of the tokens of a text are given only if they do not depend on
the modes that can come up; tokens of channels that nobody reads may lie between them.

A turn is about states and kinds alone.  To perform it, a parser has to have the next kind in hand, which
may take any number of steps over tokens of other channels (`Delivers.consult`), and then does what the
tables say (`Awaits.perform`).  The number of steps is not counted: `Moves` says that there are some, so
acceptance is with some budget, and a larger one does not change the result (`drive_mono`).

The converse needs more than soundness, which speaks of the tokens that were read: an accepting run has read
all that was delivered (`tokens_of_delivers`), because the grammar ends at the end of the input only.
-/
import Lode.Proofs.Parser.Turns

namespace Lode.Parser

variable {V σ : Type}

/-! ## 1. Input -/

/-- The modes in which a parser may read a token. -/
def ReadsIn (p : Parser) (base mode : String) : Prop :=
  mode = base ∨ ∃ s, p.table.mode? s = some mode

/-- The mode of a stack is one in which the parser may read. -/
theorem readsIn_modeOver (p : Parser) (base : String) (stack : List (Frame V)) :
    p.ReadsIn base (p.modeOver base stack) := by
  unfold modeOver
  cases h : (stack.map Frame.state ++ [0]).findSome? p.table.mode? with
  | none => exact .inl rfl
  | some mode =>
    obtain ⟨s, _, hs⟩ := List.exists_of_findSome?_eq_some h
    exact .inr ⟨s, hs⟩

/-- Whether a token is on the channel of the parser. -/
def takes (p : Parser) (token : Token) : Bool :=
  token.channel == .all || token.channel == p.channel

/-- From the stream the parser gets tokens of the given kinds, and then the end of the input.  What
the tokens are beyond that, and which tokens of other channels lie between them, may depend on the
modes in which they are read. -/
inductive Delivers (lexer : Lexer) (p : Parser) (base : String) : Stream → List Terminal → Prop
  | stop {stream : Stream} (token : String → Token) (next : String → Stream) :
      (∀ mode, p.ReadsIn base mode → lexer.next mode stream = .ok (token mode, next mode) ∧
        p.takes (token mode) = true ∧ (token mode).kind = .eof) →
      Delivers lexer p base stream []
  | token {stream : Stream} {t : Terminal} {word : List Terminal} (token : String → Token)
      (next : String → Stream) :
      (∀ mode, p.ReadsIn base mode → lexer.next mode stream = .ok (token mode, next mode) ∧
        p.takes (token mode) = true ∧ (token mode).kind = t) →
      (∀ mode, p.ReadsIn base mode → Delivers lexer p base (next mode) word) →
      Delivers lexer p base stream (t :: word)
  | skip {stream : Stream} {word : List Terminal} (token : String → Token) (next : String → Stream) :
      (∀ mode, p.ReadsIn base mode → lexer.next mode stream = .ok (token mode, next mode) ∧
        p.takes (token mode) = false) →
      (∀ mode, p.ReadsIn base mode → Delivers lexer p base (next mode) word) →
      Delivers lexer p base stream word

/-- What is delivered on a channel when everything is read in one mode, if it ends within the given
number of tokens. -/
def kindsIn (lexer : Lexer) (channel : Channel) (mode : String) : Nat → Stream → Option (List Terminal)
  | 0, _ => none
  | n + 1, stream =>
    match lexer.next mode stream with
    | .error _ => none
    | .ok (token, next) =>
      if token.channel == .all || token.channel == channel then
        if token.kind = .eof then some []
        else (kindsIn lexer channel mode n next).map (token.kind :: ·)
      else kindsIn lexer channel mode n next

/-- A parser that reads in one mode gets what is delivered in that mode. -/
theorem delivers_of_kindsIn {lexer : Lexer} {p : Parser} {base : String}
    (hmodes : ∀ mode, p.ReadsIn base mode → mode = base) : ∀ {n : Nat} {stream : Stream}
    {word : List Terminal}, kindsIn lexer p.channel base n stream = some word →
    Delivers lexer p base stream word
  | n + 1, stream, word, h => by
    simp only [kindsIn] at h
    split at h
    · simp at h
    · rename_i token next hnext
      split at h
      · rename_i htakes
        split at h
        · rename_i hkind
          obtain rfl := Option.some.inj h
          exact .stop (fun _ => token) (fun _ => next) fun mode hmode => by
            rw [hmodes mode hmode]
            exact ⟨hnext, htakes, hkind⟩
        · obtain ⟨word, hword, rfl⟩ := Option.map_eq_some_iff.mp h
          refine .token (fun _ => token) (fun _ => next) (fun mode hmode => ?_) fun _ _ =>
            delivers_of_kindsIn hmodes hword
          rw [hmodes mode hmode]
          exact ⟨hnext, htakes, rfl⟩
      · rename_i htakes
        refine .skip (fun _ => token) (fun _ => next) (fun mode hmode => ?_) fun _ _ =>
          delivers_of_kindsIn hmodes h
        rw [hmodes mode hmode]
        exact ⟨hnext, Bool.eq_false_iff.mpr htakes⟩

/-- The kinds that a run has before it, the lookahead in hand among them. -/
inductive Awaits (lexer : Lexer) (p : Parser) (base : String) (run : Run V) : List Terminal → Prop
  | unread {word : List Terminal} : run.lookahead = none → Delivers lexer p base run.stream word →
      Awaits lexer p base run word
  | held {token : Token} {word : List Terminal} {cursor : Cursor} : run.lookahead = some token →
      run.stream.last = some (token.span, cursor) → Delivers lexer p base run.stream word →
      Awaits lexer p base run (token.kind :: word)
  | ended {token : Token} {cursor : Cursor} : run.lookahead = some token → token.kind = .eof →
      run.stream.last = some (token.span, cursor) → Awaits lexer p base run []

/-! ## 2. Steps with an input -/

variable {g : Grammar} {a : Automaton} {lexer : Lexer} {delegate : Delegate} {p : Parser}
  {base : String} {build : Builder V σ}

theorem step_takes {run : Run V} {state : σ} {token : Token} {stream : Stream}
    (hlook : run.lookahead = none) (hfree : p.table.lookaheadFree? (topState run.stack) = none)
    (hnext : lexer.next (p.modeOver base run.stack) run.stream = .ok (token, stream))
    (htakes : p.takes token = true) :
    step delegate lexer p base build run state =
      consult p base build { run with stream := stream } state token := by
  unfold takes at htakes
  simp only [step, hlook, hfree, hnext, htakes, if_true]

theorem step_drops {run : Run V} {state : σ} {token : Token} {stream : Stream}
    (hinner : ∀ name, p.inner? name = none) (hlook : run.lookahead = none)
    (hfree : p.table.lookaheadFree? (topState run.stack) = none)
    (hnext : lexer.next (p.modeOver base run.stack) run.stream = .ok (token, stream))
    (htakes : p.takes token = false) :
    step delegate lexer p base build run state = .running { run with stream := stream } state := by
  unfold takes at htakes
  simp only [step, hlook, hfree, hnext, htakes, hinner, Bool.false_eq_true, if_false]
  cases token.channel <;> rfl

/-- Goes on after a step. -/
def resume (lexer : Lexer) (fuel : Nat) (p : Parser) (base : String) (build : Builder V σ) :
    Progress V σ → Except Error V × Stream × σ
  | .stopped result stream state => (result, stream, state)
  | .running run state => drive lexer fuel p base build run state

theorem drive_eq_resume (fuel : Nat) (run : Run V) (state : σ) :
    drive lexer (fuel + 1) p base build run state =
      resume lexer fuel p base build
        (step (delegateWith lexer fuel) lexer p base build run state) := by
  rw [drive_succ]
  cases step (delegateWith lexer fuel) lexer p base build run state <;> rfl

section Input

variable (hfree : ∀ s, p.table.lookaheadFree? s = none) (hinner : ∀ name, p.inner? name = none)
include hfree hinner

/-- After some steps the table is asked about the first of the kinds that are left. -/
theorem Delivers.consult {stream : Stream} {word : List Terminal}
    (h : Delivers lexer p base stream word) : ∀ {run : Run V}, run.stream = stream →
    run.lookahead = none → ∀ state : σ, ∃ n token stream', token.kind = firstOr .eof word ∧
      (∃ cursor, stream'.last = some (token.span, cursor)) ∧
      (∀ t rest, word = t :: rest → Delivers lexer p base stream' rest) ∧
      ∀ fuel, drive lexer (n + (fuel + 1)) p base build run state =
        resume lexer fuel p base build
          (consult p base build { run with stream := stream' } state token) := by
  induction h with
  | stop token next hnext =>
    rintro run rfl hlook state
    obtain ⟨hnext, htakes, hkind⟩ := hnext _ (readsIn_modeOver p base run.stack)
    refine ⟨0, _, _, hkind, ⟨_, Lexer.last_next hnext⟩, by simp, fun fuel => ?_⟩
    rw [Nat.zero_add, drive_eq_resume, step_takes hlook (hfree _) hnext htakes]
  | token token next hnext hrest _ =>
    rintro run rfl hlook state
    have hmode := readsIn_modeOver p base run.stack
    obtain ⟨hnext, htakes, hkind⟩ := hnext _ hmode
    refine ⟨0, _, _, hkind, ⟨_, Lexer.last_next hnext⟩, ?_, fun fuel => ?_⟩
    · rintro t rest heq
      obtain ⟨_, rfl⟩ := List.cons.inj heq
      exact hrest _ hmode
    · rw [Nat.zero_add, drive_eq_resume, step_takes hlook (hfree _) hnext htakes]
  | skip token next hnext _ ih =>
    rintro run rfl hlook state
    have hmode := readsIn_modeOver p base run.stack
    obtain ⟨hnext, htakes⟩ := hnext _ hmode
    obtain ⟨n, tok, stream', hkind, hlast, hrest, hdrive⟩ :=
      @ih _ hmode { run with stream := next (p.modeOver base run.stack) } rfl hlook state
    refine ⟨n + 1, tok, stream', hkind, hlast, hrest, fun fuel => ?_⟩
    rw [show n + 1 + (fuel + 1) = n + (fuel + 1) + 1 by omega, drive_eq_resume,
      step_drops hinner hlook (hfree _) hnext htakes]
    exact hdrive fuel

/-- After some steps the tables are asked about the first of the kinds that are left, whether it is in hand
or not. -/
theorem Awaits.consult (build : Builder V σ) {run : Run V} {word : List Terminal}
    (h : Awaits lexer p base run word) (state : σ) : ∃ n token stream, token.kind = firstOr .eof word ∧
      (∃ cursor, stream.last = some (token.span, cursor)) ∧
      (∀ t rest, word = t :: rest → Delivers lexer p base stream rest) ∧
      ∀ fuel, drive lexer (n + (fuel + 1)) p base build run state =
        resume lexer fuel p base build
          (consult p base build { run with stream := stream } state token) := by
  have hdrive : ∀ token, run.lookahead = some token → ∀ fuel,
      drive lexer (0 + (fuel + 1)) p base build run state = resume lexer fuel p base build
        (Parser.consult p base build { run with stream := run.stream } state token) := by
    intro token hlook fuel
    rw [Nat.zero_add, drive_eq_resume]
    simp only [step, hlook]
  cases h with
  | unread hlook hdelivers => exact hdelivers.consult hfree hinner rfl hlook state
  | @held token word cursor hlook hlast hdelivers =>
    refine ⟨0, token, run.stream, rfl, ⟨cursor, hlast⟩, ?_, hdrive token hlook⟩
    rintro t rest heq
    obtain ⟨_, rfl⟩ := List.cons.inj heq
    exact hdelivers
  | @ended token cursor hlook hkind hlast =>
    exact ⟨0, token, run.stream, hkind, ⟨cursor, hlast⟩, by simp, hdrive token hlook⟩

/-- After some steps the action is performed that the table has for the first of the kinds. -/
theorem Awaits.perform (build : Builder V σ) {run : Run V} {word : List Terminal}
    (h : Awaits lexer p base run word) (state : σ) {s : StateId} {action : Action}
    (htop : topState run.stack = s) (haction : p.table.action? s (firstOr .eof word) = some action) :
    ∃ n token stream, token.kind = firstOr .eof word ∧
      (∃ cursor, stream.last = some (token.span, cursor)) ∧
      (∀ t rest, word = t :: rest → Delivers lexer p base stream rest) ∧
      ∀ fuel, drive lexer (n + 1 + fuel) p base build run state =
        resume lexer fuel p base build
          (perform p base build ⟨run.stack, some token, run.previous, stream⟩ state action) := by
  obtain ⟨n, token, stream, hkind, hlast, hrest, hdrive⟩ := h.consult hfree hinner build state
  refine ⟨n, token, stream, hkind, hlast, hrest, fun fuel => ?_⟩
  rw [Nat.add_assoc, Nat.add_comm 1, hdrive]
  simp only [Parser.consult, htop, hkind, haction, Option.some_or]

end Input

/-! ## 3. Moves -/

/-- The states of a stack, with the one below everything. -/
def statesOf (stack : List (Frame V)) : List StateId := stack.map Frame.state ++ [0]

theorem topState_eq {stack : List (Frame V)} {s : StateId} (h : (statesOf stack).head? = some s) :
    topState stack = s := by
  cases stack with
  | nil => exact Option.some.inj h
  | cons frame stack => exact Option.some.inj h

/-- Dropping states is dropping stack entries. -/
theorem statesOf_drop {stack : List (Frame V)} {s : StateId} {ss : List StateId} {k : Nat}
    (h : (statesOf stack).drop k = s :: ss) : k ≤ stack.length ∧ statesOf (stack.drop k) = s :: ss := by
  have hlen := congrArg List.length h
  simp only [statesOf, List.length_drop, List.length_append, List.length_map, List.length_cons,
    List.length_nil] at hlen
  have hle : k ≤ stack.length := by omega
  refine ⟨hle, ?_⟩
  unfold statesOf at h ⊢
  rw [List.map_drop, ← List.drop_append_of_le_length (by rwa [List.length_map]), h]

/-- The parser gets from a stack of states with kinds left to another one, in some number of steps. -/
def Moves (lexer : Lexer) (p : Parser) (base : String) (build : Builder V σ) (ss : List StateId)
    (word : List Terminal) (ss' : List StateId) (rest : List Terminal) : Prop :=
  ∀ (run : Run V) (state : σ), statesOf run.stack = ss → Awaits lexer p base run word →
    ∃ n run' state', statesOf run'.stack = ss' ∧ Awaits lexer p base run' rest ∧
      ∀ fuel, drive lexer (n + fuel) p base build run state =
        drive lexer fuel p base build run' state'

theorem Moves.refl (ss : List StateId) (word : List Terminal) :
    Moves lexer p base build ss word ss word :=
  fun run state hss hawaits => ⟨0, run, state, hss, hawaits, fun fuel => by rw [Nat.zero_add]⟩

/-- Moves go on from where other moves ended. -/
theorem Moves.trans {ss ss' ss'' : List StateId} {word word' word'' : List Terminal}
    (h : Moves lexer p base build ss word ss' word')
    (h' : Moves lexer p base build ss' word' ss'' word'') :
    Moves lexer p base build ss word ss'' word'' := by
  intro run state hss hawaits
  obtain ⟨n, run', state', hss', hawaits', hdrive⟩ := h run state hss hawaits
  obtain ⟨n', run'', state'', hss'', hawaits'', hdrive'⟩ := h' run' state' hss' hawaits'
  refine ⟨n + n', run'', state'', hss'', hawaits'', fun fuel => ?_⟩
  rw [Nat.add_assoc, hdrive, hdrive']

section Steps

variable (hfree : ∀ s, p.table.lookaheadFree? s = none) (hinner : ∀ name, p.inner? name = none)
include hfree hinner

/-- **A shift** takes the first of the kinds. -/
theorem Moves.shift {s target : StateId} {ss : List StateId} {t : Terminal} {word : List Terminal}
    (haction : p.table.action? s t = some (.shift target)) :
    Moves lexer p base build (s :: ss) (t :: word) (target :: s :: ss) word := by
  intro run state hss hawaits
  obtain ⟨n, token, stream, _, _, hrest, hdrive⟩ :=
    hawaits.perform hfree hinner build state (topState_eq (by rw [hss]; rfl)) haction
  exact ⟨n + 1, ⟨⟨target, .token token, token.span⟩ :: run.stack, none, token.span, stream⟩, state,
    congrArg (target :: ·) hss, .unread rfl (hrest _ _ rfl), hdrive⟩

variable (hbuild : ∀ r state, ∃ v state', build r state = (.ok v, state'))
include hbuild

/-- **A reduction** takes no kind, and replaces states. -/
theorem Moves.reduce {top s target : StateId} {ss below : List StateId} {id : RuleId}
    {word : List Terminal}
    (haction : p.table.action? top (firstOr .eof word) = some (.reduce id))
    (hdrop : (top :: ss).drop (p.table.grammar.rule id).rhs.length = s :: below)
    (hgoto : p.table.goto? s (p.table.grammar.rule id).lhs = some target) :
    Moves lexer p base build (top :: ss) word (target :: s :: below) word := by
  intro run state hss hawaits
  obtain ⟨n, token, stream, hkind, ⟨cursor, hlast⟩, hrest, hdrive⟩ := hawaits.perform hfree hinner
    build state (topState_eq (by rw [hss]; rfl)) haction
  obtain ⟨hle, hbelow⟩ := statesOf_drop (by rw [hss]; exact hdrop)
  have htop : topState (run.stack.drop (p.table.grammar.rule id).rhs.length) = s :=
    topState_eq (by rw [hbelow]; rfl)
  simp only [Parser.perform, Parser.reduce, popFrames_eq hle, htop, hgoto] at hdrive
  set below := run.stack.drop (p.table.grammar.rule id).rhs.length
  set frames := (run.stack.take (p.table.grammar.rule id).rhs.length).reverse
  set span := spanOf frames run.previous (some token)
  obtain ⟨v, state', hv⟩ := hbuild (p.reduction id span frames
    ((p.table.mode? target).getD (modeOver p base below))) state
  rw [hv] at hdrive
  refine ⟨n + 1, ⟨⟨target, .value v, span⟩ :: below, some token, run.previous, stream⟩, state',
    congrArg (target :: ·) hbelow, ?_, hdrive⟩
  cases word with
  | nil => exact .ended rfl hkind hlast
  | cons t word =>
    obtain rfl : token.kind = t := hkind
    exact .held rfl hlast (hrest _ _ rfl)

/-- What the tables do with states and kinds, the parser does with its stack and its input. -/
theorem Moves.of_turn {c c' : Configuration} (h : p.table.turn c = some c') :
    Moves lexer p base build c.1 c.2 c'.1 c'.2 := by
  obtain ⟨_ | ⟨s, ss⟩, word⟩ := c
  · cases h
  · rw [ParseTable.turn] at h
    split at h
    · rename_i target haction
      split at h
      · cases h
      · obtain rfl := Option.some.inj h
        exact Moves.shift hfree hinner haction
    · rename_i id haction
      split at h
      · cases h
      · rename_i hdrop
        obtain ⟨target, hgoto, rfl⟩ := Option.map_eq_some_iff.mp h
        exact Moves.reduce hfree hinner hbuild haction hdrop hgoto
    · cases h

/-- **The parser performs the turns of its tables.** -/
theorem Moves.of_turns {c c' : Configuration} (h : p.table.Turns c c') :
    Moves lexer p base build c.1 c.2 c'.1 c'.2 := by
  induction h with
  | refl => exact Moves.refl _ _
  | tail _ hturn ih => exact ih.trans (Moves.of_turn hfree hinner hbuild hturn)

/-- A run whose stack holds the start rule and nothing else is accepted at the end of the input. -/
theorem Awaits.accept {run : Run V} {states : List StateId} {id : RuleId} (state : σ)
    (hss : statesOf run.stack = states.reverse ++ [0])
    (hlen : states.length = (p.table.grammar.rule id).rhs.length)
    (haction : p.table.action? (lastState 0 states) .eof = some (.accept id))
    (hawaits : Awaits lexer p base run []) :
    ∃ fuel v stream state', drive lexer fuel p base build run state = (.ok v, stream, state') := by
  obtain ⟨n, token, stream, _, ⟨cursor, hlast⟩, _, hdrive⟩ := hawaits.perform hfree hinner
    build state (topState_eq (by rw [hss, head?_reverse_append])) haction
  obtain ⟨hle, hbelow⟩ := statesOf_drop (by
    rw [hss]
    exact List.drop_left' (by rw [List.length_reverse, hlen]))
  have hnil : run.stack.drop (p.table.grammar.rule id).rhs.length = [] := by
    have := congrArg List.length hbelow
    rw [statesOf, List.length_append, List.length_map] at this
    exact List.length_eq_zero_iff.mp (Nat.succ_inj.mp this)
  simp only [Parser.perform, Parser.accept, popFrames_eq hle, hnil, List.isEmpty_nil, Bool.not_true,
    Bool.false_eq_true, if_false, Stream.rewind?_eq hlast] at hdrive
  set frames := (run.stack.take (p.table.grammar.rule id).rhs.length).reverse
  obtain ⟨v, state', hv⟩ := hbuild (p.reduction id (spanOf frames run.previous (some token)) frames
    (modeOver p base [])) state
  rw [hv] at hdrive
  exact ⟨n + 1 + 0, v, _, state', hdrive 0⟩

end Steps

/-! ## 4. Words that are derived -/

section Derivations

variable {paths : List PathRule} (m : ParseTable.Made g p.table a paths)
  (hnone : ∀ id, (g.rule id).precedence = none)
  (hstart : .nonterminal g.start ∉ Grammar.rhsSymbols g.rules)
  (hempty : .terminal .empty ∉ Grammar.rhsSymbols g.rules)
  (hends : g.ends = [.eof]) (hinner : ∀ name, p.inner? name = none)

variable (hbuild : ∀ r state, ∃ v state', build r state = (.ok v, state'))

include m hnone hstart hempty hends hinner hbuild

/-- Every word that the grammar derives is accepted. -/
theorem drive_complete {word : List Terminal} (h : g.Derives [.nonterminal g.start] word)
    {run : Run V} (hstack : run.stack = []) (hawaits : Awaits lexer p base run word) (state : σ) :
    ∃ fuel v stream state', drive lexer fuel p base build run state = (.ok v, stream, state') := by
  have hfree := lookaheadFree?_none m hempty hends
  obtain ⟨states, hlen, hturns, haction⟩ := turns_of_derives m hnone hstart hempty hends h
  obtain ⟨n, run', state', hss, hawaits', hdrive⟩ :=
    Moves.of_turns hfree hinner hbuild hturns run state (by rw [hstack]; rfl) hawaits
  obtain ⟨fuel, v, stream, state'', haccept⟩ :=
    Awaits.accept hfree hinner hbuild state' hss (by rw [m.grammar, hlen]) haction hawaits'
  exact ⟨n + fuel, v, stream, state'', by rw [hdrive, haccept]⟩

end Derivations

/-! ## 5. What was delivered -/

section Tokens

variable {good : Grown V → Prop}

/-- A step with a lookahead in hand reads nothing. -/
theorem Outcome.stream_eq {run run' : Run V} {state state' : σ} {row : List (Grown V)} {token : Token}
    (h : Outcome g a lexer delegate p base build good run state row (.running run' state'))
    (hlook : run.lookahead = some token) : run'.stream = run.stream := by
  have hsees : ∀ {look stream new}, Sees lexer p base run look stream new → stream = run.stream := by
    rintro _ _ _ (_ | ⟨h, _⟩ | ⟨h, _, _, _⟩)
    · rfl
    · rfl
    · simp [hlook] at h
  cases h with
  | skip h _ _ => simp [hlook] at h
  | shift hs _ => exact hsees hs
  | reduce hs _ _ _ _ _ _ => exact hsees hs

/-- A step without a lookahead reads one token, if there are no other parsers. -/
theorem Outcome.stream_next {run run' : Run V} {state state' : σ} {row : List (Grown V)}
    (h : Outcome g a lexer delegate p base build good run state row (.running run' state'))
    (hinner : ∀ name, p.inner? name = none) (hlook : run.lookahead = none)
    (hfree : p.table.lookaheadFree? (topState run.stack) = none) :
    ∃ token, lexer.next (p.modeOver base run.stack) run.stream = .ok (token, run'.stream) := by
  have hsees : ∀ {look stream new}, Sees lexer p base run look stream new →
      ∃ token, lexer.next (p.modeOver base run.stack) run.stream = .ok (token, stream) := by
    rintro _ _ _ (h | ⟨_, h⟩ | ⟨_, _, h, _⟩)
    · simp [hlook] at h
    · simp [hfree] at h
    · exact ⟨_, h⟩
  cases h with
  | skip _ _ hskips =>
    cases hskips with
    | drop hnext _ => exact ⟨_, hnext⟩
    | inner _ _ _ hother _ _ => simp [hinner] at hother
  | shift hs _ => exact hsees hs
  | reduce hs _ _ _ _ _ _ => exact hsees hs

variable {paths : List PathRule} (m : ParseTable.Made g p.table a paths)
  (hstart : .nonterminal g.start ∉ Grammar.rhsSymbols g.rules)
  (hempty : .terminal .empty ∉ Grammar.rhsSymbols g.rules)
  (hends : g.ends = [.eof]) (hinner : ∀ name, p.inner? name = none)
include m hstart hempty hends hinner

/-- The tokens of a transcript are a beginning of what the lexer delivers, or all of it and more. -/
theorem tokens_of_delivers : ∀ (fuel : Nat) {run : Run V} {state : σ} {row : List (Grown V)}
    {word : List Terminal}, Stands a (fun _ => True) run row → Delivers lexer p base run.stream word →
    let kinds := (transcript lexer p base build fuel run state).tokens.map Token.kind
    kinds <+: word ∨ word ++ [Terminal.eof] <+: kinds
  | 0, _, _, _, _, _, _ => .inl (List.nil_prefix)
  | fuel + 1, run, state, row, word, h, hdelivers => by
    have hout : Outcome g a lexer (delegateWith lexer fuel) p base (recorded build) (fun _ => True)
        run (state, []) row _ := step_outcome m hstart hempty h (state, [])
    have hfree := lookaheadFree?_none m hempty hends (topState run.stack)
    -- the tokens are those of this step and of the rest, which has the next stream before it
    obtain ⟨rest, htokens, hrest⟩ : ∃ rest : List Token,
        (transcript lexer p base build (fuel + 1) run state).tokens =
          delivered lexer p base run ++ rest ∧
        ∀ word', (∀ run' after, step (delegateWith lexer fuel) lexer p base (recorded build) run
          (state, []) = .running run' after → Delivers lexer p base run'.stream word') →
          rest.map Token.kind <+: word' ∨ word' ++ [Terminal.eof] <+: rest.map Token.kind := by
      simp only [transcript]
      cases hstep : step (delegateWith lexer fuel) lexer p base (recorded build) run (state, []) with
      | stopped result stream after =>
        exact ⟨[], by simp, fun word' _ => .inl List.nil_prefix⟩
      | running run' after =>
        rw [hstep] at hout
        obtain ⟨row', _, _, h', _⟩ := hout.running respects_true h
        exact ⟨_, rfl, fun word' hword' => tokens_of_delivers fuel h' (hword' run' after rfl)⟩
    rw [htokens]
    cases hlook : run.lookahead with
    | some token =>
      have hnew : delivered lexer p base run = [] := by simp [delivered, hlook]
      rw [hnew]
      refine hrest word fun run' after hstep => ?_
      rw [hstep] at hout
      rwa [hout.stream_eq hlook]
    | none =>
      have hmode := readsIn_modeOver p base run.stack
      -- a step that goes on has the stream behind the token it read
      have hstream : ∀ {token : String → Token} {next : String → Stream},
          lexer.next (p.modeOver base run.stack) run.stream =
            .ok (token (p.modeOver base run.stack), next (p.modeOver base run.stack)) →
          ∀ run' after, step (delegateWith lexer fuel) lexer p base (recorded build) run
            (state, []) = .running run' after → next (p.modeOver base run.stack) = run'.stream := by
        intro token next hnext run' after hstep
        rw [hstep] at hout
        obtain ⟨_, hnext'⟩ := hout.stream_next hinner hlook hfree
        rw [hnext] at hnext'
        exact congrArg Prod.snd (Except.ok.inj hnext')
      cases hdelivers with
      | stop token next hnext =>
        obtain ⟨hnext, htakes, hkind⟩ := hnext _ hmode
        unfold takes at htakes
        right
        simp [delivered, consulted, hlook, hfree, hnext, htakes, hkind]
      | @token _ t word token next hnext hwords =>
        obtain ⟨hnext, htakes, hkind⟩ := hnext _ hmode
        unfold takes at htakes
        have hwords' := hrest word fun run' after hstep => by
          rw [← hstream hnext run' after hstep]
          exact hwords _ hmode
        simpa [delivered, consulted, hlook, hfree, hnext, htakes, hkind] using hwords'
      | skip token next hnext hwords =>
        obtain ⟨hnext, htakes⟩ := hnext _ hmode
        unfold takes at htakes
        have hwords' := hrest word fun run' after hstep => by
          rw [← hstream hnext run' after hstep]
          exact hwords _ hmode
        simpa [delivered, consulted, hlook, hfree, hnext, htakes] using hwords'

/-- An accepted word is the word that was delivered, and the grammar derives it. -/
theorem derives_of_parse (heof : .terminal .eof ∉ Grammar.rhsSymbols g.rules)
    (htable : ParseTable.ofGrammar g = .ok p.table) {stream stream' : Stream}
    {word : List Terminal} (hdelivers : Delivers lexer p base stream word) (hword : .eof ∉ word)
    {fuel : Nat} {state state' : σ} {v : V}
    (h : p.parse lexer fuel base build stream state = (.ok v, stream', state')) :
    g.Derives [.nonterminal g.start] word := by
  obtain ⟨tokens, hderives, hend⟩ := parse_derives m.proper hstart hempty htable rfl h
  have hderived : g.Derives [.nonterminal g.start] (tokens.map Token.kind) := by
    have := hderives.derivation.rewrites
    rwa [← Function.comp_def, ← List.map_map] at this
  have htokens : .eof ∉ tokens.map Token.kind := fun hmem =>
    heof (((Grammar.yields_of_derives hderived).mem hmem).resolve_left (by simp))
  -- the parse stopped at the end of the input, so nothing of the word is left
  obtain ⟨token, hlook, hkind⟩ := hend.resolve_left (by simp [hends])
  rw [hends, List.mem_singleton] at hkind
  have hall : (transcript lexer p base build fuel (start stream) state).tokens.map Token.kind <+:
      word ∨ word ++ [.eof] <+:
        (transcript lexer p base build fuel (start stream) state).tokens.map Token.kind :=
    tokens_of_delivers m hstart hempty hends hinner fuel (stands_start stream) hdelivers
  rw [hderives.tokens, hlook] at hall
  simp only [Option.toList_some, List.map_append, List.map_cons, List.map_nil, hkind] at hall
  rcases hall with hpre | hpre
  · exact absurd (hpre.subset (List.mem_append_right _ List.mem_cons_self)) hword
  · rcases List.prefix_concat_iff.mp hpre with heq | hpre
    · rwa [List.append_cancel_right heq]
    · exact absurd (hpre.subset (List.mem_append_right _ List.mem_cons_self)) htokens

end Tokens

/-! ## 6. The language of a parser -/

/-- Without inner parsers a step does not need the budget of the steps behind it. -/
theorem step_delegate (hinner : ∀ name, p.inner? name = none) (delegate' : Delegate) (run : Run V)
    (state : σ) : step delegate lexer p base build run state =
      step delegate' lexer p base build run state := by
  unfold step
  simp only [hinner]

/-- A larger budget does not change a result. -/
theorem drive_mono (hinner : ∀ name, p.inner? name = none) {v : V} : ∀ {fuel fuel' : Nat},
    fuel ≤ fuel' → ∀ {run : Run V} {state : σ} {stream : Stream} {state' : σ},
    drive lexer fuel p base build run state = (.ok v, stream, state') →
    drive lexer fuel' p base build run state = (.ok v, stream, state')
  | 0, _, _, _, _, _, _, h => by simp [drive] at h
  | fuel + 1, fuel' + 1, hle, run, state, stream, state', h => by
    rw [drive_eq_resume] at h ⊢
    rw [step_delegate hinner (delegateWith lexer fuel)]
    cases hstep : step (delegateWith lexer fuel) lexer p base build run state with
    | stopped result stream1 state1 =>
      rw [hstep] at h
      exact h
    | running run1 state1 =>
      rw [hstep] at h
      exact drive_mono hinner (Nat.le_of_succ_le_succ hle) h

/-- **A parser accepts exactly what its grammar derives.**  Take a grammar that ends at the end of the
input, has no precedences, keeps its start nonterminal, the end of the input and the empty marker out
of its right-hand sides, and has tables; and a builder that never fails.  Whatever kinds of tokens are
delivered on the channel of the parser, it accepts them with some budget of steps if and only if the
grammar derives them, and then it accepts them with every larger budget. -/
theorem parse_iff_derives {name : String} {rules : List Rule} {table : ParseTable}
    (hg : Grammar.ofRules name rules [.eof] = .ok g)
    (hplain : ∀ rule ∈ rules, rule.precedence = none)
    (hrules : ∀ X ∈ Grammar.rhsSymbols rules,
      X ≠ .nonterminal name ∧ X ≠ .terminal .eof ∧ X ≠ .terminal .empty)
    (htable : ParseTable.ofGrammar g = .ok table) (channel : Channel)
    (delimiters : List (String × String))
    (hbuild : ∀ r state, ∃ v state', build r state = (.ok v, state'))
    {stream : Stream} {kinds : List String}
    (hinput : Delivers lexer (ofTable table channel delimiters) base stream (kinds.map .kind))
    (state : σ) :
    let p := ofTable table channel delimiters
    ((∃ fuel v stream' state', p.parse lexer fuel base build stream state =
        (.ok v, stream', state')) ↔ g.Derives [.nonterminal name] (kinds.map .kind)) ∧
      ∀ fuel fuel' v stream' state', fuel ≤ fuel' →
        p.parse lexer fuel base build stream state = (.ok v, stream', state') →
        p.parse lexer fuel' base build stream state = (.ok v, stream', state') := by
  intro p
  have hproper := Grammar.proper_ofRules hg
  obtain ⟨rfl, rfl, hends, _⟩ := Grammar.ofRules_eq hg
  have hends : g.ends = [.eof] := by rw [hends]; rfl
  have hstart : .nonterminal g.start ∉ Grammar.rhsSymbols g.rules := fun h => (hrules _ h).1 rfl
  have heof : .terminal .eof ∉ Grammar.rhsSymbols g.rules := fun h => (hrules _ h).2.1 rfl
  have hempty : .terminal .empty ∉ Grammar.rhsSymbols g.rules := fun h => (hrules _ h).2.2 rfl
  have hnone : ∀ id, (g.rule id).precedence = none := by
    intro id
    unfold Grammar.rule
    cases hrule : g.rules[id]? with
    | none => rfl
    | some rule => exact hplain rule (List.mem_of_getElem? hrule)
  have hinner : ∀ name, p.inner? name = none := fun _ => rfl
  obtain ⟨a, paths, m⟩ := ParseTable.made_ofGrammar hproper htable
  have m : ParseTable.Made g p.table a paths := m
  refine ⟨⟨?_, fun h => ?_⟩, fun fuel fuel' v stream' state' hle h => drive_mono hinner hle h⟩
  · rintro ⟨fuel, v, stream', state', h⟩
    exact derives_of_parse m hstart hempty hends hinner heof htable hinput (by simp) h
  · exact drive_complete m hnone hstart hempty hends hinner hbuild h rfl (.unread rfl hinput) state

/-- Rows of brackets that close each other. -/
def bracketRules : List Rule :=
  [{ lhs := "text", rhs := [.one (.nonterminal "row")] },
    { lhs := "row", rhs := [] },
    { lhs := "row"
      rhs := [.one (.token "("), .one (.nonterminal "row"), .one (.token ")"),
        .one (.nonterminal "row")] }]

/-- Brackets, and blanks on a channel of their own. -/
def bracketLexer : Lexer :=
  .ofRules [("text", ⟨.char '(', "(", .default⟩), ("text", ⟨.char ')', ")", .default⟩),
    ("text", ⟨.char ' ', "blank", .hidden "blank"⟩)]

/-- The brackets `( ())` close each other: the parser of such rows accepts them. -/
theorem parse_iff_derives_brackets : ∃ g table,
    Grammar.ofRules "text" bracketRules [.eof] = .ok g ∧ ParseTable.ofGrammar g = .ok table ∧
    (∃ fuel v stream state, (ofTable table .default []).parse bracketLexer fuel "text" forget
      (.ofText "( ())") () = (.ok v, stream, state)) ∧
    g.Derives [.nonterminal "text"] (["(", "(", ")", ")"].map .kind) := by
  obtain ⟨g, hg⟩ : ∃ g, Grammar.ofRules "text" bracketRules [.eof] = .ok g := ⟨_, rfl⟩
  have hok : (((Grammar.ofRules "text" bracketRules [.eof]).bind ParseTable.ofGrammar).toOption.map
      fun table => (table.rows.all (·.mode.isNone), ((ofTable table .default []).parse bracketLexer
        32 "text" forget (.ofText "( ())") ()).1.toOption)) = some (true, some ()) := by
    decide +kernel
  obtain ⟨table, htable, hrun⟩ := Option.map_eq_some_iff.mp hok
  obtain ⟨hmode, hrun⟩ := Prod.mk.injEq .. ▸ hrun
  have htable := eq_ok_of_bind_toOption hg htable
  have hmodes : ∀ mode, (ofTable table .default []).ReadsIn "text" mode → mode = "text" := by
    rintro mode (rfl | ⟨s, hs⟩)
    · rfl
    · obtain ⟨row, hrow, hs⟩ := Option.bind_eq_some_iff.mp hs
      have := Array.all_eq_true_iff_forall_mem.mp hmode row (Array.mem_of_getElem? hrow)
      simp [hs] at this
  have hinput : Delivers bracketLexer (ofTable table .default []) "text" (.ofText "( ())")
      (["(", "(", ")", ")"].map .kind) := by
    have hkinds : kindsIn bracketLexer .default "text" 8 (.ofText "( ())") =
        some (["(", "(", ")", ")"].map .kind) := by decide +kernel
    exact delivers_of_kindsIn hmodes hkinds
  obtain ⟨stream, state, hparse⟩ := exists_eq_ok hrun
  exact ⟨g, table, hg, htable, ⟨32, (), stream, state, hparse⟩,
    (parse_iff_derives hg (by decide) (by decide) htable .default []
      (fun _ _ => ⟨(), (), rfl⟩) hinput ()).1.mp ⟨32, (), stream, state, hparse⟩⟩

end Lode.Parser
