/-
# Parsers

A parser drives a parse table over a stream.  Its stack holds, for every shifted token and every
reduced value, the state reached with it; the state below everything is state zero.  A step either
reads one token of the stream or performs one action.

Tokens of other channels never reach the table.  If another parser is registered for the channel it
takes over: the token is given back, the other parser reads what it accepts, and its value is
dropped.  All other tokens are dropped themselves.

The mode in which the next token is read is that of the topmost state that has one.
-/
import Lode.Grammar.Table
import Lode.Lexer

namespace Lode

/-- What a reduction finds at a slot: a shifted token or the value of an earlier reduction. -/
inductive Child (V : Type) where
  | token (t : Token)
  | value (v : V)
deriving Repr

/-- What is known when a rule is reduced. -/
structure Reduction (V : Type) where
  rule : RuleId
  lhs : String
  label : Option String
  span : Span
  children : List (Child V)
  /-- The lexer mode once the value is on the stack. -/
  mode : String
deriving Repr

/-- The maker of values.  It may keep a state of its own, which outlives a failure. -/
abbrev Builder (V σ : Type) := Reduction V → σ → Except Error V × σ

/-- Tables with the channel they read, the delimiters that diagnostics speak of, and the parsers of
other channels. -/
inductive Parser where
  | mk (table : ParseTable) (channel : Channel) (delimiters : List (String × String))
      (inner : List (String × Parser))

namespace Parser

/-- The tables of a parser. -/
def table : Parser → ParseTable
  | mk table _ _ _ => table

/-- The channel a parser reads. -/
def channel : Parser → Channel
  | mk _ channel _ _ => channel

/-- Pairs of opening and closing kinds of tokens. -/
def delimiters : Parser → List (String × String)
  | mk _ _ delimiters _ => delimiters

/-- The parser of another channel. -/
def inner? : Parser → String → Option Parser
  | mk _ _ _ inner, name => Sorted.find? name inner

/-- A parser of one channel alone. -/
def ofTable (table : ParseTable) (channel : Channel) (delimiters : List (String × String)) : Parser :=
  mk table channel delimiters []

/-- Registers the parser of another channel. -/
def withInner : Parser → String → Parser → Parser
  | mk table channel delimiters inner, name, p =>
    mk table channel delimiters (Sorted.set name p inner)

/-! ## 1. The stack -/

/-- A stack entry: what was read, its place, and the state reached with it. -/
structure Frame (V : Type) where
  state : StateId
  child : Child V
  span : Span
deriving Repr

/-- The state of a run. -/
structure Run (V : Type) where
  /-- The stack, the top first. -/
  stack : List (Frame V)
  lookahead : Option Token
  /-- The place of the token shifted last. -/
  previous : Span
  stream : Stream
deriving Repr

variable {V σ : Type}

/-- The state on top of a stack. -/
def topState : List (Frame V) → StateId
  | [] => 0
  | frame :: _ => frame.state

/-- The lexer mode over a stack. -/
def modeOver (p : Parser) (base : String) (stack : List (Frame V)) : String :=
  ((stack.map Frame.state ++ [0]).findSome? p.table.mode?).getD base

/-- The frames of a right-hand side, in reading order, and the stack below them. -/
def popFrames (count : Nat) (stack : List (Frame V)) :
    Except Error (List (Frame V) × List (Frame V)) :=
  if stack.length < count then .error InternalProblem.stackUnderflow.error
  else .ok ((stack.take count).reverse, stack.drop count)

/-- The place of a right-hand side.  An empty one lies in the gap between the token shifted last and
the lookahead. -/
def spanOf (frames : List (Frame V)) (previous : Span) (lookahead : Option Token) : Span :=
  match Span.cover (frames.map (·.span)), lookahead with
  | some span, _ => span
  | none, some token => Span.between previous token.span
  | none, none => Span.point previous.stop

/-- What the builder is told about a rule. -/
def reduction (p : Parser) (id : RuleId) (span : Span) (frames : List (Frame V)) (mode : String) :
    Reduction V :=
  let rule := p.table.grammar.rule id
  ⟨id, rule.lhs, rule.label, span, frames.map (·.child), mode⟩

/-! ## 2. Diagnostics -/

/-- The topmost opening delimiter whose partner does not lie above it, with its place.  `closed`
holds the closing delimiters passed on the way that still wait for their partner. -/
def innermostUnclosed (delimiters : List (String × String)) :
    List (Frame V) → List String → Option (String × Span)
  | [], _ => none
  | frame :: stack, closed =>
    match frame.child with
    | .value _ => innermostUnclosed delimiters stack closed
    | .token token =>
      match delimiters.find? fun (opening, _) => Terminal.kind opening == token.kind with
      | some (opening, closing) =>
        match closed with
        | c :: rest =>
          if c == closing then innermostUnclosed delimiters stack rest
          else some (opening, token.span)
        | [] => some (opening, token.span)
      | none =>
        match delimiters.find? fun (_, closing) => Terminal.kind closing == token.kind with
        | some (_, closing) => innermostUnclosed delimiters stack (closing :: closed)
        | none => innermostUnclosed delimiters stack closed

/-- The error for a token without an action. -/
def unexpected (p : Parser) (stack : List (Frame V)) (token : Token) : Error :=
  if token.kind == .kind "invalid" then ⟨.lex (.unrecognized token.text), some token.span⟩
  else if token.kind == .eof then
    match innermostUnclosed p.delimiters stack [] with
    | some (opening, span) =>
      let closing := (p.delimiters.find? (·.1 == opening)).map (·.2)
      ⟨.unclosed opening (closing.getD ""), some span⟩
    | none => ⟨.unexpectedToken none (p.table.expected (topState stack)), some token.span⟩
  else
    ⟨.unexpectedToken (some token.text) (p.table.expected (topState stack)), some token.span⟩

/-! ## 3. Steps -/

/-- What a step leads to. -/
inductive Progress (V σ : Type) where
  | running (run : Run V) (state : σ)
  | stopped (result : Except Error V) (stream : Stream) (state : σ)

/-- Reduces a rule and goes on. -/
def reduce (p : Parser) (base : String) (build : Builder V σ) (run : Run V) (state : σ)
    (id : RuleId) : Progress V σ :=
  match popFrames (p.table.grammar.rule id).rhs.length run.stack with
  | .error e => .stopped (.error e) run.stream state
  | .ok (frames, below) =>
    let span := spanOf frames run.previous run.lookahead
    let lhs := (p.table.grammar.rule id).lhs
    match p.table.goto? (topState below) lhs with
    | none => .stopped (.error (InternalProblem.noGoto lhs (topState below)).error) run.stream state
    | some target =>
      let mode := ((p.table.mode? target).getD (modeOver p base below))
      match build (p.reduction id span frames mode) state with
      | (.error e, state) => .stopped (.error e) run.stream state
      | (.ok value, state) =>
        .running { run with stack := ⟨target, .value value, span⟩ :: below } state

/-- Reduces the start rule, gives the lookahead back and stops. -/
def accept (p : Parser) (base : String) (build : Builder V σ) (run : Run V) (state : σ)
    (id : RuleId) : Progress V σ :=
  match popFrames (p.table.grammar.rule id).rhs.length run.stack with
  | .error e => .stopped (.error e) run.stream state
  | .ok (frames, below) =>
    if !below.isEmpty then .stopped (.error InternalProblem.valuesLeft.error) run.stream state
    else
      let span := spanOf frames run.previous run.lookahead
      match build (p.reduction id span frames (modeOver p base below)) state with
      | (.error e, state) => .stopped (.error e) run.stream state
      | (.ok value, state) =>
        match run.lookahead with
        | none => .stopped (.ok value) run.stream state
        | some token =>
          match run.stream.rewind? token with
          | some stream => .stopped (.ok value) stream state
          | none => .stopped (.error InternalProblem.rewoundToken.error) run.stream state

/-- Performs an action. -/
def perform (p : Parser) (base : String) (build : Builder V σ) (run : Run V) (state : σ) :
    Action → Progress V σ
  | .shift target =>
    match run.lookahead with
    | none => .stopped (.error InternalProblem.shiftWithoutLookahead.error) run.stream state
    | some token =>
      .running { run with
        stack := ⟨target, .token token, token.span⟩ :: run.stack
        lookahead := none
        previous := token.span } state
  | .reduce id => reduce p base build run state id
  | .accept id => accept p base build run state id

/-- Performs the action for a lookahead, or that of the empty marker. -/
def consult (p : Parser) (base : String) (build : Builder V σ) (run : Run V) (state : σ)
    (token : Token) : Progress V σ :=
  let top := topState run.stack
  match (p.table.action? top token.kind).or (p.table.action? top .empty) with
  | some action => perform p base build { run with lookahead := some token } state action
  | none => .stopped (.error (p.unexpected run.stack token)) run.stream state

/-- A way to let another parser read from a stream in a mode. -/
abbrev Delegate := Parser → String → Stream → Except Error Unit × Stream

/-- One step: performs an action, or reads one token and performs, delegates or drops it. -/
def step (delegate : Delegate) (lexer : Lexer) (p : Parser) (base : String) (build : Builder V σ)
    (run : Run V) (state : σ) : Progress V σ :=
  match run.lookahead, p.table.lookaheadFree? (topState run.stack) with
  | some token, _ => consult p base build run state token
  | none, some action => perform p base build run state action
  | none, none =>
    let mode := p.modeOver base run.stack
    match lexer.next mode run.stream with
    | .error e => .stopped (.error e) run.stream state
    | .ok (token, stream) =>
      if token.channel == .all || token.channel == p.channel then
        consult p base build { run with stream := stream } state token
      else
        match token.channel with
        | .hidden name =>
          match p.inner? name with
          | none => .running { run with stream := stream } state
          | some other =>
            match stream.rewind? token with
            | none => .stopped (.error InternalProblem.rewoundToken.error) stream state
            | some stream =>
              match delegate other mode stream with
              | (.ok _, stream) => .running { run with stream := stream } state
              | (.error e, stream) => .stopped (.error e) stream state
        | _ => .running { run with stream := stream } state

/-! ## 4. Runs -/

/-- The beginning of a run. -/
def start (stream : Stream) : Run V := ⟨[], none, .point ⟨1, 0⟩, stream⟩

/-- The builder of a parser whose values nobody needs. -/
def forget : Builder Unit Unit := fun _ _ => (.ok (), ())

/-- Steps until a result, at most `fuel` of them.  Besides the result there are the stream where it
stopped and the state of the builder. -/
def drive (lexer : Lexer) : Nat → {V σ : Type} → Parser → String → Builder V σ → Run V → σ →
    Except Error V × Stream × σ
  | 0, _, _, _, _, _, run, state => (.error InternalProblem.outOfFuel.error, run.stream, state)
  | fuel + 1, _, _, p, base, build, run, state =>
    let delegate : Delegate := fun other mode stream =>
      let (result, stream, _) := drive lexer fuel other mode forget (start stream) ()
      (result, stream)
    match step delegate lexer p base build run state with
    | .stopped result stream state => (result, stream, state)
    | .running run state => drive lexer fuel p base build run state

/-- Parses from a stream in a mode. -/
def parse (p : Parser) (lexer : Lexer) (fuel : Nat) (base : String) (build : Builder V σ)
    (stream : Stream) (state : σ) : Except Error V × Stream × σ :=
  drive lexer fuel p base build (start stream) state

end Parser

end Lode
