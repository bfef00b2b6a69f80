/-
# Parsers are sound

A parser whose tables were made from a grammar accepts only what the grammar derives.  The reductions of an
accepting parse, last one first, are a rightmost derivation of the tokens it was given, and every reduction
got the tokens and values of its slots (`drive_sound`).  When a parse fails, the cause is a token that was
not expected, the lexer, the builder or another parser, and never the stack or the tables of the parser
itself (`drive_failure`).

Both follow from what one step does to the row of symbols on the stack (`Outcome.running`,
`Outcome.accepted`).  A step adds a token, replaces parts by the value that was built of them, or leaves the
row as it is (`Grows`).  Read backwards the second is one step of a rightmost derivation, since only tokens
can stand behind what is on the stack (`Grows.unfolds`); an accepting step ends with the start symbol alone,
and undoing all reductions from there leads to the tokens.

What the builder keeps of its values is carried along (`Respects`).  Values that are known to be good when
they are built are good where they are used, so the same induction serves for soundness and for the shape of
trees.

The grammar has to keep its start nonterminal and the empty marker out of its right-hand sides.
Precedences, modes and end terminals are free.
-/
import Lode.Language.Reader
import Lode.Proofs.Parser.Steps

namespace Lode.Parser

variable {V σ : Type} {g : Grammar} {a : Automaton} {lexer : Lexer} {delegate : Delegate}
  {p : Parser} {base : String} {build : Builder V σ} {good : Grown V → Prop}

/-! ## 1. What is kept between steps -/

/-- Tokens are good, and so is what the builder makes of good parts. -/
structure Respects (g : Grammar) (lexer : Lexer) (build : Builder V σ) (good : Grown V → Prop) :
    Prop where
  token : ∀ {mode stream token stream'}, lexer.next mode stream = .ok (token, stream') →
    good (.token token)
  value : ∀ {r parts state v state'}, Reduces g r parts → (∀ c ∈ parts, good c) →
    build r state = (.ok v, state') → good (.value r.lhs v)

/-- The builder that writes down succeeds with the other one. -/
theorem recorded_ok {r : Reduction V} {state state' : σ} {log log' : List (Reduction V × V)} {v : V} :
    recorded build r (state, log) = (.ok v, (state', log')) ↔
      build r state = (.ok v, state') ∧ log' = log ++ [(r, v)] := by
  simp only [recorded]
  cases build r state with
  | mk result state1 =>
    cases result with
    | error e => simp
    | ok w =>
      simp only [Prod.mk.injEq, Except.ok.injEq]
      constructor
      · rintro ⟨rfl, rfl, rfl⟩
        exact ⟨⟨rfl, rfl⟩, rfl⟩
      · rintro ⟨⟨rfl, rfl⟩, rfl⟩
        exact ⟨rfl, rfl, rfl⟩

/-- Writing down does not matter for what is good. -/
theorem Respects.recorded (h : Respects g lexer build good) :
    Respects g lexer (recorded build) good where
  token := h.token
  value {_ _ state _ state'} hr hparts hbuild := by
    obtain ⟨state, log⟩ := state
    obtain ⟨state', log'⟩ := state'
    exact h.value hr hparts (recorded_ok.mp hbuild).1

/-- The token that is seen is good, and can be given back. -/
theorem Sees.good_lookahead (hrespects : Respects g lexer build good) {run : Run V}
    {row : List (Grown V)} (h : Stands a good run row) {look : Option Token} {stream : Stream}
    {new : List Token} (hsees : Sees lexer p base run look stream new) : ∀ token,
    look = some token → good (.token token) ∧ ∃ cursor, stream.last = some (token.span, cursor) := by
  cases hsees with
  | held hlook =>
    rintro _ ⟨⟩
    exact h.lookahead _ hlook
  | free => simp
  | read _ _ hnext _ =>
    rintro _ ⟨⟩
    exact ⟨hrespects.token hnext, _, Lexer.last_next hnext⟩

theorem Sees.consulted_eq {run : Run V} {look : Option Token} {stream : Stream} {new : List Token}
    (h : Sees lexer p base run look stream new) : consulted lexer p base run = look := by
  cases h with
  | held hlook => simp [consulted, hlook]
  | free hlook hfree => simp [consulted, hlook, hfree]
  | read hlook hfree hnext hchannel => simp [consulted, hlook, hfree, hnext, hchannel]

/-- The tokens of a run, with those a step delivers, are the tokens the step has seen. -/
theorem Sees.append_delivered {run : Run V} {look : Option Token} {stream : Stream}
    {new : List Token} (h : Sees lexer p base run look stream new) :
    run.lookahead.toList ++ delivered lexer p base run = look.toList := by
  unfold delivered
  rw [h.consulted_eq]
  cases h with
  | held hlook => simp [hlook]
  | free hlook _ => simp [hlook]
  | read hlook _ _ _ => simp [hlook]

theorem Skips.consulted_eq {run : Run V} {stream : Stream} (hlook : run.lookahead = none)
    (hfree : p.table.lookaheadFree? (topState run.stack) = none)
    (h : Skips lexer delegate p base run stream) : consulted lexer p base run = none := by
  cases h with
  | drop hnext hchannel => simp [consulted, hlook, hfree, hnext, hchannel]
  | inner hnext hchannel _ _ _ _ => simp [consulted, hlook, hfree, hnext, hchannel]

/-! ## 2. One step -/

/-- What a step that goes on does to the row of symbols and to the reductions so far: it adds a token
that it was given, replaces parts by the value built from them, or neither. -/
inductive Grows (g : Grammar) (build : Builder V σ) (state : σ) (row : List (Grown V)) :
    List (Grown V) → Option (Reduction V × V) → List Token → Prop
  | same : Grows g build state row row none []
  | token (t : Token) : Grows g build state row (.token t :: row) none [t]
  | value {r : Reduction V} {parts below : List (Grown V)} {v : V} {state' : σ} :
      row = parts.reverse ++ below → Reduces g r parts → build r state = (.ok v, state') →
      Grows g build state row (.value r.lhs v :: below) (some (r, v)) []

section Stands

variable (hrespects : Respects g lexer build good) {run : Run V} {row : List (Grown V)}
  (h : Stands a good run row)
include h

theorem Stands.skip (stream : Stream) : Stands a good ⟨run.stack, none, run.previous, stream⟩ row :=
  ⟨h.linked, h.all_good, by simp⟩

include hrespects

/-- A shift adds the token to the row. -/
theorem Stands.shift {token : Token} {stream : Stream} {new : List Token} {target : StateId}
    (hsees : Sees lexer p base run (some token) stream new)
    (hgoto : a.goto? (topState run.stack) (.terminal token.kind) = some target) :
    Stands a good ⟨⟨target, .token token, token.span⟩ :: run.stack, none, token.span, stream⟩
      (.token token :: row) := by
  obtain ⟨hgood, _⟩ := hsees.good_lookahead hrespects h token rfl
  refine ⟨.cons hgoto rfl h.linked, ?_, by simp⟩
  intro c hc
  rcases List.mem_cons.mp hc with rfl | hc
  · exact hgood
  · exact h.all_good c hc

/-- A reduction replaces the parts in the row by the value. -/
theorem Stands.reduce {look : Option Token} {stream : Stream} {new : List Token} {r : Reduction V}
    {parts below : List (Grown V)} {v : V} {state state' : σ} {target : StateId} {span : Span}
    (hsees : Sees lexer p base run look stream new) (hrow : row = parts.reverse ++ below)
    (hred : Reduces g r parts) (hbuild : build r state = (.ok v, state'))
    (hgoto : a.goto? (topState (run.stack.drop parts.length)) (.nonterminal r.lhs) = some target) :
    Stands a good ⟨⟨target, .value v, span⟩ :: run.stack.drop parts.length, look, run.previous, stream⟩
      (.value r.lhs v :: below) := by
  have hparts : ∀ c ∈ parts, good c := fun c hc =>
    h.all_good c (by rw [hrow]; exact List.mem_append_left _ (List.mem_reverse.mpr hc))
  have hbelow : row.drop parts.length = below := by
    rw [hrow, List.drop_left' (List.length_reverse ..)]
  refine ⟨.cons hgoto rfl ?_, ?_, hsees.good_lookahead hrespects h⟩
  · rw [← hbelow]
    exact h.linked.drop parts.length
  · intro c hc
    rcases List.mem_cons.mp hc with rfl | hc
    · exact hrespects.value hred hparts hbuild
    · exact h.all_good c (by rw [hrow]; exact List.mem_append_right _ hc)

end Stands

/-- A step that goes on keeps the stack linked to a row of good symbols. -/
theorem Outcome.running {run run' : Run V} {state state' : σ} {row : List (Grown V)}
    (hrespects : Respects g lexer build good) (h : Stands a good run row)
    (hout : Outcome g a lexer delegate p base build good run state row (.running run' state')) :
    ∃ row' entry shifted, Stands a good run' row' ∧ Grows g build state row row' entry shifted ∧
      (∀ r v, entry = some (r, v) → build r state = (.ok v, state')) ∧
      (entry = none → state' = state) ∧
      run.lookahead.toList ++ delivered lexer p base run = shifted ++ run'.lookahead.toList := by
  cases hout with
  | skip hlook hfree hskips =>
    refine ⟨row, none, [], h.skip _, .same, by simp, fun _ => rfl, ?_⟩
    simp [delivered, hlook, hskips.consulted_eq hlook hfree]
  | @shift token stream new target hsees hgoto =>
    refine ⟨.token token :: row, none, [token], h.shift hrespects hsees hgoto, .token token, by simp,
      fun _ => rfl, ?_⟩
    simpa using hsees.append_delivered
  | @reduce look stream new r parts below v _ target hsees hrow hred _ hid hbuild hgoto =>
    refine ⟨.value r.lhs v :: below, some (r, v), [], h.reduce hrespects hsees hrow hred hbuild hgoto,
      .value hrow hred hbuild, ?_, by simp, ?_⟩
    · rintro _ _ ⟨⟩
      exact hbuild
    · simpa using hsees.append_delivered

/-- The reductions so far unfold the new row, with what was shifted, just as they unfolded the old. -/
theorem Grows.unfolds {state : σ} {row row' : List (Grown V)} {entry : Option (Reduction V × V)}
    {shifted : List Token} (h : Grows g build state row row' entry shifted)
    {log : List (Reduction V × V)} {word : List Token}
    (hlog : Unfolds g log.reverse row.reverse (word.map .token)) :
    Unfolds g (log ++ entry.toList).reverse row'.reverse ((word ++ shifted).map .token) := by
  cases h with
  | same => simpa using hlog
  | token t => simpa using hlog.append_token t
  | @value r parts below v _ hrow hred _ =>
    rw [hrow, List.reverse_append, List.reverse_reverse] at hlog
    have := Unfolds.undo (v := v) below.reverse [] hred (by simpa using hlog)
    simpa using this

/-- An accepting step undoes to the row it found. -/
theorem Outcome.accepted {run : Run V} {state state' : σ} {row : List (Grown V)} {v : V}
    {stream : Stream} (hg : g.Proper)
    (hout : Outcome g a lexer delegate p base build good run state row
      (.stopped (.ok v) stream state')) :
    ∃ r, build r state = (.ok v, state') ∧
      (.empty ∈ g.ends ∨ ∃ token, consulted lexer p base run = some token ∧ token.kind ∈ g.ends) ∧
      run.lookahead.toList ++ delivered lexer p base run = (consulted lexer p base run).toList ∧
      ∀ {log : List (Reduction V × V)} {target : List (Grown V)},
        Unfolds g log row.reverse target → Unfolds g ((r, v) :: log) [.value g.start v] target := by
  cases hout with
  | @accept look stream stream' new r parts _ _ hsees hrow hred _ hid hbuild hends =>
    refine ⟨r, hbuild, ?_, ?_, fun {log target} hlog => ?_⟩
    · rw [hsees.consulted_eq]
      exact hends
    · rw [hsees.consulted_eq]
      exact hsees.append_delivered
    · have hlhs : r.lhs = g.start := by rw [hred.lhs, hid, hg.lhs_startRule]
      rw [hrow, List.reverse_reverse] at hlog
      have := Unfolds.undo (v := v) [] [] hred (by simpa using hlog)
      simpa [hlhs] using this

/-! ## 3. Whole parses -/

section Runs

variable {paths : List PathRule} (m : ParseTable.Made g p.table a paths)
  (hstart : .nonterminal g.start ∉ Grammar.rhsSymbols g.rules)
  (hempty : .terminal .empty ∉ Grammar.rhsSymbols g.rules)
include m hstart hempty

/-- **An accepting run.**  Its reductions take the value apart into the tokens before the last
lookahead. -/
theorem drive_sound (hrespects : Respects g lexer build good) : ∀ (fuel : Nat) {run : Run V}
    {state : σ} {row : List (Grown V)} {log : List (Reduction V × V)} {word : List Token},
    Stands a good run row → Unfolds g log.reverse row.reverse (word.map .token) →
    ∀ {v stream' state'}, drive lexer fuel p base build run state = (.ok v, stream', state') →
    ∃ word', word ++ run.lookahead.toList ++ (transcript lexer p base build fuel run state).tokens =
        word' ++ (transcript lexer p base build fuel run state).lookahead.toList ∧
      (.empty ∈ g.ends ∨ ∃ token, (transcript lexer p base build fuel run state).lookahead =
        some token ∧ token.kind ∈ g.ends) ∧
      Unfolds g (log ++ (transcript lexer p base build fuel run state).reductions).reverse
        [.value g.start v] (word'.map .token)
  | 0, run, state, row, log, word, _, _, v, stream', state', hdrive => by
    simp [drive] at hdrive
  | fuel + 1, run, state, row, log, word, h, hlog, v, stream', state', hdrive => by
    obtain ⟨log', hrec⟩ := step_recorded p base build run state [] (delegateWith lexer fuel) lexer
    have hout : Outcome g a lexer (delegateWith lexer fuel) p base (recorded build) good run
        (state, []) row _ := step_outcome m hstart hempty h (state, [])
    rw [drive_succ] at hdrive
    simp only [transcript]
    rw [hrec] at hout ⊢
    cases hstep : step (delegateWith lexer fuel) lexer p base build run state with
    | stopped result stream1 state1 =>
      rw [hstep] at hout hdrive
      simp only [Progress.mapState, Prod.mk.injEq] at hout hdrive ⊢
      obtain ⟨rfl, rfl, rfl⟩ := hdrive
      -- the last step accepts: undoing its reduction leads on from the start symbol
      obtain ⟨r, hbuild, hends, htokens, hundo⟩ := hout.accepted m.proper
      obtain ⟨_, rfl⟩ := recorded_ok.mp hbuild
      refine ⟨word, by rw [List.append_assoc, htokens], hends, ?_⟩
      simpa using hundo hlog
    | running run1 state1 =>
      rw [hstep] at hout hdrive
      simp only [Progress.mapState] at hout hdrive ⊢
      -- the step added a token or a reduction at most, and the rest goes on from there
      obtain ⟨row1, entry, shifted, h1, hgrows, hentry, hnone, htokens⟩ :=
        hout.running hrespects.recorded h
      have hlog' : log' = entry.toList := by
        cases entry with
        | none => exact (Prod.ext_iff.mp (hnone rfl)).2
        | some e => exact (recorded_ok.mp (hentry e.1 e.2 rfl)).2
      obtain ⟨word', hword', hends, hunfolds⟩ :=
        drive_sound hrespects fuel h1 (hgrows.unfolds hlog) hdrive
      refine ⟨word', ?_, hends, ?_⟩
      · rw [← hword', ← List.append_assoc, List.append_assoc word, htokens, ← List.append_assoc]
      · rw [hlog', ← List.append_assoc]
        exact hunfolds

end Runs

/-- Where the failure of a parse can come from. -/
inductive Failure (g : Grammar) (lexer : Lexer) (p : Parser) (build : Builder V σ)
    (good : Grown V → Prop) : Error → Prop
  /-- The budget of steps was used up. -/
  | budget : Failure g lexer p build good InternalProblem.outOfFuel.error
  /-- The lexer gave no token. -/
  | lexing {mode : String} {stream : Stream} {e : Error} :
      lexer.next mode stream = .error e → Failure g lexer p build good e
  /-- The builder refused a reduction of a rule over good parts. -/
  | building {r : Reduction V} {parts : List (Grown V)} {state state' : σ} {e : Error} :
      Reduces g r parts → (∀ c ∈ parts, good c) → build r state = (.error e, state') →
      Failure g lexer p build good e
  /-- The tables have no action for a token. -/
  | unexpected (stack : List (Frame V)) (token : Token) :
      Failure g lexer p build good (p.unexpected stack token)
  /-- The parser of another channel failed. -/
  | inner {name mode : String} {other : Parser} {fuel : Nat} {stream : Stream} {e : Error} :
      p.inner? name = some other →
      (other.parse lexer fuel mode forget stream ()).1 = .error e → Failure g lexer p build good e

section Failures

variable {paths : List PathRule} (m : ParseTable.Made g p.table a paths)
  (hstart : .nonterminal g.start ∉ Grammar.rhsSymbols g.rules)
  (hempty : .terminal .empty ∉ Grammar.rhsSymbols g.rules)
include m hstart hempty

/-- **A failing run.**  The parser's own stack and tables are never the cause. -/
theorem drive_failure (hrespects : Respects g lexer build good) : ∀ (fuel : Nat) {run : Run V}
    {state : σ} {row : List (Grown V)}, Stands a good run row →
    ∀ {e}, (drive lexer fuel p base build run state).1 = .error e → Failure g lexer p build good e
  | 0, run, state, row, _, e, hdrive => by
    obtain rfl : InternalProblem.outOfFuel.error = e := by simpa [drive] using hdrive
    exact .budget
  | fuel + 1, run, state, row, h, e, hdrive => by
    have hout : Outcome g a lexer (delegateWith lexer fuel) p base build good run state row _ :=
      step_outcome m hstart hempty h state
    rw [drive_succ] at hdrive
    cases hstep : step (delegateWith lexer fuel) lexer p base build run state with
    | stopped result stream1 state1 =>
      rw [hstep] at hout hdrive
      obtain rfl : result = .error e := hdrive
      cases hout with
      | fail hfail =>
        cases hfail with
        | lexing hnext => exact .lexing hnext
        | building hr hparts hbuild => exact .building hr hparts hbuild
        | unexpected token => exact .unexpected _ token
        | inner hother hrun _ => exact .inner hother (congrArg Prod.fst hrun)
    | running run1 state1 =>
      rw [hstep] at hout hdrive
      obtain ⟨row1, _, _, h1, _⟩ := hout.running hrespects h
      exact drive_failure hrespects fuel h1 hdrive

end Failures

/-! ## 4. Parsers of grammars -/

/-- A token without an action is an error of the text, not of the parser. -/
theorem unexpected_kind (p : Parser) (stack : List (Frame V)) (token : Token) :
    (p.unexpected stack token).kind ≠ .internal := by
  unfold unexpected
  split
  · exact ErrorKind.noConfusion
  · split
    · split <;> exact ErrorKind.noConfusion
    · exact ErrorKind.noConfusion

theorem stands_start (stream : Stream) : Stands a good (start stream : Run V) [] :=
  ⟨.nil, by simp, by simp [start]⟩

theorem respects_true : Respects g lexer build fun _ => True := ⟨fun _ => trivial, fun _ _ _ => trivial⟩

/-- The transcript of a parse with value `v` derives a word: the word is all that was delivered before
the last lookahead, the rules of the reductions, read backwards, are a rightmost derivation of its
kinds, and each reduction got the tokens and values that stand at its slots. -/
structure Transcript.Derives (g : Grammar) (t : Transcript V) (v : V) (word : List Token) :
    Prop where
  tokens : t.tokens = word ++ t.lookahead.toList
  derivation : g.RightDerives (t.reductions.reverse.map fun entry => entry.1.rule)
    [.nonterminal g.start] (word.map fun token => .terminal token.kind)
  children : Unfolds g t.reductions.reverse [.value g.start v] (word.map .token)

/-- **What is accepted is derived**, by the transcript of the parse. -/
theorem parse_derives {table : ParseTable} (hg : g.Proper)
    (hstart : .nonterminal g.start ∉ Grammar.rhsSymbols g.rules)
    (hempty : .terminal .empty ∉ Grammar.rhsSymbols g.rules)
    (htable : ParseTable.ofGrammar g = .ok table) (hp : p.table = table) {fuel : Nat}
    {stream stream' : Stream} {state state' : σ} {v : V}
    (h : p.parse lexer fuel base build stream state = (.ok v, stream', state')) :
    let t := transcript lexer p base build fuel (start stream) state
    ∃ word, t.Derives g v word ∧
      (.empty ∈ g.ends ∨ ∃ token, t.lookahead = some token ∧ token.kind ∈ g.ends) := by
  obtain ⟨a, paths, m⟩ := ParseTable.made_ofGrammar hg (hp.symm ▸ htable)
  have hnone : Unfolds g ([] : List (Reduction V × V)).reverse ([] : List (Grown V)).reverse
      (([] : List Token).map .token) := .refl _
  obtain ⟨word, htokens, hends, hunfolds⟩ :=
    drive_sound m hstart hempty respects_true fuel (stands_start stream) hnone h
  refine ⟨word, ⟨?_, ?_, ?_⟩, hends⟩
  · simpa [start] using htokens
  · have := hunfolds.rightDerives
    simpa [Grown.symbol, Function.comp_def] using this
  · simpa using hunfolds

/-- **Parsers are sound.**  Take any grammar that keeps its start nonterminal and the empty marker out
of its right-hand sides and has tables, and any parse with them.  If it ends in an internal error, then
the budget of steps was used up or the error is that of the lexer, of the builder, or of the parser of
another channel.  If it accepts, its transcript is a rightmost derivation of the tokens delivered
before the last lookahead. -/
theorem parse_sound {name : String} {rules : List Rule} {ends : List Terminal} {table : ParseTable}
    (hg : Grammar.ofRules name rules ends = .ok g)
    (hrules : ∀ X ∈ Grammar.rhsSymbols rules, X ≠ .nonterminal name ∧ X ≠ .terminal .empty)
    (htable : ParseTable.ofGrammar g = .ok table) (hp : p.table = table) (lexer : Lexer)
    (fuel : Nat) (base : String) (build : Builder V σ) (stream : Stream) (state : σ) :
    (∀ e, (p.parse lexer fuel base build stream state).1 = .error e → e.kind = .internal →
      e = InternalProblem.outOfFuel.error ∨
      (∃ mode s, lexer.next mode s = .error e) ∨
      (∃ r s s', build r s = (.error e, s')) ∨
      ∃ channel other budget mode s, p.inner? channel = some other ∧
        (other.parse lexer budget mode forget s ()).1 = .error e) ∧
    ∀ v stream' state', p.parse lexer fuel base build stream state = (.ok v, stream', state') →
      ∃ word, (transcript lexer p base build fuel (start stream) state).Derives g v word := by
  have hproper := Grammar.proper_ofRules hg
  obtain ⟨rfl, rfl, _, _⟩ := Grammar.ofRules_eq hg
  have hstart : .nonterminal g.start ∉ Grammar.rhsSymbols g.rules := fun h => (hrules _ h).1 rfl
  have hempty : .terminal .empty ∉ Grammar.rhsSymbols g.rules := fun h => (hrules _ h).2 rfl
  refine ⟨fun e herror hkind => ?_, fun v stream' state' hparse => ?_⟩
  · obtain ⟨a, paths, m⟩ := ParseTable.made_ofGrammar hproper (hp.symm ▸ htable)
    cases drive_failure m hstart hempty respects_true fuel (stands_start stream) herror with
    | budget => exact .inl rfl
    | lexing hnext => exact .inr (.inl ⟨_, _, hnext⟩)
    | building _ _ hbuild => exact .inr (.inr (.inl ⟨_, _, _, hbuild⟩))
    | unexpected stack token => exact absurd hkind (unexpected_kind p stack token)
    | inner hother hrun => exact .inr (.inr (.inr ⟨_, _, _, _, _, hother, hrun⟩))
  · obtain ⟨word, hderives, _⟩ := parse_derives hproper hstart hempty htable hp hparse
    exact ⟨word, hderives⟩

/-- A nested comment is read by the parser of comments, and its transcript derives it. -/
theorem parse_sound_comment : ∃ g table v stream word,
    Language.commentGrammar = .ok g ∧ ParseTable.ofGrammar g = .ok table ∧
    let p := Parser.ofTable table (.hidden Language.commentChannel) Language.commentDelimiters
    p.parse Language.lexer 32 Language.commentMode forget (.ofText "/*a/*b*/*/ c") () =
      (.ok v, stream, ()) ∧
    (transcript Language.lexer p Language.commentMode forget 32
      (start (.ofText "/*a/*b*/*/ c")) ()).Derives g v word := by
  obtain ⟨g, hg⟩ : ∃ g, Language.commentGrammar = .ok g := ⟨_, rfl⟩
  have hok : (Language.commentTable.toOption.map fun table =>
      ((Parser.ofTable table (.hidden Language.commentChannel) Language.commentDelimiters).parse
        Language.lexer 32 Language.commentMode forget (.ofText "/*a/*b*/*/ c") ()).1.toOption) =
      some (some ()) := by decide +kernel
  obtain ⟨table, htable, hrun⟩ := Option.map_eq_some_iff.mp hok
  have htable := eq_ok_of_bind_toOption hg htable
  set p := Parser.ofTable table (.hidden Language.commentChannel) Language.commentDelimiters
  obtain ⟨stream, _, hparse⟩ := exists_eq_ok hrun
  obtain ⟨word, hword⟩ := (parse_sound hg (by decide) htable rfl Language.lexer 32
    Language.commentMode forget (.ofText "/*a/*b*/*/ c") ()).2 () stream () hparse
  exact ⟨g, table, (), stream, word, hg, htable, hparse, hword⟩

end Lode.Parser
