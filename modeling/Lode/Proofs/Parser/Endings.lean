/-
# Every run of a parser ends

The steps of a parser are bounded by the length of the text.  What is left of the text, counted from behind
the token that was shifted last, and the weight of the stack together get less with every step
(`Outcome.falls`): a token is worth more in the text than on the stack, and reductions make the stack
lighter.

Empty rules are the difficulty.  They put something on the stack and take nothing, and a lookahead is read
before it is shifted, so neither the length of the stack nor the unread text will do.  The weights of a
grammar pay for them in advance: what a state can still go on with before the next token is covered by what
lies on the stack (`wants_le`).

So a budget of steps is only a way to write a recursion down.  `Ends` says what a run comes to without one,
given what the parsers of other channels come to; and with a budget above the bound, that is what `drive`
computes (`drive_ends`).  Whoever reasons about a whole parse works with `Ends` and with `Leads`, the runs on
the way, and never with fuel.

Parsers of other channels are parsers of their own, with a stack and a budget of their own.  One that has no
others and reads something whenever it accepts (`Alone`) comes to something on every stream, and that is
what a step of the outer parser relies on (`delegates_settled`).
-/
import Lode.Proofs.Grammar.Weights
import Lode.Proofs.Lexing
import Lode.Proofs.Parser.Soundness

namespace Lode.Parser

variable {V σ : Type} {g : Grammar} {a : Automaton} {lexer : Lexer} {delegate : Delegate} {p : Parser}
  {base : String} {build : Builder V σ} {good : Grown V → Prop}

/-! ## 1. What is left of the text -/

/-- What is unread is in lines, and the lookahead in hand took something from it, if it is not the end. -/
structure Run.Held (run : Run V) : Prop where
  lined : run.stream.cursor.Lined
  rest : run.rest.Lined
  takes : ∀ token ∈ run.lookahead, token.kind ≠ .eof → run.stream.cursor.size < run.rest.size

/-- Without a lookahead in hand only the lines matter. -/
theorem Run.held_of_none {run : Run V} (hlook : run.lookahead = none) (hlined : run.stream.cursor.Lined) :
    run.Held := by
  refine ⟨hlined, ?_, ?_⟩
  · rw [Run.rest, hlook]
    exact hlined
  · intro token htoken
    rw [hlook] at htoken
    cases htoken

/-- Looking at a token does not change what is left. -/
theorem Sees.rest {run : Run V} {look : Option Token} {stream : Stream} {new : List Token}
    (h : Sees lexer p base run look stream new) (hheld : run.Held) (stack : List (Frame V)) :
    (⟨stack, look, run.previous, stream⟩ : Run V).rest = run.rest ∧
      (⟨stack, look, run.previous, stream⟩ : Run V).Held := by
  cases h with
  | @held token hlook =>
    have hrest : (⟨stack, some token, run.previous, run.stream⟩ : Run V).rest = run.rest := by
      rw [Run.rest, Run.rest, hlook]
    refine ⟨hrest, hheld.lined, hrest ▸ hheld.rest, ?_⟩
    rintro _ ⟨⟩ hkind
    rw [hrest]
    exact hheld.takes token hlook hkind
  | free hlook =>
    exact ⟨by rw [Run.rest, Run.rest, hlook], Run.held_of_none rfl hheld.lined⟩
  | @read token _ hlook _ hnext _ =>
    have hrest : (⟨stack, some token, run.previous, stream⟩ : Run V).rest = run.rest := by
      rw [Run.rest, Run.rest, hlook]
      simp [Lexer.last_next hnext]
    refine ⟨hrest, Lexer.lined_next hnext hheld.lined, hrest ▸ hheld.rest, ?_⟩
    rintro _ ⟨⟩ hkind
    rw [hrest, Run.rest, hlook]
    exact ((Lexer.size_next hnext).resolve_left fun h => hkind h.1).2

/-! ## 2. Every step takes something -/

/-- A parser with tables of a grammar, and weights of its symbols for which a token is worth more in the
text than on the stack. -/
structure Weighed (p : Parser) (g : Grammar) (a : Automaton) (w : Weights) (byte : Nat) : Prop where
  made : ∃ paths, ParseTable.Made g p.table a paths
  start : .nonterminal g.start ∉ Grammar.rhsSymbols g.rules
  empty : .terminal .empty ∉ Grammar.rhsSymbols g.rules
  eof : .terminal .eof ∉ Grammar.rhsSymbols g.rules
  fits : w.Fits g.start g.rules
  byte : ∀ t, w.top (.terminal t) < byte

/-- The weight of the stack and what is left of the text. -/
def potential (w : Weights) (byte : Nat) (row : List (Grown V)) (run : Run V) : Nat :=
  w.weight (row.map Grown.symbol) + byte * run.rest.size

theorem potential_start (w : Weights) (byte : Nat) (stream : Stream) :
    potential w byte [] (start stream : Run V) = w.bottom + byte * stream.cursor.size := by
  rw [potential, Weights.weight, List.map_nil, Weights.load, List.map_nil, List.sum_nil, Nat.zero_add]
  rfl

namespace Weighed

variable {w : Weights} {byte : Nat} (h : Weighed p g a w byte)
include h

theorem tracks : a.Tracks g := by
  obtain ⟨paths, m⟩ := h.made
  exact m.tracks

theorem outcome {run : Run V} {row : List (Grown V)} (hstands : Stands a good run row) (state : σ) :
    Outcome g a lexer delegate p base build good run state row
      (step delegate lexer p base build run state) := by
  obtain ⟨paths, m⟩ := h.made
  exact step_outcome m h.start h.empty hstands state

/-- What a state can go on with is paid for by the row of symbols on the stack. -/
theorem wants_le {stack : List (Frame V)} {row : List (Grown V)} (hlinked : Linked a stack row)
    {X : Symbol} {target : StateId} (hgoto : a.goto? (topState stack) X = some target) :
    w.wants X ≤ w.spareOver (row.map Grown.symbol) := by
  obtain ⟨paths, m⟩ := h.made
  obtain ⟨hbottom, hspare⟩ := h.fits.wants_le m.tracks m.proper
  obtain ⟨i, hi, hbefore⟩ := m.tracks.before hgoto
  cases hlinked with
  | nil => exact hbottom i hi X hbefore
  | cons hlast _ _ => exact hspare hlast i hi X hbefore

/-- **A reduction makes the stack lighter.** -/
theorem weight_reduce {stack : List (Frame V)} {parts below : List (Grown V)} {r : Reduction V} {v : V}
    {target : StateId} (hlinked : Linked a stack (parts.reverse ++ below)) (hred : Reduces g r parts)
    (hid : r.rule ≠ g.startRule)
    (hgoto : a.goto? (topState (stack.drop parts.length)) (.nonterminal r.lhs) = some target) :
    w.weight ((Grown.value r.lhs v :: below).map Grown.symbol) <
      w.weight ((parts.reverse ++ below).map Grown.symbol) := by
  obtain ⟨paths, m⟩ := h.made
  have hstart : (g.rule r.rule).lhs ≠ g.start := fun heq =>
    hid (m.proper.startRule_unique _ hred.rule_lt heq)
  have hbelow := hlinked.drop parts.length
  rw [List.drop_left' (List.length_reverse ..)] at hbelow
  have hcredit := h.wants_le hbelow hgoto
  rw [List.map_cons, List.map_append, List.map_reverse, Grown.symbol, hred.lhs]
  rw [hred.lhs] at hcredit
  exact h.fits.reduce hred.rule_lt hstart hred.slots (.inl hcredit)

end Weighed

section Steps

variable {w : Weights} {byte : Nat} (h : Weighed p g a w byte) {run run' : Run V} {state state' : σ}
  {row : List (Grown V)}
include h

/-- **Every step that goes on takes something** from the stack or the text, if the parsers of other
channels take something when they succeed. -/
theorem Outcome.falls (hrespects : Respects g lexer build good)
    (hdelegate : ∀ name other, p.inner? name = some other → ∀ mode stream after,
      delegate other mode stream = (.ok (), after) → stream.cursor.Lined →
      after.cursor.Lined ∧ after.cursor.size < stream.cursor.size)
    (hstands : Stands a good run row) (hheld : run.Held)
    (hout : Outcome g a lexer delegate p base build good run state row (.running run' state')) :
    ∃ row', Stands a good run' row' ∧ run'.Held ∧ potential w byte row' run' < potential w byte row run := by
  have hbyte : 0 < byte := Nat.lt_of_le_of_lt (Nat.zero_le _) (h.byte .eof)
  cases hout with
  | @skip stream hlook _ hskips =>
    -- what is passed over takes something: a token, or what another parser read
    have hleft : stream.cursor.Lined ∧ stream.cursor.size < run.rest.size := by
      rw [Run.rest, hlook]
      cases hskips with
      | drop hnext hchannel =>
        refine ⟨Lexer.lined_next hnext hheld.lined, ?_⟩
        refine ((Lexer.size_next hnext).resolve_left fun heof => ?_).2
        simp [heof.2.1] at hchannel
      | @inner _ stream _ _ _ _ hnext _ _ hother hrewind hrun =>
        rw [Stream.rewind?_eq (Lexer.last_next hnext)] at hrewind
        obtain rfl := Option.some.inj hrewind
        exact hdelegate _ _ hother _ { stream with cursor := run.stream.cursor, last := none } _ hrun
          hheld.lined
    obtain ⟨hlined, hsize⟩ := hleft
    refine ⟨row, hstands.skip stream, Run.held_of_none rfl hlined, ?_⟩
    exact Nat.add_lt_add_left (Nat.mul_lt_mul_of_pos_left hsize hbyte) _
  | @shift token stream new target hsees hgoto =>
    obtain ⟨hrest, hheld'⟩ := hsees.rest hheld run.stack
    refine ⟨_, hstands.shift hrespects hsees hgoto, Run.held_of_none rfl hheld'.lined, ?_⟩
    -- the end of the text is never shifted, so the token has bytes
    have hkind : token.kind ≠ .eof := by
      intro hkind
      obtain ⟨i, -, hbefore⟩ := h.tracks.before hgoto
      exact h.eof (hkind ▸ hbefore.mem_rhsSymbols)
    have hsize := hheld'.takes token rfl hkind
    rw [hrest] at hsize
    have htoken := h.byte token.kind
    have hmul : byte * (stream.cursor.size + 1) ≤ byte * run.rest.size := Nat.mul_le_mul_left _ hsize
    rw [Nat.mul_add, Nat.mul_one] at hmul
    have hweight : w.weight ((Grown.token token :: row).map Grown.symbol) =
        w.top (.terminal token.kind) + w.load (row.map Grown.symbol) := w.weight_cons ..
    rw [potential, potential, hweight, Weights.weight]
    change _ + byte * stream.cursor.size < _
    omega
  | @reduce look stream new r parts below v _ target hsees hrow hred _ hid hbuild hgoto =>
    subst hrow
    obtain ⟨hrest, hheld'⟩ := hsees.rest hheld (⟨target, .value v, r.span⟩ :: run.stack.drop parts.length)
    refine ⟨_, hstands.reduce hrespects hsees rfl hred hbuild hgoto, hheld', ?_⟩
    -- nothing is read, and the stack gets lighter
    rw [potential, potential, hrest]
    exact Nat.add_lt_add_right (h.weight_reduce hstands.linked hred hid hgoto) _

end Steps

/-! ## 3. What a run comes to -/

/-- What a run comes to: its steps are made until one of them stops. -/
inductive Ends (delegate : Delegate) (lexer : Lexer) (p : Parser) (base : String) (build : Builder V σ) :
    Run V → σ → Except Error V × Stream × σ → Prop
  | stop {run : Run V} {state state' : σ} {result : Except Error V} {stream : Stream} :
      step delegate lexer p base build run state = .stopped result stream state' →
      Ends delegate lexer p base build run state (result, stream, state')
  | go {run run' : Run V} {state state' : σ} {out : Except Error V × Stream × σ} :
      step delegate lexer p base build run state = .running run' state' →
      Ends delegate lexer p base build run' state' out → Ends delegate lexer p base build run state out

/-- A run comes to one thing only. -/
theorem Ends.unique {run : Run V} {state : σ} {out out' : Except Error V × Stream × σ}
    (h : Ends delegate lexer p base build run state out)
    (h' : Ends delegate lexer p base build run state out') : out = out' := by
  induction h with
  | stop hstep =>
    cases h' with
    | stop hstep' =>
      obtain ⟨rfl, rfl, rfl⟩ := Progress.stopped.inj (hstep.symm.trans hstep')
      rfl
    | go hstep' _ => cases hstep.symm.trans hstep'
  | go hstep _ ih =>
    cases h' with
    | stop hstep' => cases hstep.symm.trans hstep'
    | go hstep' h' =>
      obtain ⟨rfl, rfl⟩ := Progress.running.inj (hstep.symm.trans hstep')
      exact ih h'

/-- From one run the parser gets to another, step by step. -/
inductive Leads (delegate : Delegate) (lexer : Lexer) (p : Parser) (base : String) (build : Builder V σ) :
    Run V → σ → Run V → σ → Prop
  | refl (run : Run V) (state : σ) : Leads delegate lexer p base build run state run state
  | go {run run' last : Run V} {state state' lastState : σ} :
      step delegate lexer p base build run state = .running run' state' →
      Leads delegate lexer p base build run' state' last lastState →
      Leads delegate lexer p base build run state last lastState

theorem Leads.trans {run run' last : Run V} {state state' lastState : σ}
    (h : Leads delegate lexer p base build run state run' state')
    (h' : Leads delegate lexer p base build run' state' last lastState) :
    Leads delegate lexer p base build run state last lastState := by
  induction h with
  | refl => exact h'
  | go hstep _ ih => exact .go hstep (ih h')

/-- What a run comes to is what the runs come to that it leads to. -/
theorem Leads.ends_iff {run last : Run V} {state lastState : σ}
    (h : Leads delegate lexer p base build run state last lastState) {out : Except Error V × Stream × σ} :
    Ends delegate lexer p base build run state out ↔ Ends delegate lexer p base build last lastState out := by
  induction h with
  | refl => exact .rfl
  | go hstep _ ih =>
    rw [← ih]
    refine ⟨fun hends => ?_, .go hstep⟩
    cases hends with
    | stop hstop => cases hstep.symm.trans hstop
    | go hstep' hends =>
      obtain ⟨rfl, rfl⟩ := Progress.running.inj (hstep.symm.trans hstep')
      exact hends

/-- A step asks other parsers only about the stream as it is. -/
theorem step_delegate_congr {delegate' : Delegate} {run : Run V}
    (h : ∀ name other, p.inner? name = some other → ∀ mode stream, stream.cursor = run.stream.cursor →
      delegate other mode stream = delegate' other mode stream) (state : σ) :
    step delegate lexer p base build run state = step delegate' lexer p base build run state := by
  unfold step
  cases run.lookahead with
  | some token => rfl
  | none =>
    cases p.table.lookaheadFree? (topState run.stack) with
    | some action => rfl
    | none =>
      dsimp only
      cases hnext : lexer.next (p.modeOver base run.stack) run.stream with
      | error e => rfl
      | ok result =>
        obtain ⟨token, stream⟩ := result
        dsimp only
        split
        · rfl
        · cases token.channel with
          | default => rfl
          | all => rfl
          | hidden name =>
            dsimp only
            cases hother : p.inner? name with
            | none => rfl
            | some other =>
              dsimp only
              rw [Stream.rewind?_eq (Lexer.last_next hnext)]
              dsimp only
              rw [h name other hother _ { stream with cursor := run.stream.cursor, last := none } rfl]

/-- What the parsers of other channels come to, without a budget: they come to it with every budget that
is large enough for the text, and if they succeed, they take something. -/
structure Delegates (lexer : Lexer) (p : Parser) (byte slack : Nat) (delegate : Delegate) : Prop where
  agrees : ∀ {name other}, p.inner? name = some other → ∀ mode stream fuel, stream.cursor.Lined →
    byte * stream.cursor.size + slack ≤ fuel →
    delegateWith lexer fuel other mode stream = delegate other mode stream
  takes : ∀ {name other}, p.inner? name = some other → ∀ mode stream after,
    delegate other mode stream = (.ok (), after) → stream.cursor.Lined →
    after.cursor.Lined ∧ after.cursor.size < stream.cursor.size

section Runs

variable {w : Weights} {byte slack : Nat} (h : Weighed p g a w byte)
  (hdelegate : Delegates lexer p byte slack delegate) (hrespects : Respects g lexer build good)
include h hdelegate hrespects

/-- **Runs end**, and with a budget above the potential they are carried to their end. -/
theorem drive_ends : ∀ {fuel : Nat} {run : Run V} {state : σ} {row : List (Grown V)},
    Stands a good run row → run.Held → potential w byte row run + slack < fuel →
    Ends delegate lexer p base build run state (drive lexer fuel p base build run state)
  | fuel + 1, run, state, row, hstands, hheld, hfuel => by
    have hstep : step (delegateWith lexer fuel) lexer p base build run state =
        step delegate lexer p base build run state := by
      cases hlook : run.lookahead with
      | some token => simp only [step, hlook]
      | none =>
        refine step_delegate_congr (fun name other hother mode stream hcursor => ?_) state
        refine hdelegate.agrees hother mode stream fuel (hcursor ▸ hheld.lined) ?_
        rw [potential, Run.rest, hlook, ← hcursor] at hfuel
        dsimp only at hfuel
        omega
    have hout : Outcome g a lexer delegate p base build good run state row _ := h.outcome hstands state
    rw [drive_succ, hstep]
    cases hresult : step delegate lexer p base build run state with
    | stopped result stream state' => exact .stop hresult
    | running run' state' =>
      rw [hresult] at hout
      obtain ⟨row', hstands', hheld', hfalls⟩ :=
        Outcome.falls h hrespects (fun _ _ hother => hdelegate.takes hother) hstands hheld hout
      exact .go hresult (drive_ends hstands' hheld' (by omega))

/-- What a run comes to is the outcome of a last step, when no more is left than at its beginning. -/
theorem Ends.outcome {run : Run V} {state : σ} {out : Except Error V × Stream × σ}
    (hends : Ends delegate lexer p base build run state out) :
    ∀ {row : List (Grown V)}, Stands a good run row → run.Held →
    ∃ run' row' state', Stands a good run' row' ∧ run'.Held ∧
      potential w byte row' run' ≤ potential w byte row run ∧
      Outcome g a lexer delegate p base build good run' state' row' (.stopped out.1 out.2.1 out.2.2) := by
  induction hends with
  | @stop run state _ _ _ hstep =>
    intro row hstands hheld
    exact ⟨run, row, state, hstands, hheld, Nat.le_refl _, hstep ▸ h.outcome hstands state⟩
  | @go run _ state _ _ hstep _ ih =>
    intro row hstands hheld
    obtain ⟨_, hstands', hheld', hfalls⟩ := Outcome.falls h hrespects
      (fun _ _ hother => hdelegate.takes hother) hstands hheld (hstep ▸ h.outcome hstands state)
    obtain ⟨run', row', state', hstands', hheld', hle, hout⟩ := ih hstands' hheld'
    exact ⟨run', row', state', hstands', hheld', Nat.le_trans hle hfalls.le, hout⟩

variable {run : Run V} {row : List (Grown V)} {state state' : σ} {stream : Stream}
  (hstands : Stands a good run row) (hheld : run.Held)
include hstands hheld

/-- What is left behind an accepting run, and the start rule, weigh no more than what was there before. -/
theorem Ends.accepted {v : V} (hends : Ends delegate lexer p base build run state (.ok v, stream, state')) :
    stream.cursor.Lined ∧
      w.leastRow (g.rule g.startRule).rhs + byte * stream.cursor.size ≤ potential w byte row run := by
  obtain ⟨run', row', _, _, hheld', hle, hout⟩ := hends.outcome h hdelegate hrespects hstands hheld
  cases hout with
  | @accept look stream' _ new r parts _ _ hsees hrow hred _ hid hbuild hends hrest =>
    obtain ⟨hseen, hheld'⟩ := hsees.rest hheld' run'.stack
    have hslots := hred.slots
    rw [hid] at hslots
    have hpaid : w.leastRow (g.rule g.startRule).rhs ≤ w.weight (row'.map Grown.symbol) := by
      rw [hrow, List.map_reverse]
      have hchoice := Weights.leastRow_le (w := w) hslots
      generalize (g.rule g.startRule).rhs = rhs at hchoice
      cases rhs with
      | nil => exact Nat.zero_le _
      | cons slot slots => simpa [Weights.load] using hchoice (List.cons_ne_nil _ _) []
    rw [hrest]
    refine ⟨hheld'.rest, Nat.le_trans ?_ hle⟩
    rw [hseen, potential]
    exact Nat.add_le_add_right hpaid _

/-- **Why a run fails.** -/
theorem Ends.failure {e : Error} (hends : Ends delegate lexer p base build run state (.error e, stream, state')) :
    ∃ run' : Run V, run'.Held ∧ StepFailure g lexer delegate p base build good run' e := by
  obtain ⟨run', _, _, _, hheld', _, hout⟩ := hends.outcome h hdelegate hrespects hstands hheld
  cases hout with
  | fail hfail => exact ⟨run', hheld', hfail⟩

end Runs

/-! ## 4. Parsers of other channels -/

/-- What a parser of another channel comes to with a budget that is large enough for the text. -/
def settled (lexer : Lexer) (byte slack : Nat) : Delegate := fun other mode stream =>
  delegateWith lexer (byte * stream.cursor.size + slack) other mode stream

/-- A parser of a channel that has no others and reads something whenever it accepts. -/
structure Alone (p : Parser) (byte slack : Nat) : Prop where
  inner : ∀ name, p.inner? name = none
  weighed : ∃ g a w, Weighed p g a w byte ∧ w.bottom < slack ∧ w.bottom < w.leastRow (g.rule g.startRule).rhs

/-- A parser that is alone needs no others. -/
theorem Alone.delegates {byte slack : Nat} (h : Alone p byte slack) (delegate : Delegate) :
    Delegates lexer p byte 0 delegate := by
  constructor <;> intro name other hother <;> rw [h.inner name] at hother <;> cases hother

/-- A parser that is alone comes to what it is driven to, whatever the other parsers are. -/
theorem Alone.ends {byte slack : Nat} (h : Alone p byte slack) (lexer : Lexer) (base : String)
    (delegate : Delegate) {stream : Stream} {fuel : Nat} (hlined : stream.cursor.Lined)
    (hfuel : byte * stream.cursor.size + slack ≤ fuel) :
    Ends delegate lexer p base forget (start stream) () (drive lexer fuel p base forget (start stream) ()) := by
  obtain ⟨g, a, w, hweighed, hslack, -⟩ := h.weighed
  refine drive_ends hweighed (h.delegates _) respects_true (stands_start stream)
    (Run.held_of_none rfl hlined) ?_
  rw [potential_start]
  omega

/-- What a parser that is alone comes to. -/
theorem Alone.ends_settled {byte slack : Nat} (h : Alone p byte slack) {stream after : Stream}
    {result : Except Error Unit} (hlined : stream.cursor.Lined)
    (hresult : settled lexer byte slack p base stream = (result, after)) :
    Ends (settled lexer byte slack) lexer p base forget (start stream) () (result, after, ()) := by
  have hends := h.ends lexer base (settled lexer byte slack) hlined (Nat.le_refl _)
  rw [settled, delegateWith] at hresult
  generalize drive lexer (byte * stream.cursor.size + slack) p base forget (start stream) () = out
    at hresult hends
  obtain ⟨_, _, _⟩ := out
  obtain ⟨rfl, rfl⟩ := Prod.mk.inj hresult
  exact hends

/-- Why a parser that is alone fails. -/
theorem Alone.failure {byte slack : Nat} (h : Alone p byte slack) {stream after : Stream} {e : Error}
    (hlined : stream.cursor.Lined) (hresult : settled lexer byte slack p base stream = (.error e, after)) :
    ∃ (g : Grammar) (run : Run Unit), run.Held ∧
      StepFailure g lexer (settled lexer byte slack) p base forget (fun _ => True) run e := by
  obtain ⟨g, a, w, hweighed, -, -⟩ := h.weighed
  exact ⟨g, (h.ends_settled hlined hresult).failure hweighed (h.delegates _) respects_true
    (stands_start stream) (Run.held_of_none rfl hlined)⟩

/-- **Parsers of other channels come to something.** -/
theorem delegates_settled {byte slack : Nat}
    (h : ∀ {name other}, p.inner? name = some other → Alone other byte slack) :
    Delegates lexer p byte slack (settled lexer byte slack) := by
  constructor
  · intro name other hother mode stream fuel hlined hfuel
    have heq := ((h hother).ends lexer mode (settled lexer byte slack) hlined hfuel).unique
      ((h hother).ends lexer mode _ hlined (Nat.le_refl _))
    rw [settled, delegateWith, delegateWith, heq]
  · intro name other hother mode stream after hok hlined
    obtain ⟨g, a, w, hweighed, -, hbottom⟩ := (h hother).weighed
    obtain ⟨hleft, hpaid⟩ := ((h hother).ends_settled hlined hok).accepted hweighed ((h hother).delegates _)
      respects_true (stands_start stream) (Run.held_of_none rfl hlined)
    rw [potential_start] at hpaid
    exact ⟨hleft, Nat.lt_of_mul_lt_mul_left (a := byte) (by omega)⟩

end Lode.Parser
