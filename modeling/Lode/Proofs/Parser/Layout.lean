/-
# How parts lie on the stack

The parts on the stack of a parser keep their places in reading order, and all of them lie between the
beginning of the text and the lookahead (`Run.Laid`).  No part begins before one below it, but parts may
overlap: an empty right-hand side gets the gap from the token shifted last to the lookahead, and the next
one gets the same gap again.  So that a part begins where the ones below it have ended is only known of
those that begin with a token, and what begins with such a part is one itself (`Lays.firm`).

With places in order, the place of a right-hand side lies around its parts and below the lookahead, which is
what a builder needs to keep places in order in its values too (`Lays.holds`).  What a value has to keep to
is a parameter: the builder says what it means for a child to hold in a place.

Two things are said about runs.  That no place ends before it begins holds of every run whatever the tables
are (`Visits.checked`), since it only takes that the stream goes forward (`Stream.Past`).  That the parts
keep their places holds of the parsers of a grammar (`Visits.laid`), since it takes that a reduction finds
the right-hand side of its rule.  Both are about the runs that a parse goes through (`Visits`), so they hold
also where it fails later.
-/
import Lode.Proofs.Parser.Soundness
import Lode.Proofs.Parser.Spans
import Lode.Proofs.Tiling

namespace Lode

/-! ## 1. Reading order -/

namespace Position

variable {a b c : Position}

/-- Positions in reading order. -/
instance : LE Position := ⟨fun a b => b.before a = false⟩

theorem le_iff : a ≤ b ↔ a.line < b.line ∨ a.line = b.line ∧ a.col ≤ b.col := by
  change b.before a = false ↔ _
  rw [before_eq_false_iff, eq_comm]

instance : Preorder Position where
  le_refl _ := le_iff.mpr (.inr ⟨rfl, Nat.le_refl _⟩)
  le_trans _ _ _ hab hbc := by
    rw [le_iff] at *
    omega

theorem le_of_before (h : a.before b = true) : a ≤ b := by
  rw [before_iff] at h
  rw [le_iff]
  omega

theorem earlier_le_left : a.earlier b ≤ a := by
  unfold earlier
  split
  · exact le_of_before ‹_›
  · exact le_refl a

theorem earlier_le_right : a.earlier b ≤ b := by
  unfold earlier
  split
  · exact le_refl b
  · exact Bool.eq_false_of_not_eq_true ‹_›

theorem le_earlier (ha : c ≤ a) (hb : c ≤ b) : c ≤ a.earlier b := by
  unfold earlier
  split <;> assumption

theorem le_later_left : a ≤ a.later b := by
  unfold later
  split
  · exact le_of_before ‹_›
  · exact le_refl a

theorem le_later_right : b ≤ a.later b := by
  unfold later
  split
  · exact le_refl b
  · exact Bool.eq_false_of_not_eq_true ‹_›

theorem later_le (ha : a ≤ c) (hb : b ≤ c) : a.later b ≤ c := by
  unfold later
  split <;> assumption

end Position

namespace Span

/-- A place lies inside of another. -/
structure Inside (s t : Span) : Prop where
  start : t.start ≤ s.start
  stop : s.stop ≤ t.stop

variable {s t u : Span}

theorem Inside.refl (s : Span) : s.Inside s := ⟨le_refl _, le_refl _⟩

theorem Inside.trans (h : s.Inside t) (h' : t.Inside u) : s.Inside u :=
  ⟨h'.start.trans h.start, h.stop.trans h'.stop⟩

theorem inside_join_left (s t : Span) : s.Inside (s.join t) := ⟨Position.earlier_le_left, Position.le_later_left⟩

theorem inside_join_right (s t : Span) : t.Inside (s.join t) :=
  ⟨Position.earlier_le_right, Position.le_later_right⟩

theorem Inside.join (hs : s.Inside u) (ht : t.Inside u) : (s.join t).Inside u :=
  ⟨Position.le_earlier hs.start ht.start, Position.later_le hs.stop ht.stop⟩

/-- A cover lies around all places, and inside of whatever lies around them. -/
theorem cover_least {spans : List Span} (h : cover spans = some s) :
    (∀ t ∈ spans, t.Inside s) ∧ ∀ u, (∀ t ∈ spans, t.Inside u) → s.Inside u := by
  have hfold : ∀ (spans : List Span) (first : Span),
      (∀ t ∈ first :: spans, t.Inside (spans.foldl Span.join first)) ∧
        ∀ u, (∀ t ∈ first :: spans, t.Inside u) → (spans.foldl Span.join first).Inside u := by
    intro spans
    induction spans with
    | nil => exact fun first => ⟨by simpa using Inside.refl first, fun u hu => hu _ List.mem_cons_self⟩
    | cons s spans ih =>
      intro first
      obtain ⟨haround, hleast⟩ := ih (first.join s)
      obtain ⟨hjoin, hspans⟩ := List.forall_mem_cons.mp haround
      refine ⟨List.forall_mem_cons.mpr ⟨(inside_join_left first s).trans hjoin,
        List.forall_mem_cons.mpr ⟨(inside_join_right first s).trans hjoin, hspans⟩⟩, fun u hu => ?_⟩
      obtain ⟨hfirst, hrest⟩ := List.forall_mem_cons.mp hu
      obtain ⟨hs, hspans⟩ := List.forall_mem_cons.mp hrest
      exact hleast u (List.forall_mem_cons.mpr ⟨hfirst.join hs, hspans⟩)
  cases spans with
  | nil => cases h
  | cons first spans =>
    obtain rfl := Option.some.inj h
    exact hfold spans first

end Span

/-! ## 2. Where a stream stands -/

section Streams

variable {lines : List (List Char)} {p : Position}

/-- The cursor stands in some lines, and the next token does not begin before a position. -/
structure Cursor.Past (lines : List (List Char)) (p : Position) (c : Cursor) : Prop where
  stands : ∃ read, c.Stands lines read
  le : p ≤ if c.unread = [] then Stream.endOfLines lines else c.position

/-- The stream reads some lines, and neither the next token nor the one that may be taken back begins
before a position. -/
structure Stream.Past (lines : List (List Char)) (p : Position) (s : Stream) : Prop where
  finish : s.finish = endOfLines lines
  cursor : s.cursor.Past lines p
  last : ∀ {span c}, s.last = some (span, c) → c.Past lines p

theorem Cursor.Past.mono {q : Position} {c : Cursor} (h : c.Past lines q) (hp : p ≤ q) : c.Past lines p :=
  ⟨h.stands, hp.trans h.le⟩

/-- A token as it stands in some lines: one of these characters, or the end. -/
structure Token.Stands (lines : List (List Char)) (token : Token) : Prop where
  ordered : token.span.Ordered
  covers : token.kind ≠ .eof → ∃ read, token.span.Covers lines read token.text.toList

section Next

variable {lexer : Lexer} {mode : String} {s s' : Stream} {token : Token} (hlines : Lines lines)
include hlines

/-- **The next token** begins behind what was read, and the stream goes on where it ends. -/
theorem Lexer.past_next (hfinish : s.finish = Stream.endOfLines lines) (hcursor : s.cursor.Past lines p)
    (h : lexer.next mode s = .ok (token, s')) :
    token.Stands lines ∧ p ≤ token.span.start ∧ s'.cursor.Past lines token.span.stop ∧
      s'.finish = s.finish := by
  obtain ⟨⟨read, hstands⟩, hle⟩ := hcursor
  refine ⟨⟨ordered_next h, ?_⟩, ?_⟩
  all_goals
    rcases next_cases h with ⟨hend, rfl, rfl⟩ | ⟨_, _, front, back, behind, -, -, hchooses, htook⟩
  · exact fun hkind => absurd rfl hkind
  · intro _
    rw [htook.text, String.toList_ofList]
    exact ⟨read, (htook.moves hchooses.ne_nil hlines hstands).1⟩
  · rw [if_pos hend, ← hfinish] at hle
    refine ⟨hle, ⟨⟨read, hstands⟩, ?_⟩, rfl⟩
    rw [show s.produceEof.2.cursor = s.cursor from rfl, if_pos hend, ← hfinish]
    exact le_refl s.finish
  · have hunread : s.cursor.unread ≠ [] := by
      rw [htook.unread]
      exact List.cons_ne_nil _ _
    obtain ⟨-, hstands', hnext⟩ := htook.moves hchooses.ne_nil hlines hstands
    refine ⟨?_, ⟨⟨_, hstands'⟩, ?_⟩, htook.finish⟩
    · rwa [if_neg hunread, ← show token.span.start = s.cursor.position by rw [htook.span]] at hle
    · rw [← hnext, Token.next]
      split
      · exact Position.le_iff.mpr (.inl (Nat.lt_succ_self _))
      · exact le_refl _

theorem Stream.Past.next (h : s.Past lines p) (hnext : lexer.next mode s = .ok (token, s')) :
    s'.Past lines p := by
  obtain ⟨hstands, hle, hcursor, hfinish⟩ := Lexer.past_next hlines h.finish h.cursor hnext
  refine ⟨hfinish.trans h.finish, hcursor.mono (hle.trans hstands.ordered), fun hlast => ?_⟩
  obtain ⟨-, rfl⟩ := Prod.mk.inj (Option.some.inj (hlast.symm.trans (Lexer.last_next hnext)))
  exact h.cursor

end Next

/-- Taking a token back does not go behind the position. -/
theorem Stream.Past.rewind {s s' : Stream} {token : Token} (h : s.Past lines p)
    (hrewind : s.rewind? token = some s') : s'.Past lines p := by
  unfold rewind? at hrewind
  split at hrewind
  · rename_i hlast
    split at hrewind
    · obtain rfl := Option.some.inj hrewind
      exact ⟨h.finish, h.last hlast, nofun⟩
    · cases hrewind
  · cases hrewind

theorem Stream.past_ofText (text : String) :
    (ofText text).Past (splitLines text.toList) ⟨1, 0⟩ := by
  obtain ⟨htiled, hfinish, -⟩ := (@Handed.start text).tiled
  exact ⟨hfinish, ⟨⟨_, htiled.stands⟩, htiled.beginning_eq ▸ le_refl _⟩, nofun⟩

end Streams

namespace Parser

variable {V σ : Type} {lexer : Lexer} {delegate : Delegate} {p : Parser} {base : String} {build : Builder V σ}

/-! ## 3. The runs of a parse -/

/-- The stream after a step. -/
def Progress.stream : Progress V σ → Stream
  | .running run _ => run.stream
  | .stopped _ stream _ => stream

section Streams

variable {S : Stream → Prop} {run : Run V}
  (hrewind : ∀ {s token s'}, S s → s.rewind? token = some s' → S s')
include hrewind

/-- An action reads nothing, and takes back no more than the lookahead. -/
theorem perform_stream (h : S run.stream) (state : σ) (action : Action) :
    S (perform p base build run state action).stream := by
  cases action with
  | shift target =>
    unfold perform
    cases run.lookahead <;> exact h
  | reduce id =>
    change S (reduce p base build run state id).stream
    unfold reduce
    split
    · exact h
    · dsimp only
      split
      · exact h
      · split <;> exact h
  | accept id =>
    change S (accept p base build run state id).stream
    unfold accept
    split
    · exact h
    · split
      · exact h
      · dsimp only
        split
        · exact h
        · split
          · exact h
          · split
            · rename_i hback
              exact hrewind h hback
            · exact h

/-- What holds of streams when tokens are read and taken back holds after a step, if the parsers of other
channels keep it. -/
theorem step_stream (hnext : ∀ {mode s token s'}, S s → lexer.next mode s = .ok (token, s') → S s')
    (hdelegate : ∀ other mode {s}, S s → S (delegate other mode s).2) (h : S run.stream) (state : σ) :
    S (step delegate lexer p base build run state).stream := by
  have hconsult : ∀ {run : Run V} (token : Token), S run.stream →
      S (consult p base build run state token).stream := by
    intro run token h
    have hlook : S ({ run with lookahead := some token } : Run V).stream := h
    unfold consult
    dsimp only
    split
    · exact perform_stream hrewind hlook state _
    · exact h
  unfold step
  split
  · exact hconsult _ h
  · exact perform_stream hrewind h state _
  · dsimp only
    split
    · exact h
    · rename_i token stream hread
      have hstream := hnext h hread
      split
      · exact hconsult token hstream
      · split
        · split
          · exact hstream
          · split
            · exact hstream
            · rename_i other _ _ before hback
              have hother := hdelegate other (p.modeOver base run.stack) (hrewind hstream hback)
              split <;> (rename_i hrun; rw [hrun] at hother; exact hother)
        · exact hstream

end Streams

/-- What holds of streams when tokens are read and taken back holds after a parse. -/
theorem drive_stream {S : Stream → Prop}
    (hnext : ∀ {mode s token s'}, S s → lexer.next mode s = .ok (token, s') → S s')
    (hrewind : ∀ {s token s'}, S s → s.rewind? token = some s' → S s') :
    ∀ (fuel : Nat) {V σ : Type} (p : Parser) (base : String) (build : Builder V σ) (run : Run V) (state : σ),
      S run.stream → S (drive lexer fuel p base build run state).2.1
  | 0, _, _, _, _, _, _, _, h => h
  | fuel + 1, _, _, p, base, build, run, state, h => by
    have ih := @drive_stream S hnext hrewind fuel
    have hdelegate : ∀ other mode {s}, S s → S (delegateWith lexer fuel other mode s).2 :=
      fun other mode s hs => ih other mode forget (start s) () hs
    have hstep : S (step (delegateWith lexer fuel) lexer p base build run state).stream :=
      step_stream hrewind hnext hdelegate h state
    rw [drive_succ]
    cases hresult : step (delegateWith lexer fuel) lexer p base build run state with
    | stopped result stream state' =>
      rw [hresult] at hstep
      exact hstep
    | running run' state' =>
      rw [hresult] at hstep
      exact ih p base build run' state' hstep

/-- The runs that a parse goes through, with any budget. -/
inductive Visits (lexer : Lexer) (p : Parser) (base : String) (build : Builder V σ) (first : Run V)
    (firstState : σ) : Run V → σ → Prop
  | first : Visits lexer p base build first firstState first firstState
  | step {fuel : Nat} {run run' : Run V} {state state' : σ} :
      Visits lexer p base build first firstState run state →
      Parser.step (delegateWith lexer fuel) lexer p base build run state = .running run' state' →
      Visits lexer p base build first firstState run' state'

/-- What a parse accepts is what a step of a run gives that it goes through. -/
theorem Visits.exists_last {first : Run V} {firstState : σ} : ∀ {fuel : Nat} {run : Run V} {state : σ},
    Visits lexer p base build first firstState run state →
    ∀ {v}, (drive lexer fuel p base build run state).1 = .ok v →
    ∃ fuel last lastState stream state', Visits lexer p base build first firstState last lastState ∧
      Parser.step (delegateWith lexer fuel) lexer p base build last lastState = .stopped (.ok v) stream state'
  | 0, _, _, _, _, h => by cases h
  | fuel + 1, run, state, hvisits, v, h => by
    rw [drive_succ] at h
    cases hstep : Parser.step (delegateWith lexer fuel) lexer p base build run state with
    | stopped result stream state' =>
      rw [hstep] at h
      obtain rfl : result = .ok v := h
      exact ⟨fuel, run, state, stream, state', hvisits, hstep⟩
    | running run' state' =>
      rw [hstep] at h
      exact (hvisits.step hstep).exists_last h

/-- The places that a parse makes next are ordered: that of a token, and those that are gone through to
cover the parts of a right-hand side one after the other. -/
structure Run.Checked (lexer : Lexer) (run : Run V) : Prop where
  token : ∀ {mode token stream}, lexer.next mode run.stream = .ok (token, stream) → token.span.Ordered
  place : ∀ {count frames below front} (look : Option Token),
    popFrames count run.stack = .ok (frames, below) → front <+: frames →
      (spanOf front run.previous look).Ordered

/-- **No place ends before it begins** in any run, whatever the tables and the lexer are. -/
theorem Visits.checked {stream : Stream} {run : Run V} {state₀ state : σ}
    (h : Visits lexer p base build (start stream) state₀ run state) : run.Checked lexer := by
  have hordered : run.Ordered := by
    induction h with
    | first => exact ⟨by simp [start], by simp [start]⟩
    | @step fuel run run' state state' _ hstep ih =>
      obtain ⟨-, hordered⟩ := @step_congr V σ lexer (delegateWith lexer fuel) p base build build
        (fun _ _ _ => rfl) run ih state
      rw [hstep] at hordered
      exact hordered
  refine ⟨Lexer.ordered_next, fun look hpop hfront => ordered_spanOf (fun frame hframe => ?_) run.previous look⟩
  exact hordered.stack frame ((mem_of_popFrames hpop).1 frame (hfront.subset hframe))

/-! ## 4. Places on the stack -/

section Places

variable (lines : List (List Char)) (firm : Child V → Prop) (holds : Span → Child V → Prop)

/-- Of two parts, the upper one begins no earlier, and behind the lower one if it is firm. -/
def Above (upper lower : Frame V) : Prop :=
  lower.span.start ≤ upper.span.start ∧ (firm upper.child → lower.span.stop ≤ upper.span.start)

/-- Where the parts on the stack end at the latest. -/
def Run.bound (run : Run V) : Position := run.lookahead.elim run.previous.stop (·.span.start)

/-- How the parts of a run lie in its text. -/
structure Run.Laid (run : Run V) : Prop where
  finish : run.stream.finish = Stream.endOfLines lines
  cursor : run.stream.cursor.Past lines (run.lookahead.elim run.previous.stop (·.span.stop))
  lookahead : ∀ token ∈ run.lookahead, token.Stands lines ∧ run.previous.stop ≤ token.span.start
  start : ∀ frame ∈ run.stack, frame.span.start ≤ run.previous.stop
  stop : ∀ frame ∈ run.stack, frame.span.stop ≤ run.bound
  ordered : ∀ frame ∈ run.stack, frame.span.Ordered
  holds : ∀ frame ∈ run.stack, holds frame.span frame.child
  above : run.stack.Pairwise (Above firm)

/-- The parts of a right-hand side, in reading order, fill a place. -/
structure Fills (frames : List (Frame V)) (span : Span) : Prop where
  ordered : span.Ordered
  inside : ∀ frame ∈ frames, frame.span.Inside span
  alone : ∀ frame, frames = [frame] → span = frame.span
  holds : ∀ frame ∈ frames, holds frame.span frame.child
  above : frames.Pairwise fun lower upper => Above firm upper lower

/-- The builder keeps to the places of the parts, and what it builds is firm only if it begins with a firm
part. -/
structure Lays (g : Grammar) (build : Builder V σ) : Prop where
  holds : ∀ {r parts frames state v state'}, Reduces g r parts → r.children = frames.map Frame.child →
    Fills firm holds frames r.span → build r state = (.ok v, state') → holds r.span (.value v)
  firm : ∀ {r parts state v state'}, Reduces g r parts → r.rule ≠ g.startRule →
    build r state = (.ok v, state') → firm (.value v) → ∃ first ∈ r.children.head?, firm first

end Places

section Steps

variable {lines : List (List Char)} {firm : Child V → Prop} {holds : Span → Child V → Prop} {run : Run V}

theorem laid_start {stream : Stream} (h : stream.Past lines ⟨1, 0⟩) : (start stream).Laid lines firm holds :=
  ⟨h.finish, h.cursor, nofun, nofun, nofun, nofun, nofun, .nil⟩

theorem Run.Laid.le_bound (h : run.Laid lines firm holds) : run.previous.stop ≤ run.bound := by
  unfold Run.bound
  cases hlook : run.lookahead with
  | none => exact le_refl _
  | some token => exact (h.lookahead token hlook).2

/-- **The place of some parts** lies around them and below the lookahead.  It begins with the first of them,
or where the token shifted last ended if there are none. -/
theorem Run.Laid.place (h : run.Laid lines firm holds) {frames : List (Frame V)}
    (hmem : ∀ frame ∈ frames, frame ∈ run.stack) :
    (∀ frame ∈ frames, frame.span.Inside (spanOf frames run.previous run.lookahead)) ∧
      (spanOf frames run.previous run.lookahead).start ≤ run.previous.stop ∧
      (spanOf frames run.previous run.lookahead).stop ≤ run.bound ∧
      ∀ p ≤ run.previous.stop, (∀ frame ∈ frames, p ≤ frame.span.start) →
        p ≤ (spanOf frames run.previous run.lookahead).start := by
  have hle := h.le_bound
  unfold spanOf
  cases hcover : Span.cover (frames.map (·.span)) with
  | some span =>
    obtain ⟨haround, hleast⟩ := Span.cover_least hcover
    have hinside : ∀ frame ∈ frames, frame.span.Inside span := fun frame hframe =>
      haround _ (List.mem_map_of_mem hframe)
    -- the cover is the least place around the parts
    have hwithin : ∀ p, (∀ frame ∈ frames, p ≤ frame.span.start) → span.Inside ⟨p, run.bound⟩ := by
      intro p hp
      refine hleast _ fun t ht => ?_
      obtain ⟨frame, hframe, rfl⟩ := List.mem_map.mp ht
      exact ⟨hp frame hframe, h.stop frame (hmem frame hframe)⟩
    obtain ⟨first, hfirst⟩ : ∃ first, first ∈ frames := by
      cases frames with
      | nil => cases hcover
      | cons first rest => exact ⟨first, List.mem_cons_self⟩
    have hstart := (hinside first hfirst).start.trans (h.start first (hmem first hfirst))
    have hstop := (hwithin span.start fun frame hframe => (hinside frame hframe).start).stop
    exact ⟨hinside, hstart, hstop, fun p _ hp => (hwithin p hp).start⟩
  | none =>
    have hnil : frames = [] := by
      cases frames with
      | nil => rfl
      | cons => cases hcover
    subst hnil
    -- without parts the place is the gap in front of the lookahead
    unfold Run.bound at hle ⊢
    cases hlook : run.lookahead with
    | none => exact ⟨nofun, le_refl _, le_refl _, fun p hp _ => hp⟩
    | some token =>
      rw [hlook] at hle
      dsimp only [Option.elim_some]
      unfold Span.between
      split
      · exact ⟨nofun, le_refl _, le_refl _, fun p hp _ => hp⟩
      · exact ⟨nofun, le_refl _, hle, fun p hp _ => hp⟩

/-- The topmost parts fill the place that they are reduced to. -/
theorem Run.Laid.fills (h : run.Laid lines firm holds) (count : Nat) :
    Fills firm holds (run.stack.take count).reverse
      (spanOf (run.stack.take count).reverse run.previous run.lookahead) := by
  have hmem : ∀ frame ∈ (run.stack.take count).reverse, frame ∈ run.stack := fun frame hframe =>
    List.mem_of_mem_take (List.mem_reverse.mp hframe)
  refine ⟨ordered_spanOf (fun frame hframe => h.ordered frame (hmem frame hframe)) _ _, (h.place hmem).1, ?_,
    fun frame hframe => h.holds frame (hmem frame hframe), ?_⟩
  · intro frame heq
    rw [heq]
    rfl
  · exact List.pairwise_reverse.mpr (h.above.sublist (List.take_sublist _ _))

/-- Passing over something keeps the places. -/
theorem Run.Laid.skip (hlines : Lines lines) (h : run.Laid lines firm holds) (hlook : run.lookahead = none)
    {fuel : Nat} {stream : Stream} (hskips : Skips lexer (delegateWith lexer fuel) p base run stream) :
    (⟨run.stack, none, run.previous, stream⟩ : Run V).Laid lines firm holds := by
  have hcursor := h.cursor
  have hstop := h.stop
  rw [hlook] at hcursor
  rw [Run.bound, hlook] at hstop
  have hstream : stream.finish = Stream.endOfLines lines ∧ stream.cursor.Past lines run.previous.stop := by
    cases hskips with
    | drop hnext _ _ =>
      obtain ⟨hstands, hle, hpast, hfinish⟩ := Lexer.past_next hlines h.finish hcursor hnext
      exact ⟨hfinish.trans h.finish, hpast.mono (hle.trans hstands.ordered)⟩
    | @inner _ read _ _ _ other hnext _ _ _ hrewind hrun =>
      obtain ⟨-, -, -, hfinish⟩ := Lexer.past_next hlines h.finish hcursor hnext
      rw [Stream.rewind?_eq (Lexer.last_next hnext)] at hrewind
      obtain rfl := Option.some.inj hrewind
      have hbefore : ({ read with cursor := run.stream.cursor, last := none } : Stream).Past lines
          run.previous.stop := ⟨hfinish.trans h.finish, hcursor, nofun⟩
      have hafter : stream.Past lines run.previous.stop := by
        rw [← show (delegateWith lexer fuel other _ _).2 = stream from congrArg Prod.snd hrun]
        exact drive_stream (fun hs hnext => Stream.Past.next hlines hs hnext) Stream.Past.rewind fuel other
          (p.modeOver base run.stack) forget (Parser.start _) () hbefore
      exact ⟨hafter.finish, hafter.cursor⟩
  exact ⟨hstream.1, hstream.2, nofun, h.start, hstop, h.ordered, h.holds, h.above⟩

/-- Looking at a token keeps the places. -/
theorem Run.Laid.sees (hlines : Lines lines) (h : run.Laid lines firm holds) {look : Option Token}
    {stream : Stream} {new : List Token} (hsees : Sees lexer p base run look stream new) :
    (⟨run.stack, look, run.previous, stream⟩ : Run V).Laid lines firm holds := by
  cases hsees with
  | held hlook => exact hlook ▸ h
  | free hlook _ => exact hlook ▸ h
  | @read token _ hlook _ hnext _ =>
    have hcursor := h.cursor
    have hstop := h.stop
    rw [hlook] at hcursor
    rw [Run.bound, hlook] at hstop
    obtain ⟨hstands, hle, hpast, hfinish⟩ := Lexer.past_next hlines h.finish hcursor hnext
    refine ⟨hfinish.trans h.finish, hpast, ?_, h.start, fun frame hframe => (hstop frame hframe).trans hle,
      h.ordered, h.holds, h.above⟩
    rintro _ ⟨⟩
    exact ⟨hstands, hle⟩

/-- Shifting a token keeps the places. -/
theorem Run.Laid.shift (h : run.Laid lines firm holds) {token : Token} (hlook : run.lookahead = some token)
    (hholds : holds token.span (.token token)) (target : StateId) :
    (⟨⟨target, .token token, token.span⟩ :: run.stack, none, token.span, run.stream⟩ : Run V).Laid lines firm
      holds := by
  obtain ⟨hstands, hle⟩ := h.lookahead token hlook
  have hcursor := h.cursor
  have hstop := h.stop
  rw [hlook] at hcursor
  rw [Run.bound, hlook] at hstop
  have hordered : token.span.start ≤ token.span.stop := hstands.ordered
  refine ⟨h.finish, hcursor, nofun, ?_, ?_, ?_, ?_, List.pairwise_cons.mpr ⟨fun frame hframe => ?_, h.above⟩⟩
  · exact List.forall_mem_cons.mpr ⟨hordered, fun frame hframe =>
      (h.start frame hframe).trans (hle.trans hordered)⟩
  · exact List.forall_mem_cons.mpr ⟨le_refl _, fun frame hframe => (hstop frame hframe).trans hordered⟩
  · exact List.forall_mem_cons.mpr ⟨hordered, h.ordered⟩
  · exact List.forall_mem_cons.mpr ⟨hholds, h.holds⟩
  · exact ⟨(h.start frame hframe).trans hle, fun _ => hstop frame hframe⟩

/-- A reduction keeps the places. -/
theorem Run.Laid.reduce (h : run.Laid lines firm holds) {count : Nat} {v : V}
    (hholds : holds (spanOf (run.stack.take count).reverse run.previous run.lookahead) (.value v))
    (hfirm : firm (.value v) → ∃ first ∈ (run.stack.take count).reverse.head?, firm first.child)
    (target : StateId) :
    ({ run with stack := ⟨target, .value v, spanOf (run.stack.take count).reverse run.previous run.lookahead⟩ ::
      run.stack.drop count } : Run V).Laid lines firm holds := by
  have hfills := h.fills count
  have hmem : ∀ frame ∈ (run.stack.take count).reverse, frame ∈ run.stack := fun frame hframe =>
    List.mem_of_mem_take (List.mem_reverse.mp hframe)
  have hdrop : ∀ frame ∈ run.stack.drop count, frame ∈ run.stack := fun _ => List.mem_of_mem_drop
  obtain ⟨-, hstart, hstop, hbegins⟩ := h.place hmem
  have habove := h.above
  rw [← List.take_append_drop count run.stack] at habove
  obtain ⟨-, hbelow, hacross⟩ := List.pairwise_append.mp habove
  refine ⟨h.finish, h.cursor, h.lookahead, ?_, ?_, ?_, ?_, List.pairwise_cons.mpr ⟨fun lower hlower => ?_, hbelow⟩⟩
  · exact List.forall_mem_cons.mpr ⟨hstart, fun frame hframe => h.start frame (hdrop frame hframe)⟩
  · exact List.forall_mem_cons.mpr ⟨hstop, fun frame hframe => h.stop frame (hdrop frame hframe)⟩
  · exact List.forall_mem_cons.mpr ⟨hfills.ordered, fun frame hframe => h.ordered frame (hdrop frame hframe)⟩
  · exact List.forall_mem_cons.mpr ⟨hholds, fun frame hframe => h.holds frame (hdrop frame hframe)⟩
  have hover : ∀ frame ∈ (run.stack.take count).reverse, Above firm frame lower := fun frame hframe =>
    hacross frame (List.mem_reverse.mp hframe) lower hlower
  refine ⟨hbegins _ (h.start lower (hdrop lower hlower)) fun frame hframe => (hover frame hframe).1, fun hv => ?_⟩
  -- the first part begins where the lower one has ended, and the others no earlier than the first
  obtain ⟨first, hhead, hfirst⟩ := hfirm hv
  obtain ⟨rest, hsplit⟩ := List.head?_eq_some_iff.mp hhead
  have hfirstmem : first ∈ (run.stack.take count).reverse := by simp [hsplit]
  have hends := (hover first hfirstmem).2 hfirst
  have hordered := hfills.above
  rw [hsplit] at hordered
  refine hbegins _ (hends.trans (h.start first (hmem first hfirstmem))) fun frame hframe => ?_
  rw [hsplit] at hframe
  rcases List.mem_cons.mp hframe with rfl | hframe
  · exact hends
  · exact hends.trans ((List.pairwise_cons.mp hordered).1 frame hframe).1

end Steps

/-! ## 5. Runs -/

section Runs

variable {g : Grammar} {a : Automaton} {lines : List (List Char)} {firm : Child V → Prop}
  {holds : Span → Child V → Prop} {run : Run V} {row : List (Grown V)} {state : σ} {fuel : Nat}

/-- The children of a reduction are those of the topmost frames. -/
theorem Linked.children_of_reduces {stack : List (Frame V)} (h : Linked a stack row) {parts below : List (Grown V)}
    (hrow : row = parts.reverse ++ below) {r : Reduction V} (hred : Reduces g r parts) :
    r.children = (stack.take parts.length).reverse.map Frame.child := by
  have hparts : row.take parts.length = parts.reverse := by rw [hrow, List.take_left' (List.length_reverse ..)]
  rw [hred.children, List.map_reverse, List.map_take, h.children, ← List.map_take, hparts, List.map_reverse,
    List.reverse_reverse]

variable (hlines : Lines lines) (heof : .terminal .eof ∉ Grammar.rhsSymbols g.rules)
  (hlays : Lays firm holds g build)
include hlines hlays

/-- What is accepted keeps to a place. -/
theorem Outcome.holds_accepted (hlinked : Linked a run.stack row) (h : run.Laid lines firm holds) {v : V}
    {stream : Stream} {state' : σ} {good : Grown V → Prop}
    (hout : Outcome g a lexer delegate p base build good run state row (.stopped (.ok v) stream state')) :
    ∃ span, holds span (.value v) := by
  cases hout with
  | @accept look stream _ new r parts _ _ hsees hrow hred hspan hid hbuild hends =>
    have hfills := (h.sees hlines hsees).fills parts.length
    have hchildren := hlinked.children_of_reduces (hrow.trans (List.append_nil _).symm) hred
    exact ⟨r.span, hlays.holds hred hchildren (hspan ▸ hfills) hbuild⟩

include heof

/-- **A step keeps the places.** -/
theorem Outcome.laid (htracks : a.Tracks g) (hlinked : Linked a run.stack row) (h : run.Laid lines firm holds)
    {run' : Run V} {state' : σ} {good : Grown V → Prop}
    (hout : Outcome g a lexer (delegateWith lexer fuel) p base build good run state row (.running run' state'))
    (htoken : ∀ frame ∈ run'.stack, ∀ token, frame.child = .token token → token.Stands lines →
      token.kind ≠ .eof → holds token.span (.token token)) :
    run'.Laid lines firm holds := by
  cases hout with
  | skip hlook _ hskips => exact h.skip hlines hlook hskips
  | @shift token stream new target hsees hgoto =>
    have hsees := h.sees hlines hsees
    have hstands := (hsees.lookahead token rfl).1
    have hkind : token.kind ≠ .eof := by
      intro hkind
      obtain ⟨i, -, hbefore⟩ := htracks.before hgoto
      exact heof (hkind ▸ hbefore.mem_rhsSymbols)
    exact hsees.shift rfl (htoken _ List.mem_cons_self token rfl hstands hkind) target
  | @reduce look stream new r parts below v _ target hsees hrow hred hspan hid hbuild hgoto =>
    have hsees := h.sees hlines hsees
    have hchildren := hlinked.children_of_reduces hrow hred
    have hholds : holds r.span (.value v) := hlays.holds hred hchildren (hspan ▸ hsees.fills parts.length) hbuild
    rw [hspan] at hholds ⊢
    refine hsees.reduce hholds (fun hv => ?_) target
    obtain ⟨first, hhead, hfirst⟩ := hlays.firm hred hid hbuild hv
    rw [hchildren, List.head?_map] at hhead
    obtain ⟨frame, hframe, rfl⟩ := Option.map_eq_some_iff.mp hhead
    exact ⟨frame, hframe, hfirst⟩

variable {paths : List PathRule} (m : ParseTable.Made g p.table a paths)
  (hstart : .nonterminal g.start ∉ Grammar.rhsSymbols g.rules)
  (hempty : .terminal .empty ∉ Grammar.rhsSymbols g.rules) {stream : Stream} {state₀ : σ}
  (hstream : stream.Past lines ⟨1, 0⟩)
  (htoken : ∀ {run : Run V} {state : σ}, Visits lexer p base build (start stream) state₀ run state →
    ∀ frame ∈ run.stack, ∀ token, frame.child = .token token → token.Stands lines → token.kind ≠ .eof →
      holds token.span (.token token))
include m hstart hempty hstream htoken

/-- **All runs of a parse** have their parts in order. -/
theorem Visits.laid (h : Visits lexer p base build (start stream) state₀ run state) :
    (∃ row, Stands a (fun _ => True) run row) ∧ run.Laid lines firm holds := by
  induction h with
  | first => exact ⟨⟨[], stands_start stream⟩, laid_start hstream⟩
  | @step fuel run run' state state' hvisits hstep ih =>
    obtain ⟨⟨row, hstands⟩, hlaid⟩ := ih
    have hout := @step_outcome V σ g a lexer (delegateWith lexer fuel) p base build _ paths m hstart hempty run row
      hstands state
    rw [hstep] at hout
    obtain ⟨row', -, -, hstands', -⟩ := hout.running respects_true hstands
    exact ⟨⟨row', hstands'⟩,
      hout.laid hlines heof hlays m.tracks hstands.linked hlaid (htoken (hvisits.step hstep))⟩

/-- **What a parse accepts** keeps to a place. -/
theorem holds_of_drive {fuel : Nat} {v : V}
    (h : (drive lexer fuel p base build (start stream) state₀).1 = .ok v) : ∃ span, holds span (.value v) := by
  have hfirst : Visits lexer p base build (start stream) state₀ (start stream) state₀ := .first
  obtain ⟨fuel, last, lastState, after, state', hvisits, hstep⟩ := hfirst.exists_last h
  obtain ⟨⟨row, hstands⟩, hlaid⟩ := hvisits.laid hlines heof hlays m hstart hempty hstream htoken
  have hout := @step_outcome V σ g a lexer (delegateWith lexer fuel) p base build _ paths m hstart hempty last row
    hstands lastState
  rw [hstep] at hout
  exact hout.holds_accepted hlines hlays hstands.linked hlaid

end Runs

end Parser

end Lode
