/-
# The parser on its way through a declaration

A configuration says where the parser stands, up to places in the text: the spots on its stack with what was
read there (`Mark`), the token in hand, and the characters that are left.  `Reaches` leads from one
configuration to another in at most so many steps.  It goes from every run that stands at the first to some
run that stands at the second, so places and the states of tables are left behind, and runs over texts with
the same words are treated as one.

There are three steps: a blank is passed over (`reaches_skip`), a token is shifted (`reaches_shift`), a rule
is reduced (`reaches_reduce`).  What the tables do at a spot is known from the list of spots, and what a
rule builds of marks is said rule by rule where it is used (`Builds`).

In texts whose words have blanks before them, a word is shifted and a rule reduced either with the word in
hand or after its blank (`Config.held`, `Config.unread`).  Which of the two it is depends on whether a rule
was reduced before the word: a reduction looks at the next word and leaves it in hand.  So section 4 has
each step twice, and what is read of an expression begins with a word not yet looked at and ends with one in
hand.
-/
import Lode.Proofs.Language.Precedence
import Lode.Proofs.Language.Spelling

namespace Lode.Language

/-! ## 1. Configurations -/

/-- What was read, up to places. -/
inductive Mark where
  | word (kind text : String)
  | tree (n : Node)
  | trees (ns : List Node)
  | text (s : String)

/-- What stands on the stack for a mark. -/
def Mark.Matches : Mark → Child Piece → Prop
  | .word kind w, .token t => t.kind = .kind kind ∧ t.text = w
  | .tree n, .value (.node m) => m.unplaced = n.unplaced
  | .trees ns, .value (.list ms) => ms.map Node.unplaced = ns.map Node.unplaced
  | .text s, .value (.text s') => s' = s
  | _, _ => False

/-- The spots of a stack with what was read there, the top first. -/
abbrev Track := List (Spot × Mark)

namespace Track

/-- The spot on top. -/
def top : Track → Spot
  | [] => .start
  | entry :: _ => entry.1

/-- The mode in which the parser reads. -/
def mode : Track → String
  | [] => defaultMode
  | entry :: track => entry.1.mode.getD (mode track)

end Track

/-- Where the parser stands. -/
structure Config where
  track : Track
  /-- The token in hand, its kind and its text. -/
  look : Option (Terminal × String)
  /-- What is left of the text. -/
  rest : List Char

/-- The stack of a run is that of a track. -/
def Stacked (p : Parser) : List (Parser.Frame Piece) → Track → Prop :=
  List.Forall₂ fun frame entry => frame.state = stateOf p.table entry.1 ∧ entry.2.Matches frame.child

/-- A run stands at a configuration. -/
structure Config.Holds (c : Config) (p : Parser) (run : Parser.Run Piece) : Prop where
  stacked : Stacked p run.stack c.track
  none : c.look = none → run.lookahead = none
  some : ∀ kind text, c.look = some (kind, text) → ∃ token cursor, run.lookahead = some token ∧
    token.kind = kind ∧ token.text = text ∧ run.stream.last = some (token.span, cursor)
  stream : run.stream.At c.rest

/-- In at most so many steps the parser gets from one configuration to another. -/
def Reaches (p : Parser) (count : Nat) (c c' : Config) : Prop :=
  ∀ run, c.Holds p run → ∃ n ≤ count, ∃ run', c'.Holds p run' ∧
    ∀ fuel, Parser.drive lexer (n + fuel) p defaultMode builder run () =
      Parser.drive lexer fuel p defaultMode builder run' ()

namespace Reaches

variable {p : Parser} {count count' : Nat} {c c' c'' : Config}

theorem refl (p : Parser) (c : Config) : Reaches p 0 c c :=
  fun run hrun => ⟨0, Nat.le_refl 0, run, hrun, fun fuel => by rw [Nat.zero_add]⟩

/-- Steps go on from where other steps ended. -/
theorem trans (h : Reaches p count c c') (h' : Reaches p count' c' c'') :
    Reaches p (count + count') c c'' := by
  intro run hrun
  obtain ⟨n, hn, run', hrun', hdrive⟩ := h run hrun
  obtain ⟨n', hn', run'', hrun'', hdrive'⟩ := h' run' hrun'
  refine ⟨n + n', Nat.add_le_add hn hn', run'', hrun'', fun fuel => ?_⟩
  rw [Nat.add_assoc, hdrive, hdrive']

theorem mono (h : Reaches p count c c') (hle : count ≤ count') : Reaches p count' c c' := by
  intro run hrun
  obtain ⟨n, hn, rest⟩ := h run hrun
  exact ⟨n, Nat.le_trans hn hle, rest⟩

/-- One step. -/
theorem of_step (h : ∀ run, c.Holds p run → ∃ run', c'.Holds p run' ∧
    ∀ delegate, Parser.step delegate lexer p defaultMode builder run () = .running run' ()) :
    Reaches p 1 c c' := by
  intro run hrun
  obtain ⟨run', hrun', hstep⟩ := h run hrun
  refine ⟨1, Nat.le_refl 1, run', hrun', fun fuel => ?_⟩
  rw [Nat.add_comm, Parser.drive_eq_resume, hstep]
  rfl

end Reaches

/-! ## 2. Stacks -/

section Stacks

variable {p : Parser} {stack : List (Parser.Frame Piece)} {track : Track}

theorem Stacked.topState (h : Stacked p stack track) :
    Parser.topState stack = stateOf p.table track.top := by
  cases h with
  | nil => rfl
  | cons hframe _ => exact hframe.1

/-- The mode of the stack is that of the topmost spots. -/
theorem Stacked.modeOver (h : Stacked p stack track) (hreads : Reads p) :
    p.modeOver defaultMode stack = track.mode := by
  induction h with
  | nil =>
    have hmode : p.table.mode? 0 = none := hreads.spots.mode .start
    simp [Parser.modeOver, hmode, Track.mode]
  | cons hframe _ ih => rw [Parser.modeOver_cons, hframe.1, hreads.spots.mode, ih, Track.mode]

end Stacks

theorem Reads.lookaheadFree? {p : Parser} (h : Reads p) (s : StateId) : p.table.lookaheadFree? s = none := by
  obtain ⟨a, paths, m⟩ := h.made
  exact Parser.lookaheadFree?_eq_none (m.action?_empty h.empty_not_mem (by simp [h.ends])) s

/-! ## 3. Steps -/

/-- The next token: the one in hand, or the next one of the text. -/
inductive Shows (mode : String) : Option (Terminal × String) → List Char → Terminal → String →
    List Char → Prop
  | held (kind : Terminal) (text : String) (rest : List Char) :
      Shows mode (some (kind, text)) rest kind text rest
  | read {front rest : List Char} {kind : Terminal} {channel : Channel} :
      Lexes lexer mode front rest kind channel → channel = .all ∨ channel = .default →
      Shows mode none (front ++ rest) kind (String.ofList front) rest

section Steps

variable {p : Parser} (hreads : Reads p) {track : Track} {look : Option (Terminal × String)}
  {cs rest : List Char} {kind : Terminal} {text : String}
include hreads

/-- A blank is passed over. -/
theorem reaches_skip (hmode : track.mode = defaultMode) {c : Char} (hc : isSpace c = false) :
    Reaches p 1 ⟨track, none, ' ' :: c :: cs⟩ ⟨track, none, c :: cs⟩ := by
  refine .of_step fun run hrun => ?_
  obtain ⟨token, stream, hnext, -, -, hchannel, hstream⟩ := lexes_blank hc run.stream hrun.stream
  have hread : lexer.next (p.modeOver defaultMode run.stack) run.stream = .ok (token, stream) := by
    rw [hrun.stacked.modeOver hreads, hmode, hnext]
  refine ⟨⟨run.stack, none, run.previous, stream⟩, ⟨hrun.stacked, fun _ => rfl, by simp, hstream⟩,
    fun delegate => ?_⟩
  exact Parser.step_skip (hrun.none rfl) (hreads.lookaheadFree? _) hread hchannel
    (by rw [hreads.channel]; exact Channel.noConfusion) hreads.blanks

/-- The token that an action sees. -/
theorem sees_of_shows {run : Parser.Run Piece} (hrun : Config.Holds ⟨track, look, cs⟩ p run)
    (hshows : Shows track.mode look cs kind text rest) : ∃ token stream new cursor,
    Parser.Sees lexer p defaultMode run (some token) stream new ∧ token.kind = kind ∧ token.text = text ∧
      stream.last = some (token.span, cursor) ∧ stream.At rest := by
  cases hshows with
  | held _ _ _ =>
    obtain ⟨token, cursor, hlook, hkind, htext, hlast⟩ := hrun.some _ _ rfl
    exact ⟨token, run.stream, [], cursor, .held hlook, hkind, htext, hlast, hrun.stream⟩
  | read hlexes hchannel =>
    obtain ⟨token, stream, hnext, hkind, htext, hchannel', hstream⟩ := hlexes run.stream hrun.stream
    have hread : lexer.next (p.modeOver defaultMode run.stack) run.stream = .ok (token, stream) := by
      rw [hrun.stacked.modeOver hreads, hnext]
    have htakes : (token.channel == .all || token.channel == p.channel) = true := by
      rw [hchannel', hreads.channel]
      rcases hchannel with rfl | rfl <;> rfl
    exact ⟨token, stream, [token], _, .read (hrun.none rfl) (hreads.lookaheadFree? _) hread htakes, hkind,
      htext, Lexer.last_next hread, hstream⟩

/-- A token is shifted. -/
theorem reaches_shift {kind : String} {next : Spot} (hshift : track.top.shift kind = some next)
    (hkind : kind ∈ Spot.kinds) (hshows : Shows track.mode look cs (.kind kind) text rest) :
    Reaches p 1 ⟨track, look, cs⟩ ⟨(next, .word kind text) :: track, none, rest⟩ := by
  refine .of_step fun run hrun => ?_
  obtain ⟨token, stream, new, cursor, hsees, htoken, htext, -, hstream⟩ := sees_of_shows hreads hrun hshows
  have haction : p.table.action? (Parser.topState run.stack) token.kind =
      some (.shift (stateOf p.table next)) := by
    rw [hrun.stacked.topState, htoken]
    exact hreads.spots.shift hshift hkind
  refine ⟨⟨⟨stateOf p.table next, .token token, token.span⟩ :: run.stack, none, token.span, stream⟩,
    ⟨.cons ⟨rfl, htoken, htext⟩ hrun.stacked, fun _ => rfl, by simp, hstream⟩, fun delegate => ?_⟩
  rw [Parser.step_perform hsees haction]
  rfl

/-- What a rule builds from what stands at its slots. -/
def Builds (label : Option String) (marks : List Mark) (mark : Mark) : Prop :=
  ∀ r : Reduction Piece, r.label = label → List.Forall₂ Mark.Matches marks r.children →
    ∃ v, build r = .ok v ∧ mark.Matches (.value v)

/-- A rule is reduced. -/
theorem reaches_reduce {lhs : String} {label : Option String} (parts below : Track) {next : Spot}
    {mark : Mark} (hcompleted : (parts ++ below).top.completed = some ⟨lhs, parts.length, label⟩)
    (hkind : kind ∈ (parts ++ below).top.lookaheads) (hgoto : below.top.goto lhs = some next)
    (hname : lhs ∈ Spot.names) (hbuilds : Builds label (parts.map Prod.snd).reverse mark)
    (hshows : Shows (parts ++ below).mode look cs kind text rest) :
    Reaches p 1 ⟨parts ++ below, look, cs⟩ ⟨(next, mark) :: below, some (kind, text), rest⟩ := by
  refine .of_step fun run hrun => ?_
  obtain ⟨token, stream, new, cursor, hsees, htoken, htext, hlast, hstream⟩ :=
    sees_of_shows hreads hrun hshows
  obtain ⟨id, haction, hshape⟩ := hreads.spots.reduce hcompleted hkind
  obtain ⟨rfl, hlength, rfl⟩ : (p.table.grammar.rule id).lhs = lhs ∧
      (p.table.grammar.rule id).rhs.length = parts.length ∧ (p.table.grammar.rule id).label = label := by
    simpa [Spot.shapeOf] using hshape
  have haction : p.table.action? (Parser.topState run.stack) token.kind = some (.reduce id) := by
    rw [hrun.stacked.topState, htoken, haction]
  -- the frames of the right-hand side, and those below
  have hparts : Stacked p (run.stack.take parts.length) parts := by
    have h := List.forall₂_take parts.length hrun.stacked
    rwa [List.take_left] at h
  have hbelow : Stacked p (run.stack.drop parts.length) below := by
    have h := List.forall₂_drop parts.length hrun.stacked
    rwa [List.drop_left] at h
  have hle : parts.length ≤ run.stack.length := by
    rw [hrun.stacked.length_eq, List.length_append]
    exact Nat.le_add_right _ _
  have hchildren : List.Forall₂ Mark.Matches (parts.map Prod.snd).reverse
      ((run.stack.take parts.length).reverse.map Parser.Frame.child) := by
    rw [← List.map_reverse, List.forall₂_map_left_iff, List.forall₂_map_right_iff, List.forall₂_reverse_iff]
    exact (hparts.imp fun _ _ h => h.2).flip
  have htarget : p.table.goto? (Parser.topState (run.stack.drop parts.length))
      (p.table.grammar.rule id).lhs = some (stateOf p.table next) := by
    rw [hbelow.topState]
    exact hreads.spots.goto hgoto hname
  set span := Parser.spanOf (run.stack.take parts.length).reverse run.previous (some token) with hspan
  obtain ⟨v, hv, hmatches⟩ := hbuilds (p.reduction id span (run.stack.take parts.length).reverse
    ((p.table.mode? (stateOf p.table next)).getD (p.modeOver defaultMode (run.stack.drop parts.length))))
    rfl hchildren
  refine ⟨⟨⟨stateOf p.table next, .value v, span⟩ :: run.stack.drop parts.length, some token, run.previous,
    stream⟩, ⟨.cons ⟨rfl, hmatches⟩ hbelow, by simp, ?_, hstream⟩, fun delegate => ?_⟩
  · rintro _ _ ⟨⟩
    exact ⟨token, cursor, rfl, htoken, htext, hlast⟩
  · rw [Parser.step_perform hsees haction]
    simp only [Parser.perform, Parser.reduce, hlength, Parser.popFrames_eq hle, htarget, builder, ← hspan, hv]

end Steps

/-! ## 4. Words -/

/-- The first of the words that are left, as a token. -/
def peek : List String → Terminal × String
  | [] => (.eof, "")
  | w :: _ => (.kind w, w)

/-- The parser before words, none of which it has in hand. -/
def Config.unread (track : Track) (words : List String) : Config := ⟨track, none, spaced words⟩

/-- The parser before words, the first of which it has in hand. -/
def Config.held (track : Track) (words : List String) : Config :=
  ⟨track, some (peek words), spaced words.tail⟩

section Words

variable {p : Parser} (hreads : Reads p) {track : Track} {w kind : String} {words : List String}
  {next : Spot}
include hreads

omit hreads in
theorem Word.shows (hword : Word w kind) {rest : List Char} (hrest : Ends rest) {mode : String}
    (hmode : mode = defaultMode) : Shows mode none (w.toList ++ rest) (.kind kind) w rest := by
  have hshows := Shows.read (hword.lexes hrest) (.inr rfl)
  rwa [String.ofList_toList, ← hmode] at hshows

theorem reaches_blank (hword : Word w kind) (hmode : track.mode = defaultMode) :
    Reaches p 1 (.unread track (w :: words)) ⟨track, none, w.toList ++ spaced words⟩ := by
  obtain ⟨c, cs, hcs, hc⟩ := hword.head
  rw [Config.unread, spaced_cons, hcs]
  exact reaches_skip hreads hmode hc

/-- A word is shifted after its blank. -/
theorem shift_unread (hword : Word w kind) (hmode : track.mode = defaultMode)
    (hshift : track.top.shift kind = some next) (hkind : kind ∈ Spot.kinds) :
    Reaches p 2 (.unread track (w :: words)) (.unread ((next, .word kind w) :: track) words) :=
  (reaches_blank hreads hword hmode).trans
    (reaches_shift hreads hshift hkind (hword.shows (ends_spaced words) hmode))

/-- A symbol in hand is shifted. -/
theorem shift_held (hshift : track.top.shift w = some next) (hkind : w ∈ Spot.kinds) :
    Reaches p 1 (.held track (w :: words)) (.unread ((next, .word w w) :: track) words) :=
  reaches_shift hreads hshift hkind (.held _ _ _)

section Reductions

variable {lhs : String} {label : Option String} (parts below : Track) {mark : Mark}
  (hcompleted : (parts ++ below).top.completed = some ⟨lhs, parts.length, label⟩)
  (hpeek : (peek words).1 ∈ (parts ++ below).top.lookaheads)
  (hgoto : below.top.goto lhs = some next) (hname : lhs ∈ Spot.names)
  (hbuilds : Builds label (parts.map Prod.snd).reverse mark)
include hcompleted hpeek hgoto hname hbuilds

/-- A rule is reduced before a word in hand. -/
theorem reduce_held :
    Reaches p 1 (.held (parts ++ below) words) (.held ((next, mark) :: below) words) :=
  reaches_reduce hreads parts below hcompleted hpeek hgoto hname hbuilds (.held _ _ _)

/-- A rule is reduced before a symbol, or at the end. -/
theorem reduce_unread (hmode : (parts ++ below).mode = defaultMode)
    (hwords : ∀ w ∈ words.head?, w ∈ symbols) :
    Reaches p 2 (.unread (parts ++ below) words) (.held ((next, mark) :: below) words) := by
  cases words with
  | nil =>
    exact (reaches_reduce hreads parts below hcompleted hpeek hgoto hname hbuilds
      (.read (lexes_eof lexer _) (.inl rfl))).mono (by decide)
  | cons w words =>
    have hword := word_symbol (hwords w rfl)
    exact (reaches_blank hreads hword hmode).trans (reaches_reduce hreads parts below hcompleted hpeek hgoto
      hname hbuilds (hword.shows (ends_spaced words) hmode))

end Reductions

end Words

end Lode.Language
