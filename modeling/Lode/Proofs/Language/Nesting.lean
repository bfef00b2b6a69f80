/-
# Places of trees are nested

The place of every node lies around the places of its children, and the elements of a sequence stand one
behind the other (`WellPlaced`).  A name, a number or the name of a type stands where its token stood.

What a builder does with places goes on from what it finds on the stack: nodes that lie in the places of
their frames (`Holds`), one frame behind the other (`Parser.Run.Laid`).  A reduction gives its value the
place from the beginning of its first part to the end of its last one, so what is built of the parts lies in
it.

Sequences are where this is not all there is to it.  The cells of a sequence are made from a list on the
stack, and their places are put together from those of the elements: the place of a cell goes from its
element to the end of the last one.  That it does not end before it begins is because the elements stand one
behind the other, which is kept for lists on the stack (`sits_sequence`).  A part that is a node begins with
a token, since all rules that build nodes do, or with another such part; so what is put at the end of a list
does not begin before the list ends (`Firm`).

The same invariant shows that places are never made the wrong way round, in no run over any text, whether it
ends with a tree or not (`laid_language`).
-/
import Lode.Proofs.Language.Reading
import Lode.Proofs.Parser.Layout
import Lode.Proofs.Tree.Sequences

namespace Lode.Language

open Node (Everywhere)

/-! ## 1. Trees and places -/

/-- The token was shifted on the way through a text. -/
def Shifted (text : String) (token : Token) : Prop :=
  ∃ p run, parser = .ok p ∧
    Parser.Visits lexer p defaultMode builder (Parser.start (.ofText text)) () run () ∧
    ∃ frame ∈ run.stack, frame.child = .token token

/-- The token stands in a text: it was shifted, and its characters are those under its place. -/
structure Stood (text : String) (token : Token) : Prop where
  shifted : Shifted text token
  covers : ∃ read, token.span.Covers (splitLines text.toList) read token.text.toList

/-- How a node lies in a text. -/
structure WellPlaced (text : String) (n : Node) : Prop where
  ordered : n.span.Ordered
  inside : ∀ entry ∈ n.fields.nodes, entry.2.span.Inside n.span
  apart : n.elements.Pairwise fun x y => x.span.stop ≤ y.span.start
  leaf : n.tag ∈ [.ident, .typeName, .number] → ∃ token, Stood text token ∧ Leaf token token.span n

/-- A tree of nested places lies inside of a place. -/
structure Sits (text : String) (span : Span) (n : Node) : Prop where
  inside : n.span.Inside span
  everywhere : n.Everywhere (WellPlaced text)

/-- What lies on the stack in a place: tokens as they stood, and trees inside of it. -/
def Holds (text : String) (span : Span) : Child Piece → Prop
  | .token token => span = token.span ∧ Stood text token
  | .value (.node n) => Sits text span n
  | .value (.list ns) => (∀ n ∈ ns, Sits text span n) ∧ ns.Pairwise fun x y => x.span.stop ≤ y.span.start
  | .value (.text _) | .value .nothing => True

/-- What begins with a token: a token, or a node. -/
def Firm : Child Piece → Prop
  | .token _ | .value (.node _) => True
  | .value (.list _) | .value (.text _) | .value .nothing => False

section Trees

variable {text : String} {span : Span} {n : Node}

theorem Sits.mono {span' : Span} (h : Sits text span n) (hspan : span.Inside span') : Sits text span' n :=
  ⟨h.inside.trans hspan, h.everywhere⟩

/-- A node whose children lie inside of it. -/
theorem Sits.of_children (hplaced : WellPlaced text n) (hinside : n.span.Inside span)
    (hchildren : ∀ entry ∈ n.fields.nodes, Sits text n.span entry.2) : Sits text span n :=
  ⟨hinside, .intro hplaced fun entry hentry => (hchildren entry hentry).everywhere⟩

/-- A node that is neither a cell nor a leaf. -/
theorem wellPlaced_of_tag (htag : n.tag.element? = none) (hleaf : n.tag ∉ [.ident, .typeName, .number])
    (hordered : n.span.Ordered) (hchildren : ∀ entry ∈ n.fields.nodes, Sits text n.span entry.2) :
    WellPlaced text n := by
  refine ⟨hordered, fun entry hentry => (hchildren entry hentry).inside, ?_, fun h => absurd h hleaf⟩
  rw [Node.elements, htag]
  exact .nil

theorem leaf_nodes {token : Token} (h : Leaf token span n) : n.span = span ∧ n.fields.nodes = [] := by
  cases h <;> exact ⟨rfl, rfl⟩

theorem leaf_tag {token : Token} (h : Leaf token span n) : n.tag.element? = none := by
  cases h <;> rfl

/-- A cell whose elements stand one behind the other. -/
theorem sits_cell {tag : Tag} {element : String} (htag : tag.element? = some element) {x : Node}
    {next : Option Node} (hx : Sits text span x) (hnext : ∀ m ∈ next, Sits text span m)
    (happart : (Node.cell tag element x next).elements.Pairwise fun x y => x.span.stop ≤ y.span.start) :
    Sits text span (Node.cell tag element x next) := by
  have hleaf : tag ∉ [.ident, .typeName, .number] := by
    cases tag <;> first | decide | cases htag
  -- whatever the place of a cell is, its children are the element and the next cell
  have hchildren : ∀ {place : Span}, x.span.Inside place → (∀ m ∈ next, m.span.Inside place) →
      ∀ entry ∈ ((Node.build tag place [(element, .node x)]).set? "next" (next.map .node)).fields.nodes,
        Sits text place entry.2 := by
    intro place hplace hplaces
    have hbuild := @Fields.forall_nodes_ofList (Sits text place) [(element, .node x)]
      (by simpa using Sits.mk hplace hx.everywhere)
    cases next with
    | none => exact hbuild
    | some m =>
      refine Fields.forall_nodes_set hbuild ?_
      rintro _ ⟨⟩
      exact ⟨hplaces m rfl, (hnext m rfl).everywhere⟩
  have hordered := hx.everywhere.here.ordered
  cases next with
  | none =>
    have hplace := hchildren (Span.Inside.refl x.span) nofun
    exact .of_children ⟨hordered, fun entry hentry => (hplace entry hentry).inside, happart,
      fun h => absurd h hleaf⟩ hx.inside hplace
  | some m =>
    have hm := hnext m rfl
    have hplace := hchildren (Span.inside_join_left x.span m.span) (by
      rintro _ ⟨⟩
      exact Span.inside_join_right x.span m.span)
    exact .of_children ⟨hordered.join hm.everywhere.here.ordered,
      fun entry hentry => (hplace entry hentry).inside, happart, fun h => absurd h hleaf⟩
      (hx.inside.join hm.inside) hplace

/-- **A sequence** lies around its elements, if they stand one behind the other. -/
theorem sits_sequence {tag : Tag} {items : List Node} (hitems : ∀ n ∈ items, Sits text span n)
    (happart : items.Pairwise fun x y => x.span.stop ≤ y.span.start) :
    ∀ m ∈ Node.sequence tag items none, Sits text span m := by
  cases htag : tag.element? with
  | none =>
    rw [Node.sequence, htag]
    intro m hm
    cases hm
  | some element =>
    induction items with
    | nil =>
      rw [Node.sequence_nil htag]
      intro m hm
      cases hm
    | cons x items ih =>
      obtain ⟨hx, hrest⟩ := List.forall_mem_cons.mp hitems
      have helements : elementsIn (Node.sequence tag (x :: items) none) = x :: items := by
        rw [(@Node.elements_sequence tag element htag none (fun _ h => by cases h) (x :: items)).1]
        exact List.append_nil _
      rw [Node.sequence_cons htag] at helements ⊢
      rintro _ ⟨⟩
      refine sits_cell htag hx (ih hrest happart.of_cons) ?_
      rwa [show (Node.cell tag element x (Node.sequence tag items none)).elements = x :: items from helements]

/-- Nodes with attributes from slots, whose nodes sit in a place. -/
theorem assembles_children {slots : Slots}
    (hc : ∀ {i : Nat} {v : Piece}, slots[i]? = some (.value v) → Holds text span (.value v)) {tag : Tag}
    (h : slots.Assembles tag span n) :
    n.tag = tag ∧ n.span = span ∧ ∀ entry ∈ n.fields.nodes, Sits text span entry.2 := by
  have hgives : ∀ {v}, slots.Gives v → ∀ m, v = .node m → Sits text span m := by
    intro v hv m heq
    cases hv with
    | text => cases heq
    | node hslot =>
      obtain rfl := Value.node.inj heq
      exact hc hslot
    | sequence hslot hsequence =>
      obtain rfl := Value.node.inj heq
      exact sits_sequence (hc hslot).1 (hc hslot).2 _ hsequence
  induction h with
  | build hattributes =>
    exact ⟨rfl, rfl, Fields.forall_nodes_ofList fun entry hentry => hgives (hattributes entry hentry)⟩
  | @set? n name v _ hv ih =>
    obtain ⟨htag, hspan, hchildren⟩ := ih
    cases v with
    | none => exact ⟨htag, hspan, hchildren⟩
    | some v =>
      obtain ⟨tag, fields, place⟩ := n
      exact ⟨htag, hspan, Fields.forall_nodes_set hchildren (hgives (hv v rfl))⟩

theorem Holds.mono {span' : Span} {v : Piece} (h : Holds text span (.value v)) (hspan : span.Inside span') :
    Holds text span' (.value v) := by
  cases v with
  | node n => exact Sits.mono h hspan
  | list ns => exact ⟨fun n hn => (h.1 n hn).mono hspan, h.2⟩
  | text _ | nothing => trivial

end Trees

/-! ## 2. What rules build -/

section Rules

variable {text : String} {span : Span} {n : Node} {frames : List (Parser.Frame Piece)}

/-- The values at slots sit in the place of the rule. -/
theorem holds_slot (h : Parser.Fills Firm (Holds text) frames span) {i : Nat} {v : Piece}
    (hslot : (frames.map Parser.Frame.child)[i]? = some (.value v)) : Holds text span (.value v) := by
  rw [List.getElem?_map, Option.map_eq_some_iff] at hslot
  obtain ⟨frame, hframe, hchild⟩ := hslot
  have hmem := List.mem_of_getElem? hframe
  have hholds := h.holds frame hmem
  rw [hchild] at hholds
  exact hholds.mono (h.inside frame hmem)

/-- Behind a list comes what begins with a token. -/
theorem stop_le_of_slots (h : Parser.Fills Firm (Holds text) frames span) {front : List Node} {i : Nat}
    (hfront : (frames.map Parser.Frame.child)[0]? = some (Child.value (.list front)))
    (hn : (frames.map Parser.Frame.child)[i + 1]? = some (Child.value (.node n))) :
    ∀ x ∈ front, x.span.stop ≤ n.span.start := by
  cases frames with
  | nil => cases hfront
  | cons first rest =>
    rw [List.map_cons, List.getElem?_cons_succ, List.getElem?_map, Option.map_eq_some_iff] at hn
    obtain ⟨frame, hframe, hchild⟩ := hn
    have hmem := List.mem_of_getElem? hframe
    obtain ⟨-, hbehind⟩ := (List.pairwise_cons.mp h.above).1 frame hmem
    have hlist := h.holds first List.mem_cons_self
    have hnode := h.holds frame (List.mem_cons_of_mem _ hmem)
    rw [show first.child = .value (.list front) from Option.some.inj hfront] at hlist
    rw [hchild] at hnode hbehind
    intro x hx
    exact (hlist.1 x hx).inside.stop.trans ((hbehind trivial).trans hnode.inside.start)

/-- **What labels yield** sits in the place of the rule. -/
theorem holds_buildLabelled (h : Parser.Fills Firm (Holds text) frames span) {label : String}
    (hleaf : label ∈ leafLabels → frames.length = 1) {v : Piece}
    (hbuild : buildLabelled label span (frames.map Parser.Frame.child) = .ok v) : Holds text span (.value v) := by
  cases yields_buildLabelled hbuild with
  | text | nothing => trivial
  | empty => exact ⟨nofun, .nil⟩
  | singleton hn => exact ⟨List.forall_mem_singleton.mpr (holds_slot h hn), List.pairwise_singleton _ _⟩
  | append hfront hn =>
    obtain ⟨hsits, happart⟩ := holds_slot h hfront
    refine ⟨List.forall_mem_append.mpr ⟨hsits, List.forall_mem_singleton.mpr (holds_slot h hn)⟩,
      List.pairwise_append.mpr ⟨happart, List.pairwise_singleton _ _, fun x hx => ?_⟩⟩
    exact List.forall_mem_singleton.mpr (stop_le_of_slots h hfront hn x hx)
  | handed _ hn => exact holds_slot h hn
  | @leaf token n hlabel htoken hn =>
    -- the only part of the rule is the token, so the place of the rule is that of the token
    obtain ⟨frame, rfl⟩ := List.length_eq_one_iff.mp (hleaf hlabel)
    have hholds := h.holds frame List.mem_cons_self
    rw [← h.alone frame rfl, show frame.child = .token token from Option.some.inj htoken] at hholds
    obtain ⟨rfl, hstood⟩ := hholds
    obtain ⟨hspan, hnodes⟩ := leaf_nodes hn
    refine .of_children ⟨hspan ▸ h.ordered, by simp [hnodes], ?_, fun _ => ⟨token, hstood, hn⟩⟩
      (hspan ▸ Span.Inside.refl _) (by simp [hnodes])
    rw [Node.elements, leaf_tag hn]
    exact .nil
  | node htag hleaf _ _ hn =>
    obtain ⟨rfl, hspan, hchildren⟩ := assembles_children (holds_slot h) hn
    rw [← hspan] at hchildren
    exact .of_children (wellPlaced_of_tag htag hleaf (hspan ▸ h.ordered) hchildren) (hspan ▸ Span.Inside.refl _)
      hchildren

/-- The rules whose first slot is for tokens. -/
def beginsWithToken (rule : Rule) : Bool :=
  rule.rhs.head?.any fun slot => slot.symbols.all fun X => X.nonterminal?.isNone

/-- What the labels of rules say about their right-hand sides. -/
theorem labels_unitRules : ∀ rule ∈ unitRules, ∀ label ∈ rule.label,
    (label ∈ leafLabels → rule.rhs.length = 1) ∧
      (rule.lhs = "program" ∨ label ∈ pieceLabels ∨ label ∈ headLabels ∨ beginsWithToken rule = true) := by
  decide

/-- A reduction hands on the value of its only part, or builds what its label says. -/
theorem build_eq_ok {r : Reduction Piece} {v : Piece} (h : build r = .ok v) :
    (r.label = none ∧ r.children = [.value v]) ∨
      ∃ label, r.label = some label ∧ buildLabelled label r.span r.children = .ok v := by
  unfold build at h
  split at h
  · rename_i label hlabel
    exact .inr ⟨label, hlabel, h⟩
  · rename_i hlabel hchildren
    obtain rfl := Except.ok.inj h
    exact .inl ⟨hlabel, hchildren⟩
  · cases h

variable {g : Grammar} {r : Reduction Piece} {parts : List (Grown Piece)}

/-- The first part of a rule that begins with a token is one. -/
theorem firm_of_beginsWithToken (hred : Reduces g r parts) (h : beginsWithToken (g.rule r.rule) = true) :
    ∃ first ∈ r.children.head?, Firm first := by
  obtain ⟨slot, hslot, hall⟩ := (Option.any_eq_true _ _).mp h
  obtain ⟨rest, hrhs⟩ := List.head?_eq_some_iff.mp hslot
  have hslots := hred.slots
  rw [Rule.Expands, hrhs] at hslots
  rw [hred.children]
  cases parts with
  | nil => cases hslots
  | cons part parts =>
    have hsymbol := List.all_eq_true.mp hall _ (List.forall₂_cons.mp hslots).1
    cases part with
    | token t => exact ⟨.token t, rfl, trivial⟩
    | value name v => cases hsymbol

/-- **What rules build** keeps to places, and begins with a token if it is a node. -/
theorem lays_builder (hg : g.Proper) (hname : g.start = "program") (hrules : g.rules = unitRules) :
    Parser.Lays Firm (Holds text) g builder where
  holds {r parts frames state v state'} hred hchildren hfills hbuild := by
    have hmem : g.rule r.rule ∈ unitRules := hrules ▸ Grammar.rule_mem hred.rule_lt
    have hlength : frames.length = (g.rule r.rule).rhs.length := by
      rw [← List.length_map, ← hchildren, hred.children, List.length_map, ← List.length_map]
      exact hred.slots.length_eq.symm
    rcases build_eq_ok (Prod.mk.inj hbuild).1 with ⟨-, hvalue⟩ | ⟨label, hlabel, hbuild⟩
    · refine holds_slot hfills (i := 0) ?_
      rw [← hchildren, hvalue]
      rfl
    · rw [hchildren] at hbuild
      refine holds_buildLabelled hfills (fun hleaf => ?_) hbuild
      rw [hlength]
      exact (labels_unitRules _ hmem label (hred.label ▸ hlabel)).1 hleaf
  firm {r parts state v state'} hred hid hbuild hfirm := by
    have hmem : g.rule r.rule ∈ unitRules := hrules ▸ Grammar.rule_mem hred.rule_lt
    rcases build_eq_ok (Prod.mk.inj hbuild).1 with ⟨-, hvalue⟩ | ⟨label, hlabel, hbuild⟩
    · exact ⟨.value v, by rw [hvalue]; rfl, hfirm⟩
    · cases v with
      | list ns => exact hfirm.elim
      | text s => exact hfirm.elim
      | nothing => exact hfirm.elim
      | node n =>
        rcases (labels_unitRules _ hmem label (hred.label ▸ hlabel)).2 with hlhs | hpiece | hhead | htoken
        · exact absurd (hg.startRule_unique _ hred.rule_lt (hlhs.trans hname.symm)) hid
        · exact absurd hpiece (yields_buildLabelled hbuild).not_mem_pieceLabels
        · obtain ⟨n, hn⟩ := exists_headNode hhead hbuild
          exact ⟨.value (.node n), by rw [List.head?_eq_getElem?, hn]; rfl, trivial⟩
        · exact firm_of_beginsWithToken hred htoken

end Rules

/-! ## 3. Whole texts -/

/-- All runs of the parser of the language have their parts in order, and what it accepts sits in a place. -/
theorem laid_language {p : Parser} (hp : parser = .ok p) (text : String) :
    (∀ {run}, Parser.Visits lexer p defaultMode builder (Parser.start (.ofText text)) () run () →
      run.Laid (splitLines text.toList) Firm (Holds text)) ∧
    ∀ {n : Node}, read text = .ok n → ∃ span, Sits text span n := by
  obtain ⟨p', hp', hreads⟩ := exists_reads
  obtain rfl := Except.ok.inj (hp'.symm.trans hp)
  obtain ⟨a, paths, m⟩ := hreads.made
  have hlines := lines_splitLines text.toList
  have heof : .terminal .eof ∉ Grammar.rhsSymbols p'.table.grammar.rules := by
    rw [hreads.rules]
    decide
  have hlays := @lays_builder text p'.table.grammar m.proper hreads.start hreads.rules
  have htoken : ∀ {run : Parser.Run Piece} {state : Unit},
      Parser.Visits lexer p' defaultMode builder (Parser.start (.ofText text)) () run state →
      ∀ frame ∈ run.stack, ∀ token, frame.child = .token token → token.Stands (splitLines text.toList) →
        token.kind ≠ .eof → Holds text token.span (.token token) :=
    fun hvisits frame hframe token hchild hstands hkind =>
      ⟨rfl, ⟨p', _, hp, hvisits, frame, hframe, hchild⟩, hstands.covers hkind⟩
  refine ⟨fun h => (h.laid hlines heof hlays m hreads.start_not_mem hreads.empty_not_mem
    (Stream.past_ofText text) htoken).2, fun h => ?_⟩
  exact Parser.holds_of_drive hlines heof hlays m hreads.start_not_mem hreads.empty_not_mem
    (Stream.past_ofText text) htoken ((read_eq_ok_iff hp).mp h)

/-- **Places are nested.**  In the tree of a text every place is ordered and lies around the places of the
children, the elements of sequences stand one behind the other, and names, numbers and names of types stand
where their tokens stood.  No place ends before it begins on the way through any text: neither those of the
cells that the lists on the stack are made into, nor any that a parser makes. -/
theorem places_nested (text : String) :
    (∀ {unit}, read text = .ok unit → unit.Everywhere (WellPlaced text)) ∧
    (∀ {p run}, parser = .ok p →
      Parser.Visits lexer p defaultMode builder (Parser.start (.ofText text)) () run () →
      ∀ frame ∈ run.stack, ∀ ns, frame.child = .value (.list ns) → ∀ tag, ∀ back, back <:+ ns →
        ∀ cell ∈ Node.sequence tag back none, cell.span.Ordered) ∧
    ∀ {V σ : Type} {lexer : Lexer} {p : Parser} {base : String} {build : Builder V σ} {stream : Stream}
      {run : Parser.Run V} {first state : σ},
      Parser.Visits lexer p base build (Parser.start stream) first run state → run.Checked lexer := by
  refine ⟨fun h => ?_, fun hp hvisits frame hframe ns hchild tag back hback cell hcell => ?_,
    Parser.Visits.checked⟩
  · obtain ⟨p, hp, -⟩ := exists_reads
    obtain ⟨span, hsits⟩ := (laid_language hp text).2 h
    exact hsits.everywhere
  · have hholds := ((laid_language hp text).1 hvisits).holds frame hframe
    rw [hchild] at hholds
    exact (sits_sequence (fun n hn => hholds.1 n (hback.subset hn)) (hholds.2.sublist hback.sublist) cell
      hcell).everywhere.here.ordered

theorem places_nested_constant : ∃ unit, read "constant c: u8 = \"a\"" = .ok unit ∧
    unit.Everywhere (WellPlaced "constant c: u8 = \"a\"") := by
  have hliteral : Literal "a".toList "a".toList := .plain (by decide) .nil
  obtain ⟨unit, hread, -⟩ := exists_read_literal hliteral
  exact ⟨unit, hread, (places_nested _).1 hread⟩

end Lode.Language
