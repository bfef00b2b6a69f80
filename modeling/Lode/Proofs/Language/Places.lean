/-
# What is built does not depend on places

Reductions over the same tokens and trees, up to their places, build the same tree up to its places, or both
build none (`congruent_builder`).  The places of the parts go into the places of what is built, and nowhere
else.

This is what two runs of the parser need that read the same tokens at different places, as when something
was put in between that the tables do not see.  The actions of a parser go by the kinds of tokens, so such
runs do the same as long as their builders do.

Taking the places out of a tree goes along with setting its attributes (`Node.unplaced_set?`) and with
making a sequence (`Node.unplaced_sequence`), so it is enough that the values which a rule takes from its
slots are the same up to places. A slot may be empty or hold something of the wrong kind, and then both
builders fail; a relation between results (`SameResult`) says both at once and goes along with binding, so a
rule is followed in the order in which it looks at its slots.  Literals are the one thing that is computed
from the text of a token, and the texts of the tokens are equal.
-/
import Lode.Proofs.Language.Precedence
import Lode.Proofs.Language.Spelling
import Lode.Proofs.Parser.Alike

namespace Lode

/-! ## 1. Trees without places -/

/-- A value without its places. -/
def Value.unplaced : Value → Value
  | .node n => .node n.unplaced
  | v => v

namespace Fields

theorem unplaced_cons (name : String) (v : Value) (rest : Fields) :
    (cons name v rest).unplaced = cons name v.unplaced rest.unplaced := by
  cases v <;> rfl

/-- Places can be taken out before or after setting a value. -/
theorem unplaced_set (key : String) (new : Value) : ∀ fields : Fields,
    (fields.set key new).unplaced = fields.unplaced.set key new.unplaced
  | nil => unplaced_cons key new nil
  | cons name v rest => by
    rw [unplaced_cons, set, set]
    cases compare key name with
    | lt => rw [unplaced_cons, unplaced_cons]
    | eq => rw [unplaced_cons]
    | gt => rw [unplaced_cons, unplaced_set key new rest]

theorem unplaced_ofList (entries : List (String × Value)) :
    (ofList entries).unplaced = ofList (entries.map fun entry => (entry.1, entry.2.unplaced)) := by
  have hfold : ∀ fields : Fields,
      (entries.foldl (fun fields entry => fields.set entry.1 entry.2) fields).unplaced =
        (entries.map fun entry => (entry.1, entry.2.unplaced)).foldl
          (fun fields entry => fields.set entry.1 entry.2) fields.unplaced := by
    induction entries with
    | nil => exact fun _ => rfl
    | cons entry entries ih =>
      intro fields
      rw [List.foldl_cons, ih, unplaced_set, List.map_cons, List.foldl_cons]
  exact hfold nil

end Fields

namespace Node

theorem unplaced_build (tag : Tag) (span : Span) (attributes : List (String × Value)) :
    (build tag span attributes).unplaced =
      build tag .nowhere (attributes.map fun entry => (entry.1, entry.2.unplaced)) := by
  rw [build, unplaced, Fields.unplaced_ofList, build]

/-- Places can be taken out before or after setting an attribute of a node. -/
theorem unplaced_set? (n : Node) (name : String) (v : Option Value) :
    (n.set? name v).unplaced = n.unplaced.set? name (v.map Value.unplaced) := by
  obtain ⟨tag, fields, span⟩ := n
  cases v with
  | none => rfl
  | some v =>
    change mk tag (fields.set name v).unplaced .nowhere = mk tag (fields.unplaced.set name v.unplaced) .nowhere
    rw [Fields.unplaced_set]

/-- A cell without its places has its element and the rest of the chain without theirs. -/
theorem unplaced_cell (tag : Tag) (element : String) (item : Node) (next : Option Node) :
    (cell tag element item next).unplaced =
      (build tag .nowhere [(element, .node item.unplaced)]).set? "next"
        ((next.map Value.node).map Value.unplaced) := by
  rw [cell.eq_def, unplaced_set?, unplaced_build]
  rfl

/-- Sequences of nodes that are the same up to places are the same up to places. -/
theorem unplaced_sequence (tag : Tag) : ∀ {ns ns' : List Node},
    ns.map unplaced = ns'.map unplaced →
    ((sequence tag ns none).map Value.node).map Value.unplaced =
      ((sequence tag ns' none).map Value.node).map Value.unplaced := by
  intro ns ns' h
  unfold sequence
  cases tag.element? with
  | none => rfl
  | some element =>
    dsimp only
    induction ns generalizing ns' with
    | nil =>
      obtain rfl := List.map_eq_nil_iff.mp h.symm
      rfl
    | cons n ns ih =>
      cases ns' with
      | nil => cases h
      | cons n' ns' =>
        obtain ⟨hn, hns⟩ := List.cons.inj h
        have ih := ih hns
        rw [List.foldr_cons, List.foldr_cons]
        simp only [Option.map_some, Value.unplaced, unplaced_cell, hn, ih]

end Node

/-! ## 2. Results -/

section Results

variable {V W V' : Type} {same : V → V → Prop} {same' : W → W → Prop}

theorem SameResult.bind {x x' : Except Error V} {f f' : V → Except Error W} (h : SameResult same x x')
    (hf : ∀ v v', same v v' → SameResult same' (f v) (f' v')) : SameResult same' (x >>= f) (x' >>= f') := by
  cases h with
  | ok hsame => exact hf _ _ hsame
  | error e e' => exact .error e e'

theorem SameResult.map {x x' : Except Error V} {f f' : V → W} (h : SameResult same x x')
    (hf : ∀ v v', same v v' → same' (f v) (f' v')) : SameResult same' (x.map f) (x'.map f') := by
  cases h with
  | ok hsame => exact .ok (hf _ _ hsame)
  | error e e' => exact .error e e'

end Results

namespace Language

/-! ## 3. What stands at a slot -/

/-- The pieces are the same up to places. -/
def SamePiece : Piece → Piece → Prop
  | .node n, .node n' => n.unplaced = n'.unplaced
  | .text s, .text s' => s = s'
  | .list ns, .list ns' => ns.map Node.unplaced = ns'.map Node.unplaced
  | .nothing, .nothing => True
  | _, _ => False

/-- The values are the same up to places. -/
def SameValue (v v' : Value) : Prop := v.unplaced = v'.unplaced

section Slots

variable {slots slots' : Slots} (h : List.Forall₂ (Child.Alike SamePiece) slots slots')
include h

/-- The same slots are filled, with children that are the same up to places. -/
theorem slot_alike (i : Nat) : (slots[i]? = none ∧ slots'[i]? = none) ∨
    ∃ child child', slots[i]? = some child ∧ slots'[i]? = some child' ∧ child.Alike SamePiece child' := by
  induction h generalizing i with
  | nil => exact .inl ⟨rfl, rfl⟩
  | cons hchild _ ih =>
    cases i with
    | zero => exact .inr ⟨_, _, rfl, rfl, hchild⟩
    | succ i => exact ih i

/-- Both find a token at a slot, or neither does. -/
theorem token_alike (i : Nat) : SameResult Token.Alike (slots.token i) (slots'.token i) := by
  unfold Slots.token
  rcases slot_alike h i with ⟨hslots, hslots'⟩ | ⟨_, _, hslots, hslots', hchild⟩
  · rw [hslots, hslots']
    exact .error _ _
  · rw [hslots, hslots']
    cases hchild with
    | token htoken => exact .ok htoken
    | value _ => exact .error _ _

theorem piece_alike (i : Nat) : SameResult SamePiece (slots.piece i) (slots'.piece i) := by
  unfold Slots.piece
  rcases slot_alike h i with ⟨hslots, hslots'⟩ | ⟨_, _, hslots, hslots', hchild⟩
  · rw [hslots, hslots']
    exact .error _ _
  · rw [hslots, hslots']
    cases hchild with
    | token _ => exact .error _ _
    | value hpiece => exact .ok hpiece

theorem tokenText_alike (i : Nat) : SameResult SameValue (slots.tokenText i) (slots'.tokenText i) :=
  (token_alike h i).map fun _ _ htoken => congrArg Value.str htoken.text

theorem node_alike (i : Nat) : SameResult (fun n n' => n.unplaced = n'.unplaced) (slots.node i) (slots'.node i) := by
  refine (piece_alike h i).bind fun v v' hsame => ?_
  cases v <;> cases v' <;> first | exact hsame.elim | exact .error _ _ | exact .ok hsame

theorem child_alike (i : Nat) : SameResult SameValue (slots.child i) (slots'.child i) :=
  (node_alike h i).map fun _ _ hnode => congrArg Value.node hnode

theorem node?_alike (i : Nat) : SameResult (fun v v' => (v.map Value.node).map Value.unplaced =
    (v'.map Value.node).map Value.unplaced) (slots.node? i) (slots'.node? i) := by
  refine (piece_alike h i).bind fun v v' hsame => ?_
  cases v <;> cases v' <;>
    first | exact hsame.elim | exact .error _ _ | exact .ok (congrArg (some ∘ Value.node) hsame) | exact .ok rfl

theorem list_alike (i : Nat) : SameResult (fun ns ns' => ns.map Node.unplaced = ns'.map Node.unplaced)
    (slots.list i) (slots'.list i) := by
  refine (piece_alike h i).bind fun v v' hsame => ?_
  cases v <;> cases v' <;> first | exact hsame.elim | exact .error _ _ | exact .ok hsame

theorem text?_alike (i : Nat) : SameResult Eq (slots.text? i) (slots'.text? i) := by
  refine (piece_alike h i).bind fun v v' hsame => ?_
  cases v <;> cases v' <;>
    first | exact hsame.elim | exact .error _ _ | exact .ok (congrArg some hsame) | exact .ok rfl

end Slots

/-! ## 4. Literals -/

theorem numberOf_alike {t t' : Token} (h : t.Alike t') : SameResult Eq (numberOf t) (numberOf t') := by
  rw [numberOf, numberOf, h.text]
  cases readLiteral? t'.text with
  | some value => exact .ok rfl
  | none => exact .error _ _

/-- Tokens that differ in their places add the same to the text of a literal. -/
theorem appendPiece_alike {t t' : Token} (h : t.Alike t') (text : String) :
    SameResult Eq (appendPiece text t) (appendPiece text t') := by
  have hescape : SameResult Eq (escapeOf t) (escapeOf t') := by
    unfold escapeOf
    rw [h.text]
    split <;> first | exact .ok rfl | exact .error _ _ | skip
    split <;> first | exact .ok rfl | exact .error _ _
  rw [appendPiece, appendPiece, h.kind, h.text]
  split
  · exact hescape.map fun _ _ heq => congrArg text.push heq
  · exact .ok rfl

/-! ## 5. What is built -/

/-- The attributes have the same name and, up to places, the same value. -/
def SameAttribute (entry entry' : String × Value) : Prop := entry.1 = entry'.1 ∧ SameValue entry.2 entry'.2

theorem SameAttribute.of_value {v v' : Value} (h : SameValue v v') {name : String} :
    SameAttribute (name, v) (name, v') := ⟨rfl, h⟩

/-- Nodes with the same attributes up to places are the same up to places. -/
theorem build_alike {tag : Tag} {span span' : Span} {attributes attributes' : List (String × Value)}
    (h : List.Forall₂ SameAttribute attributes attributes') :
    SamePiece (.node (.build tag span attributes)) (.node (.build tag span' attributes')) := by
  change Node.unplaced _ = Node.unplaced _
  rw [Node.unplaced_build, Node.unplaced_build]
  congr 1
  induction h with
  | nil => rfl
  | cons hentry _ ih => rw [List.map_cons, List.map_cons, hentry.1, hentry.2, ih]

/-- Setting an attribute to values that are the same keeps nodes the same. -/
theorem set?_alike {n n' : Node} {v v' : Option Value} (h : SamePiece (.node n) (.node n')) {name : String}
    (hv : v.map Value.unplaced = v'.map Value.unplaced) :
    SamePiece (.node (n.set? name v)) (.node (n'.set? name v')) := by
  change Node.unplaced _ = Node.unplaced _
  rw [Node.unplaced_set?, Node.unplaced_set?, show n.unplaced = n'.unplaced from h, hv]

section Build

variable {slots slots' : Slots} (h : List.Forall₂ (Child.Alike SamePiece) slots slots') {span span' : Span}
include h

theorem append_alike (i : Nat) : SameResult SamePiece
    (do let front ← slots.list 0; return .list (front ++ [← slots.node i]))
    (do let front ← slots'.list 0; return .list (front ++ [← slots'.node i])) :=
  (list_alike h 0).bind fun _ _ hfront => (node_alike h i).bind fun n n' hn => .ok <| by
    change List.map _ _ = List.map _ _
    rw [List.map_append, List.map_append, hfront, List.map_singleton, List.map_singleton, hn]

/-- **What a label builds** is the same up to places. -/
theorem buildLabelled_alike (label : String) :
    SameResult SamePiece (buildLabelled label span slots) (buildLabelled label span' slots') := by
  unfold buildLabelled
  split
  · exact (list_alike h 0).bind fun _ _ hitems => .ok (set?_alike (build_alike .nil) (Node.unplaced_sequence _ hitems))
  · exact .ok rfl
  · exact (node_alike h 0).bind fun _ _ hn => .ok (congrArg (fun n => [n]) hn)
  · exact append_alike h 1
  · exact append_alike h 2
  · exact .ok trivial
  · exact (node_alike h 1).bind fun _ _ hn => .ok hn
  · exact (token_alike h 0).bind fun _ _ htoken => .ok htoken.text
  · exact (tokenText_alike h 1).bind fun _ _ hname => .ok (build_alike (.cons (.of_value hname) .nil))
  · exact (tokenText_alike h 1).bind fun _ _ hname => (child_alike h 3).bind fun _ _ hty =>
      (child_alike h 5).bind fun _ _ hvalue =>
        .ok (build_alike (.cons (.of_value hname) (.cons (.of_value hty) (.cons (.of_value hvalue) .nil))))
  · exact (tokenText_alike h 2).bind fun _ _ hname => (text?_alike h 1).bind fun storage storage' hstorage =>
      (child_alike h 4).bind fun _ _ hty => (child_alike h 6).bind fun _ _ hvalue =>
        .ok (set?_alike (build_alike (.cons (.of_value hname) (.cons (.of_value hty) (.cons (.of_value hvalue) .nil))))
          (by rw [hstorage]))
  · exact (tokenText_alike h 1).bind fun _ _ hname => (list_alike h 3).bind fun _ _ hparams =>
      (node?_alike h 5).bind fun _ _ hresult => (list_alike h 6).bind fun _ _ hbody =>
        .ok (set?_alike (set?_alike (set?_alike (build_alike (.cons (.of_value hname) .nil))
          (Node.unplaced_sequence _ hparams)) hresult) (Node.unplaced_sequence _ hbody))
  · exact (tokenText_alike h 0).bind fun _ _ hname => (child_alike h 2).bind fun _ _ hty =>
      .ok (build_alike (.cons (.of_value hname) (.cons (.of_value hty) .nil)))
  · exact (child_alike h 0).bind fun _ _ hl => (child_alike h 2).bind fun _ _ hr =>
      .ok (build_alike (.cons (.of_value hl) (.cons (.of_value hr) .nil)))
  · -- a value is returned if there is one
    rw [← h.length_eq]
    split
    · have hsome : SameResult (fun v v' : Option Value => v.map Value.unplaced = v'.map Value.unplaced)
          ((slots.child 1).map some) ((slots'.child 1).map some) :=
        (child_alike h 1).map fun _ _ hvalue => congrArg some hvalue
      exact hsome.bind fun _ _ hvalue => .ok (set?_alike (build_alike .nil) hvalue)
    · exact .ok (set?_alike (build_alike .nil) rfl)
  · exact (tokenText_alike h 0).bind fun _ _ hname => .ok (build_alike (.cons (.of_value hname) .nil))
  · exact (child_alike h 1).bind fun _ _ htarget => .ok (build_alike (.cons (.of_value htarget) .nil))
  · exact (tokenText_alike h 0).bind fun _ _ hname => .ok (build_alike (.cons (.of_value hname) .nil))
  · exact (child_alike h 1).bind fun _ _ htarget => .ok (build_alike (.cons (.of_value htarget) .nil))
  · exact (tokenText_alike h 1).bind fun _ _ hop => (child_alike h 0).bind fun _ _ hlhs =>
      (child_alike h 2).bind fun _ _ hrhs =>
        .ok (build_alike (.cons (.of_value hop) (.cons (.of_value hlhs) (.cons (.of_value hrhs) .nil))))
  · exact (child_alike h 1).bind fun _ _ hoperand => .ok (build_alike (.cons (.of_value hoperand) .nil))
  · exact (child_alike h 1).bind fun _ _ hinner => .ok (build_alike (.cons (.of_value hinner) .nil))
  · exact (token_alike h 0).bind fun _ _ htoken => (numberOf_alike htoken).bind fun _ _ hvalue =>
      .ok (build_alike (.cons (.of_value (congrArg (fun i => Value.unplaced (.int i)) hvalue)) .nil))
  · exact (child_alike h 0).bind fun _ _ htarget => (tokenText_alike h 2).bind fun _ _ hname =>
      .ok (build_alike (.cons (.of_value htarget) (.cons (.of_value hname) .nil)))
  · exact (child_alike h 0).bind fun _ _ htarget => (list_alike h 2).bind fun _ _ hargs =>
      .ok (set?_alike (build_alike (.cons (.of_value htarget) .nil)) (Node.unplaced_sequence _ hargs))
  · exact (text?_alike h 1).bind fun _ _ htext =>
      .ok (build_alike (.cons (.of_value (congrArg (fun s => Value.unplaced (.str (s.getD ""))) htext)) .nil))
  · exact .ok rfl
  · exact (text?_alike h 0).bind fun front _ hfront => (token_alike h 1).bind fun _ token' htoken => by
      rw [← hfront]
      exact (appendPiece_alike htoken (front.getD "")).bind fun _ _ htext => .ok htext
  · exact .error _ _

end Build

/-- **The builder of trees** does not look at places. -/
theorem congruent_builder : Congruent SamePiece builder := by
  refine fun {r r'} h _ => ⟨?_, rfl⟩
  change SameResult SamePiece (build r) (build r')
  unfold build
  rw [← h.label]
  cases r.label with
  | some label => exact buildLabelled_alike h.children label
  | none =>
    have hchildren := h.children
    generalize r.children = children, r'.children = children' at hchildren
    cases hchildren with
    | nil => exact .error _ _
    | cons hchild hrest =>
      cases hchild with
      | token _ => exact .error _ _
      | value hsame =>
        cases hrest with
        | nil => exact .ok hsame
        | cons _ _ => exact .error _ _

end Language

end Lode
