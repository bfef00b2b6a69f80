/-
# Operators and their operands

Operators want operands that bind tightly enough: the right operand of a sum or a difference is no sum or
difference, the left one of a product is no sum either and the right one no operator at all, and so is what
is negated or dereferenced.  Members are taken of names, members and calls, and only these are called
(`Node.Ordered`).

Whether the operands of a node are in order depends on its tag and on a few attributes only.  So what has no
operands is in order whatever its attributes are (`ordered_of_tag`), and a tree is in order everywhere if
the values are that its root is built of (`Everywhere.build`).

What a label yields is said once, label by label (`yields_buildLabelled`): a node with attributes that come
from the slots, a node of a single token, or something that is no node.  The modules about the shape, the
order and the places of trees take this as their list of cases, so that none of them opens the builder
again.  With it, what the rules of the language build is in order everywhere, if the parts are
(`fine_buildLabelled`).

The rules of operators ask for more about their parts.  What such a rule builds is written out in section 4,
and section 5 says when it is in order (`ordered_binop` and the like).  Whether the parts are as they should
be is a matter of the tables, and not settled here.
-/
import Lode.Language.Reader
import Lode.Proofs.Except

namespace Lode

/-! ## 1. Trees -/

/-- A property of all nodes of a tree. -/
inductive Node.Everywhere (P : Node → Prop) : Node → Prop
  | intro {n : Node} : P n → (∀ entry ∈ n.fields.nodes, Everywhere P entry.2) → Everywhere P n

namespace Node

/-- Whether a node is a sum or a difference. -/
def isSum (n : Node) : Bool := n.tag == .binop && (n.str? "op" == some "+" || n.str? "op" == some "-")

/-- The operands of a node bind as tightly as its operator wants. -/
def Ordered (n : Node) : Prop :=
  match n.tag with
  | .binop =>
    (n.isSum = true → ∀ rhs ∈ n.node? "rhs", rhs.isSum = false) ∧
    (n.str? "op" = some "*" →
      (∀ lhs ∈ n.node? "lhs", lhs.isSum = false) ∧ ∀ rhs ∈ n.node? "rhs", rhs.tag ≠ .binop)
  | .neg => ∀ operand ∈ n.node? "operand", operand.tag ≠ .binop
  | .deref => ∀ target ∈ n.node? "target", target.tag ≠ .binop
  | .call | .member => ∀ target ∈ n.node? "target", target.tag ∈ [.ident, .member, .call]
  | _ => True

end Node

/-- A node among the values after one was set was there before, or is the new value. -/
theorem Fields.mem_nodes_of_mem_set {name : String} {v : Value} {entry : String × Node} :
    ∀ {fields : Fields}, entry ∈ (fields.set name v).nodes → entry ∈ fields.nodes ∨ v = .node entry.2
  | nil, h => by
    cases v <;> simp [set, nodes] at h ⊢
    rw [h]
  | cons first value rest, h => by
    simp only [set] at h
    split at h
    · cases v <;> simp only [nodes, List.mem_cons] at h
      · rcases h with rfl | h
        · exact .inr rfl
        · exact .inl h
      all_goals exact .inl h
    · cases value <;> cases v <;> simp only [nodes, List.mem_cons] at h ⊢ <;> grind
    · have ih : entry ∈ (rest.set name v).nodes → entry ∈ rest.nodes ∨ v = .node entry.2 :=
        mem_nodes_of_mem_set
      cases value <;> simp only [nodes, List.mem_cons] at h ⊢ <;> tauto

section Nodes

variable {P : Node → Prop}

/-- Setting a value keeps what holds of all nodes, if it holds of the new one. -/
theorem Fields.forall_nodes_set {fields : Fields} {name : String} {v : Value}
    (h : ∀ entry ∈ fields.nodes, P entry.2) (hv : ∀ m, v = .node m → P m) :
    ∀ entry ∈ (fields.set name v).nodes, P entry.2 := by
  intro entry hentry
  rcases mem_nodes_of_mem_set hentry with h' | h'
  · exact h entry h'
  · exact hv _ h'

/-- What holds of the nodes of a list of attributes holds of those of the record. -/
theorem Fields.forall_nodes_ofList {entries : List (String × Value)}
    (h : ∀ entry ∈ entries, ∀ m, entry.2 = .node m → P m) : ∀ entry ∈ (ofList entries).nodes, P entry.2 := by
  have hfold : ∀ {entries : List (String × Value)} {fields : Fields},
      (∀ entry ∈ entries, ∀ m, entry.2 = .node m → P m) → (∀ entry ∈ fields.nodes, P entry.2) →
      ∀ entry ∈ (entries.foldl (fun fields entry => fields.set entry.1 entry.2) fields).nodes, P entry.2 := by
    intro entries
    induction entries with
    | nil => exact fun _ hfields => hfields
    | cons first rest ih =>
      intro fields h hfields
      obtain ⟨hfirst, hrest⟩ := List.forall_mem_cons.mp h
      exact ih hrest (forall_nodes_set hfields hfirst)
  exact hfold h (by simp [nodes])

end Nodes

namespace Node.Everywhere

variable {P : Node → Prop} {n : Node}

theorem here (h : n.Everywhere P) : P n := by
  cases h with
  | intro hn _ => exact hn

/-- Setting an attribute keeps a property of all nodes, if the root and the new value have it. -/
theorem set {name : String} {v : Value} (hn : P (n.set name v))
    (hfields : ∀ entry ∈ n.fields.nodes, entry.2.Everywhere P)
    (hv : ∀ m, v = .node m → m.Everywhere P) : (n.set name v).Everywhere P := by
  obtain ⟨tag, fields, span⟩ := n
  exact .intro hn (Fields.forall_nodes_set hfields hv)

/-- A new node, with attributes that are fine. -/
theorem build {tag : Tag} {span : Span} {attributes : List (String × Value)}
    (hn : P (Node.build tag span attributes))
    (hattributes : ∀ entry ∈ attributes, ∀ m, entry.2 = .node m → m.Everywhere P) :
    (Node.build tag span attributes).Everywhere P :=
  .intro hn (Fields.forall_nodes_ofList hattributes)

end Node.Everywhere

namespace Node

theorem tag_set? (n : Node) (name : String) (v : Option Value) : (n.set? name v).tag = n.tag := by
  obtain ⟨tag, fields, span⟩ := n
  cases v <;> rfl

/-- Most nodes have no operands. -/
theorem ordered_of_tag {n : Node} (h : n.tag ∉ [.binop, .neg, .deref, .call, .member]) : n.Ordered := by
  unfold Ordered
  split <;> simp_all

/-- Setting an attribute that may be missing keeps the order of operands. -/
theorem Everywhere.set? {n : Node} {name : String} {v : Option Value} (h : n.Everywhere Ordered)
    (hn : (n.set? name v).Ordered) (hv : ∀ m, v = some (.node m) → m.Everywhere Ordered) :
    (n.set? name v).Everywhere Ordered := by
  cases v with
  | none => exact h
  | some v =>
    obtain ⟨-, hfields⟩ := h
    exact Everywhere.set hn hfields fun m hm => hv m (congrArg some hm)

/-- The cells of a sequence have no operands, so a sequence is in order if its elements are. -/
theorem everywhere_sequence {tag : Tag} (htag : tag ∉ [.binop, .neg, .deref, .call, .member]) :
    ∀ {items : List Node}, (∀ n ∈ items, n.Everywhere Ordered) →
    ∀ m, sequence tag items none = some m → m.Everywhere Ordered := by
  intro items hitems m hm
  unfold sequence at hm
  split at hm
  · cases hm
  · rename_i element _
    induction items generalizing m with
    | nil => cases hm
    | cons n rest ih =>
      obtain ⟨hn, hrest⟩ := List.forall_mem_cons.mp hitems
      rw [List.foldr_cons] at hm
      obtain rfl := Option.some.inj hm
      have hcell : ∀ span, (Node.build tag span [(element, .node n)]).Everywhere Ordered := by
        refine fun span => .build (ordered_of_tag htag) ?_
        simpa using hn
      refine (hcell _).set? (ordered_of_tag (by rw [tag_set?]; exact htag)) fun m hm => ?_
      obtain ⟨m', hm', heq⟩ := Option.map_eq_some_iff.mp hm
      obtain rfl := Value.node.inj heq
      exact ih hrest _ hm'

end Node

namespace Language

open Node (Everywhere Ordered)

/-! ## 2. What labels yield -/

namespace Slots

variable {slots : Slots} {i : Nat}

/-- A token that is found at a slot stands there. -/
theorem token_eq_ok {t : Token} (h : slots.token i = .ok t) : slots[i]? = some (.token t) := by
  unfold token at h
  split at h
  · rename_i hslot
    rwa [← Except.ok.inj h]
  · cases h

theorem piece_eq_ok {v : Piece} (h : slots.piece i = .ok v) : slots[i]? = some (.value v) := by
  unfold piece at h
  split at h
  · rename_i hslot
    rwa [← Except.ok.inj h]
  · cases h

theorem node_eq_ok {n : Node} (h : slots.node i = .ok n) : slots[i]? = some (.value (.node n)) := by
  obtain ⟨v, hv, h⟩ := bind_eq_ok.mp h
  split at h
  · rw [← Except.ok.inj h]
    exact piece_eq_ok hv
  · cases h

theorem node?_eq_ok {o : Option Node} (h : slots.node? i = .ok o) :
    ∀ n ∈ o, slots[i]? = some (.value (.node n)) := by
  obtain ⟨v, hv, h⟩ := bind_eq_ok.mp h
  split at h
  · rw [← Except.ok.inj h]
    rintro _ ⟨⟩
    exact piece_eq_ok hv
  · rw [← Except.ok.inj h]
    exact nofun
  · cases h

theorem list_eq_ok {ns : List Node} (h : slots.list i = .ok ns) : slots[i]? = some (.value (.list ns)) := by
  obtain ⟨v, hv, h⟩ := bind_eq_ok.mp h
  split at h
  · rw [← Except.ok.inj h]
    exact piece_eq_ok hv
  · cases h

/-- The values that come from slots: texts, the nodes there, and sequences of the lists there. -/
inductive Gives (slots : Slots) : Value → Prop
  | text (s : String) : Gives slots (.str s)
  | node {i : Nat} {n : Node} : slots[i]? = some (.value (.node n)) → Gives slots (.node n)
  | sequence {i : Nat} {tag : Tag} {ns : List Node} {n : Node} : slots[i]? = some (.value (.list ns)) →
      Node.sequence tag ns none = some n → Gives slots (.node n)

theorem gives_tokenText {v : Value} (h : slots.tokenText i = .ok v) : slots.Gives v := by
  obtain ⟨t, -, rfl⟩ := map_eq_ok.mp h
  exact .text t.text

theorem gives_child {v : Value} (h : slots.child i = .ok v) : slots.Gives v := by
  obtain ⟨n, hn, rfl⟩ := map_eq_ok.mp h
  exact .node (node_eq_ok hn)

theorem gives_node? {o : Option Node} (h : slots.node? i = .ok o) : ∀ v ∈ o.map Value.node, slots.Gives v := by
  intro v hv
  obtain ⟨n, hn, rfl⟩ := Option.map_eq_some_iff.mp hv
  exact .node (node?_eq_ok h n hn)

theorem gives_sequence {ns : List Node} (h : slots.list i = .ok ns) (tag : Tag) :
    ∀ v ∈ (Node.sequence tag ns none).map Value.node, slots.Gives v := by
  intro v hv
  obtain ⟨n, hn, rfl⟩ := Option.map_eq_some_iff.mp hv
  exact .sequence (list_eq_ok h) hn

/-- A node with attributes from slots. -/
inductive Assembles (slots : Slots) (tag : Tag) (span : Span) : Node → Prop
  | build {attributes : List (String × Value)} : (∀ entry ∈ attributes, slots.Gives entry.2) →
      Assembles slots tag span (.build tag span attributes)
  | set? {n : Node} {name : String} {v : Option Value} : Assembles slots tag span n → (∀ w ∈ v, slots.Gives w) →
      Assembles slots tag span (n.set? name v)

end Slots

/-- The tags of operators, members and calls, and the labels of the rules that build them. -/
def operatorTags : List Tag := [.binop, .neg, .deref, .call, .member]

/-- The labels of rules that build operators, members and calls. -/
def operatorLabels : List String := ["binop", "neg", "deref", "call", "member"]

/-- The labels of rules that build a node of a single token. -/
def leafLabels : List String := ["ident", "type_name", "number"]

/-- The labels of rules that build no node. -/
def pieceLabels : List String :=
  ["empty_list", "singleton", "append", "append_sep", "nothing", "text", "string_empty", "string_piece"]

/-- A node that is built of a single token. -/
inductive Leaf (token : Token) (span : Span) : Node → Prop
  | ident : Leaf token span (.build .ident span [("name", .str token.text)])
  | typeName : Leaf token span (.build .typeName span [("name", .str token.text)])
  | number {value : Int} : readLiteral? token.text = some value →
      Leaf token span (.build .number span [("value", .int value)])

/-- What is read as a number is a literal. -/
theorem readLiteral?_of_numberOf {token : Token} {value : Int} (h : numberOf token = .ok value) :
    readLiteral? token.text = some value := by
  unfold numberOf at h
  split at h
  · rename_i hread
    rw [hread, Except.ok.inj h]
  · cases h

/-- What a label yields. -/
inductive Yields (label : String) (span : Span) (slots : Slots) : Piece → Prop
  | text (s : String) : Yields label span slots (.text s)
  | nothing : Yields label span slots .nothing
  | empty : Yields label span slots (.list [])
  | singleton {i : Nat} {n : Node} : slots[i]? = some (.value (.node n)) → Yields label span slots (.list [n])
  | append {i : Nat} {front : List Node} {n : Node} : slots[0]? = some (.value (.list front)) →
      slots[i + 1]? = some (.value (.node n)) → Yields label span slots (.list (front ++ [n]))
  | handed {i : Nat} {n : Node} : label ∉ pieceLabels → slots[i]? = some (.value (.node n)) →
      Yields label span slots (.node n)
  | leaf {token : Token} {n : Node} : label ∈ leafLabels → slots[0]? = some (.token token) → Leaf token span n →
      Yields label span slots (.node n)
  | node {tag : Tag} {n : Node} : tag.element? = none → tag ∉ [.ident, .typeName, .number] →
      (tag ∈ operatorTags → label ∈ operatorLabels) → label ∉ pieceLabels → slots.Assembles tag span n →
      Yields label span slots (.node n)

/-- A return with a result, or without one, has its attribute from the slots. -/
theorem yields_return {span : Span} {slots : Slots} {value : Option Value} (h : ∀ w ∈ value, slots.Gives w) :
    Yields "return" span slots (.node ((Node.build .ret span []).set? "value" value)) :=
  .node rfl (by decide) (by decide) (by decide) (.set? (.build (by simp)) h)

/-- **What a label yields**, label by label. -/
theorem yields_buildLabelled {label : String} {span : Span} {slots : Slots} {v : Piece}
    (h : buildLabelled label span slots = .ok v) : Yields label span slots v := by
  unfold buildLabelled at h
  split at h
  -- units
  · obtain ⟨items, hitems, h⟩ := bind_eq_ok.mp h
    obtain rfl := Except.ok.inj h
    exact .node rfl (by decide) (by decide) (by decide) (.set? (.build (by simp)) (Slots.gives_sequence hitems _))
  -- lists
  · obtain rfl := Except.ok.inj h
    exact .empty
  · obtain ⟨n, hn, h⟩ := bind_eq_ok.mp h
    obtain rfl := Except.ok.inj h
    exact .singleton (Slots.node_eq_ok hn)
  · obtain ⟨front, hfront, h⟩ := bind_eq_ok.mp h
    obtain ⟨n, hn, h⟩ := bind_eq_ok.mp h
    obtain rfl := Except.ok.inj h
    exact .append (Slots.list_eq_ok hfront) (Slots.node_eq_ok hn)
  · obtain ⟨front, hfront, h⟩ := bind_eq_ok.mp h
    obtain ⟨n, hn, h⟩ := bind_eq_ok.mp h
    obtain rfl := Except.ok.inj h
    exact .append (Slots.list_eq_ok hfront) (Slots.node_eq_ok hn)
  -- parts that are handed on
  · obtain rfl := Except.ok.inj h
    exact .nothing
  · obtain ⟨n, hn, h⟩ := bind_eq_ok.mp h
    obtain rfl := Except.ok.inj h
    exact .handed (by decide) (Slots.node_eq_ok hn)
  · obtain ⟨t, -, h⟩ := bind_eq_ok.mp h
    obtain rfl := Except.ok.inj h
    exact .text _
  -- declarations
  · obtain ⟨name, hname, h⟩ := bind_eq_ok.mp h
    obtain rfl := Except.ok.inj h
    exact .node rfl (by decide) (by decide) (by decide) (.build (by simpa using Slots.gives_tokenText hname))
  · obtain ⟨name, hname, h⟩ := bind_eq_ok.mp h
    obtain ⟨ty, hty, h⟩ := bind_eq_ok.mp h
    obtain ⟨value, hvalue, h⟩ := bind_eq_ok.mp h
    obtain rfl := Except.ok.inj h
    exact .node rfl (by decide) (by decide) (by decide) (.build (by
      simpa using ⟨Slots.gives_tokenText hname, Slots.gives_child hty, Slots.gives_child hvalue⟩))
  · obtain ⟨name, hname, h⟩ := bind_eq_ok.mp h
    obtain ⟨storage, hstorage, h⟩ := bind_eq_ok.mp h
    obtain ⟨ty, hty, h⟩ := bind_eq_ok.mp h
    obtain ⟨value, hvalue, h⟩ := bind_eq_ok.mp h
    obtain rfl := Except.ok.inj h
    refine .node rfl (by decide) (by decide) (by decide) (.set? (.build ?_) ?_)
    · simpa using ⟨Slots.gives_tokenText hname, Slots.gives_child hty, Slots.gives_child hvalue⟩
    · simpa using fun s _ => Slots.Gives.text s
  · obtain ⟨name, hname, h⟩ := bind_eq_ok.mp h
    obtain ⟨params, hparams, h⟩ := bind_eq_ok.mp h
    obtain ⟨result, hresult, h⟩ := bind_eq_ok.mp h
    obtain ⟨body, hbody, h⟩ := bind_eq_ok.mp h
    obtain rfl := Except.ok.inj h
    refine .node rfl (by decide) (by decide) (by decide) (.set? (.set? (.set? (.build ?_)
      (Slots.gives_sequence hparams _)) (Slots.gives_node? hresult)) (Slots.gives_sequence hbody _))
    simpa using Slots.gives_tokenText hname
  · obtain ⟨name, hname, h⟩ := bind_eq_ok.mp h
    obtain ⟨ty, hty, h⟩ := bind_eq_ok.mp h
    obtain rfl := Except.ok.inj h
    exact .node rfl (by decide) (by decide) (by decide)
      (.build (by simpa using ⟨Slots.gives_tokenText hname, Slots.gives_child hty⟩))
  -- statements
  · obtain ⟨lvalue, hlvalue, h⟩ := bind_eq_ok.mp h
    obtain ⟨rvalue, hrvalue, h⟩ := bind_eq_ok.mp h
    obtain rfl := Except.ok.inj h
    exact .node rfl (by decide) (by decide) (by decide)
      (.build (by simpa using ⟨Slots.gives_child hlvalue, Slots.gives_child hrvalue⟩))
  · dsimp only at h
    split at h
    · obtain ⟨value, hvalue, h⟩ := bind_eq_ok.mp h
      obtain ⟨w, hw, rfl⟩ := map_eq_ok.mp hvalue
      obtain rfl := Except.ok.inj h
      exact yields_return (by simpa using Slots.gives_child hw)
    · obtain rfl := Except.ok.inj h
      exact yields_return (by simp)
  -- expressions and types
  · obtain ⟨_, hname, h⟩ := bind_eq_ok.mp h
    obtain ⟨t, ht, rfl⟩ := map_eq_ok.mp hname
    obtain rfl := Except.ok.inj h
    exact .leaf (by decide) (Slots.token_eq_ok ht) .ident
  · obtain ⟨target, htarget, h⟩ := bind_eq_ok.mp h
    obtain rfl := Except.ok.inj h
    exact .node rfl (by decide) (by decide) (by decide) (.build (by simpa using Slots.gives_child htarget))
  · obtain ⟨_, hname, h⟩ := bind_eq_ok.mp h
    obtain ⟨t, ht, rfl⟩ := map_eq_ok.mp hname
    obtain rfl := Except.ok.inj h
    exact .leaf (by decide) (Slots.token_eq_ok ht) .typeName
  · obtain ⟨target, htarget, h⟩ := bind_eq_ok.mp h
    obtain rfl := Except.ok.inj h
    exact .node rfl (by decide) (by decide) (by decide) (.build (by simpa using Slots.gives_child htarget))
  · obtain ⟨op, hop, h⟩ := bind_eq_ok.mp h
    obtain ⟨lhs, hlhs, h⟩ := bind_eq_ok.mp h
    obtain ⟨rhs, hrhs, h⟩ := bind_eq_ok.mp h
    obtain rfl := Except.ok.inj h
    exact .node rfl (by decide) (by decide) (by decide) (.build (by
      simpa using ⟨Slots.gives_tokenText hop, Slots.gives_child hlhs, Slots.gives_child hrhs⟩))
  · obtain ⟨operand, hoperand, h⟩ := bind_eq_ok.mp h
    obtain rfl := Except.ok.inj h
    exact .node rfl (by decide) (by decide) (by decide) (.build (by simpa using Slots.gives_child hoperand))
  · obtain ⟨inner, hinner, h⟩ := bind_eq_ok.mp h
    obtain rfl := Except.ok.inj h
    exact .node rfl (by decide) (by decide) (by decide) (.build (by simpa using Slots.gives_child hinner))
  · obtain ⟨t, ht, h⟩ := bind_eq_ok.mp h
    obtain ⟨value, hvalue, h⟩ := bind_eq_ok.mp h
    obtain rfl := Except.ok.inj h
    exact .leaf (by decide) (Slots.token_eq_ok ht) (.number (readLiteral?_of_numberOf hvalue))
  · obtain ⟨target, htarget, h⟩ := bind_eq_ok.mp h
    obtain ⟨name, hname, h⟩ := bind_eq_ok.mp h
    obtain rfl := Except.ok.inj h
    exact .node rfl (by decide) (by decide) (by decide)
      (.build (by simpa using ⟨Slots.gives_child htarget, Slots.gives_tokenText hname⟩))
  · obtain ⟨target, htarget, h⟩ := bind_eq_ok.mp h
    obtain ⟨args, hargs, h⟩ := bind_eq_ok.mp h
    obtain rfl := Except.ok.inj h
    exact .node rfl (by decide) (by decide) (by decide)
      (.set? (.build (by simpa using Slots.gives_child htarget)) (Slots.gives_sequence hargs _))
  · obtain ⟨text, -, h⟩ := bind_eq_ok.mp h
    obtain rfl := Except.ok.inj h
    exact .node rfl (by decide) (by decide) (by decide) (.build (by simpa using Slots.Gives.text _))
  -- texts
  · obtain rfl := Except.ok.inj h
    exact .text _
  · obtain ⟨front, -, h⟩ := bind_eq_ok.mp h
    obtain ⟨t, -, h⟩ := bind_eq_ok.mp h
    obtain ⟨text, -, h⟩ := bind_eq_ok.mp h
    obtain rfl := Except.ok.inj h
    exact .text _
  · cases h

/-- A label that yields a node is none of those that yield something else. -/
theorem Yields.not_mem_pieceLabels {label : String} {span : Span} {slots : Slots} {n : Node}
    (h : Yields label span slots (.node n)) : label ∉ pieceLabels := by
  cases h with
  | handed hlabel _ => exact hlabel
  | node _ _ _ hlabel _ => exact hlabel
  | leaf hlabel _ _ =>
    have hall : ∀ label ∈ leafLabels, label ∉ pieceLabels := by decide
    exact hall label hlabel

/-- The labels of rules whose first part is a node. -/
def headLabels : List String := ["set", "binop", "member", "call"]

/-- The first part of an operator, a member, a call or an assignment is a node. -/
theorem exists_headNode {label : String} {span : Span} {slots : Slots} {v : Piece} (hlabel : label ∈ headLabels)
    (h : buildLabelled label span slots = .ok v) : ∃ n, slots[0]? = some (Child.value (.node n)) := by
  have hchild : ∀ {w : Value}, slots.child 0 = .ok w → ∃ n, slots[0]? = some (Child.value (.node n)) := by
    intro w hw
    obtain ⟨n, hn, -⟩ := map_eq_ok.mp hw
    exact ⟨n, Slots.node_eq_ok hn⟩
  simp only [headLabels, List.mem_cons, List.not_mem_nil, or_false] at hlabel
  rcases hlabel with rfl | rfl | rfl | rfl
  · obtain ⟨_, hhead, -⟩ := bind_eq_ok.mp h
    exact hchild hhead
  · obtain ⟨_, -, h⟩ := bind_eq_ok.mp h
    obtain ⟨_, hhead, -⟩ := bind_eq_ok.mp h
    exact hchild hhead
  · obtain ⟨_, hhead, -⟩ := bind_eq_ok.mp h
    exact hchild hhead
  · obtain ⟨_, hhead, -⟩ := bind_eq_ok.mp h
    exact hchild hhead

/-! ## 3. What other labels yield is in order -/

/-- All trees of a piece are in order. -/
def Piece.Fine : Piece → Prop
  | .node n => n.Everywhere Ordered
  | .list ns => ∀ n ∈ ns, n.Everywhere Ordered
  | .text _ | .nothing => True

/-- The tree that a value may be is in order. -/
def FineValue (v : Value) : Prop := ∀ m, v = .node m → m.Everywhere Ordered

/-- A tree in order whose root is no operator. -/
structure Bare (n : Node) : Prop where
  everywhere : n.Everywhere Ordered
  tag : n.tag ∉ operatorTags

/-- A node without operators, with attributes that are fine. -/
theorem Bare.build {tag : Tag} (htag : tag ∉ operatorTags) {span : Span}
    {attributes : List (String × Value)} (h : ∀ entry ∈ attributes, FineValue entry.2) :
    Bare (Node.build tag span attributes) :=
  ⟨.build (Node.ordered_of_tag htag) h, htag⟩

/-- Setting an attribute does not make an operator of a node. -/
theorem Bare.set? {n : Node} (hn : Bare n) {name : String} {v : Option Value}
    (hv : ∀ w ∈ v, FineValue w) : Bare (n.set? name v) := by
  have htag : (n.set? name v).tag ∉ operatorTags := by
    rw [Node.tag_set?]
    exact hn.tag
  refine ⟨hn.everywhere.set? (Node.ordered_of_tag htag) ?_, htag⟩
  rintro m rfl
  exact hv _ rfl m rfl

theorem fineValue_sequence {tag : Tag} (htag : tag ∉ [.binop, .neg, .deref, .call, .member])
    {items : List Node} (hitems : ∀ n ∈ items, n.Everywhere Ordered) :
    ∀ w ∈ (Node.sequence tag items none).map Value.node, FineValue w := by
  rintro w hw m rfl
  obtain ⟨m', hm', heq⟩ := Option.map_eq_some_iff.mp hw
  obtain rfl := Value.node.inj heq
  exact Node.everywhere_sequence htag hitems _ hm'

section Fine

variable {label : String} {span : Span} {slots : Slots} (hc : ∀ v, Child.value v ∈ slots → v.Fine)
include hc

/-- Values that come from slots are in order if the pieces there are. -/
theorem fineValue_of_gives {v : Value} (h : slots.Gives v) : FineValue v := by
  cases h with
  | text s => exact nofun
  | node hslot =>
    rintro _ ⟨⟩
    exact hc _ (List.mem_of_getElem? hslot)
  | @sequence _ tag ns n hslot hsequence =>
    rintro _ ⟨⟩
    have htag : tag ∉ operatorTags := by
      cases tag <;> first | decide | cases hsequence
    exact Node.everywhere_sequence htag (hc _ (List.mem_of_getElem? hslot)) _ hsequence

theorem bare_of_assembles {tag : Tag} (htag : tag ∉ operatorTags) {n : Node} (h : slots.Assembles tag span n) :
    Bare n := by
  induction h with
  | build hattributes => exact .build htag fun entry hentry => fineValue_of_gives hc (hattributes entry hentry)
  | set? _ hv ih => exact ih.set? fun w hw => fineValue_of_gives hc (hv w hw)

/-- What the other rules build has no operators of its own. -/
theorem fine_buildLabelled {v : Piece} (hlabel : label ∉ operatorLabels)
    (h : buildLabelled label span slots = .ok v) : v.Fine := by
  have hslot : ∀ {i : Nat} {v : Piece}, slots[i]? = some (.value v) → v.Fine := fun h =>
    hc _ (List.mem_of_getElem? h)
  cases yields_buildLabelled h with
  | text | nothing => trivial
  | empty => exact nofun
  | singleton hn => exact List.forall_mem_singleton.mpr (hslot hn)
  | append hfront hn => exact List.forall_mem_append.mpr ⟨hslot hfront, List.forall_mem_singleton.mpr (hslot hn)⟩
  | handed _ hn => exact hslot hn
  | leaf _ _ hleaf => cases hleaf <;> exact (Bare.build (by decide) (by simp [FineValue])).everywhere
  | node _ _ htag _ hn => exact (bare_of_assembles hc (fun h => hlabel (htag h)) hn).everywhere

end Fine

/-! ## 4. What operators build -/

theorem build_binop {span : Span} {t : Token} {lhs rhs v : Piece}
    (h : buildLabelled "binop" span [.value lhs, .token t, .value rhs] = .ok v) :
    ∃ l r, lhs = .node l ∧ rhs = .node r ∧
      v = .node (.build .binop span [("op", .str t.text), ("lhs", .node l), ("rhs", .node r)]) := by
  cases lhs <;> cases rhs <;> first | exact ⟨_, _, rfl, rfl, (Except.ok.inj h).symm⟩ | cases h

theorem build_neg {span : Span} {t : Token} {operand v : Piece}
    (h : buildLabelled "neg" span [.token t, .value operand] = .ok v) :
    ∃ n, operand = .node n ∧ v = .node (.build .neg span [("operand", .node n)]) := by
  cases operand <;> first | exact ⟨_, rfl, (Except.ok.inj h).symm⟩ | cases h

theorem build_deref {span : Span} {t : Token} {target v : Piece}
    (h : buildLabelled "deref" span [.token t, .value target] = .ok v) :
    ∃ n, target = .node n ∧ v = .node (.build .deref span [("target", .node n)]) := by
  cases target <;> first | exact ⟨_, rfl, (Except.ok.inj h).symm⟩ | cases h

theorem build_member {span : Span} {dot name : Token} {target v : Piece}
    (h : buildLabelled "member" span [.value target, .token dot, .token name] = .ok v) :
    ∃ n, target = .node n ∧
      v = .node (.build .member span [("target", .node n), ("name", .str name.text)]) := by
  cases target <;> first | exact ⟨_, rfl, (Except.ok.inj h).symm⟩ | cases h

theorem build_call {span : Span} {opening closing : Token} {target args v : Piece}
    (h : buildLabelled "call" span [.value target, .token opening, .value args, .token closing] = .ok v) :
    ∃ n ns, target = .node n ∧ args = .list ns ∧ v = .node ((Node.build .call span
      [("target", .node n)]).set? "args" ((Node.sequence .args ns none).map .node)) := by
  cases target <;> cases args <;> first | exact ⟨_, _, rfl, rfl, (Except.ok.inj h).symm⟩ | cases h

/-! ## 5. When operators are in order -/

/-- What members can be taken of, and what can be called. -/
def headTags : List Tag := [.ident, .member, .call]

theorem isSum_binop {span : Span} {op : String} {l r : Node} :
    (Node.build .binop span [("op", .str op), ("lhs", .node l), ("rhs", .node r)]).isSum =
      (op == "+" || op == "-") := rfl

/-- When the operands of an operator are in order. -/
theorem ordered_binop {span : Span} {op : String} {l r : Node} :
    (Node.build .binop span [("op", .str op), ("lhs", .node l), ("rhs", .node r)]).Ordered ↔
      ((op == "+" || op == "-") = true → r.isSum = false) ∧
        (op = "*" → l.isSum = false ∧ r.tag ≠ .binop) := by
  have hstr : (Node.build .binop span [("op", .str op), ("lhs", .node l), ("rhs", .node r)]).str? "op" =
      some op := rfl
  have hlhs : (Node.build .binop span [("op", .str op), ("lhs", .node l), ("rhs", .node r)]).node? "lhs" =
      some l := rfl
  have hrhs : (Node.build .binop span [("op", .str op), ("lhs", .node l), ("rhs", .node r)]).node? "rhs" =
      some r := rfl
  have htag : (Node.build .binop span [("op", .str op), ("lhs", .node l), ("rhs", .node r)]).tag =
      .binop := rfl
  simp only [Node.Ordered, htag, isSum_binop, hstr, hlhs, hrhs, Option.mem_def, Option.some.injEq,
    forall_eq']

theorem ordered_neg {span : Span} {n : Node} :
    (Node.build .neg span [("operand", .node n)]).Ordered ↔ n.tag ≠ .binop := by
  have hoperand : (Node.build .neg span [("operand", .node n)]).node? "operand" = some n := rfl
  have htag : (Node.build .neg span [("operand", .node n)]).tag = .neg := rfl
  simp only [Node.Ordered, htag, hoperand, Option.mem_def, Option.some.injEq, forall_eq']

theorem ordered_deref {span : Span} {n : Node} :
    (Node.build .deref span [("target", .node n)]).Ordered ↔ n.tag ≠ .binop := by
  have htarget : (Node.build .deref span [("target", .node n)]).node? "target" = some n := rfl
  have htag : (Node.build .deref span [("target", .node n)]).tag = .deref := rfl
  simp only [Node.Ordered, htag, htarget, Option.mem_def, Option.some.injEq, forall_eq']

theorem ordered_member {span : Span} {n : Node} {name : String} :
    (Node.build .member span [("target", .node n), ("name", .str name)]).Ordered ↔ n.tag ∈ headTags := by
  have htarget : (Node.build .member span [("target", .node n), ("name", .str name)]).node? "target" =
      some n := rfl
  have htag : (Node.build .member span [("target", .node n), ("name", .str name)]).tag = .member := rfl
  simp only [Node.Ordered, htag, htarget, Option.mem_def, Option.some.injEq, forall_eq', headTags]

/-- When the target of a call is in order. Its arguments may be anything. -/
theorem ordered_call {span : Span} {n : Node} {args : Option Value} :
    ((Node.build .call span [("target", .node n)]).set? "args" args).Ordered ↔ n.tag ∈ headTags := by
  have htarget : ((Node.build .call span [("target", .node n)]).set? "args" args).node? "target" =
      some n := by cases args <;> rfl
  have htag : ((Node.build .call span [("target", .node n)]).set? "args" args).tag = .call := by
    rw [Node.tag_set?]
    rfl
  simp only [Node.Ordered, htag, htarget, Option.mem_def, Option.some.injEq, forall_eq', headTags]

end Language

end Lode
