/-
# Merged code

Two pieces of code at the front of a sequence become one, on the way up.  The walk leaves the last cell of a
sequence of code first, with nothing behind it to merge.  Every cell before it is left when one cell is
behind it: the code of all the pieces that follow.  So the relocations of a piece move once for each piece
before it, and in the end by the bytes of all of them (`MachineCode.isJoint_join`).

Of a sequence of code one cell is left, with the code of all its pieces (`FlattenSymbol.joins_code`).

The statement is about nodes and not about programs, because the rules are: a chain of cells of any
sequence, whose elements are pieces of code with whatever data they carry (`IsChain`, `IsCode`).  What the
whole is made of is said without the order in which pieces are joined (`IsJoint`): its bytes, the
relocations in their order, each moved by the bytes in front of its piece, and the bytes that a relocation
finds at its new place.  Joining the first piece to what is made of the others is one step of an induction
over the list, and the walk takes exactly these steps (`walk_codes`).
-/
import Lode.Proofs.Pass.Flattening
import Lode.Proofs.Tree.Sequences

namespace Lode

/-! ## 1. Chains -/

namespace Node

variable {tag : Tag} {element : String} {n x : Node}

/-- A node is a chain of cells that hold the given elements, one after the other. -/
inductive IsChain (tag : Tag) (element : String) : List Node → Node → Prop
  | last {n x : Node} : n.IsCell tag element x none → IsChain tag element [x] n
  | cons {n m x : Node} {xs : List Node} : n.IsCell tag element x (some m) →
      IsChain tag element xs m → IsChain tag element (x :: xs) n

/-- A chain has its elements. -/
theorem IsChain.elements_eq (htag : tag.element? = some element) {xs : List Node}
    (h : n.IsChain tag element xs) : n.tag = tag ∧ n.elements = xs := by
  induction h with
  | last hcell =>
    exact ⟨hcell.tagged, elements_cell htag hcell.tagged hcell.holds hcell.follows (by simp)⟩
  | @cons n m x xs hcell _ ih =>
    have helements := elements_cell htag hcell.tagged hcell.holds hcell.follows
      fun m' hm' => Option.some.inj hm' ▸ ih.1
    exact ⟨hcell.tagged, helements.trans (congrArg (x :: ·) ih.2)⟩

/-- Elements are put into a chain. -/
theorem isChain_sequence (htag : tag.element? = some element) : ∀ (x : Node) (xs : List Node),
    ∃ n, sequence tag (x :: xs) none = some n ∧ n.IsChain tag element (x :: xs)
  | x, [] => by
    rw [sequence_cons htag, sequence_nil htag]
    exact ⟨_, rfl, .last (isCell_cell htag x none)⟩
  | x, y :: xs => by
    obtain ⟨m, hm, hchain⟩ := isChain_sequence htag y xs
    rw [sequence_cons htag, hm]
    exact ⟨_, rfl, .cons (isCell_cell htag x (some m)) hchain⟩

/-- What is in a cell is smaller than the cell. -/
theorem IsCell.size_le {next : Option Node} {fuel : Nat} (hn : n.IsCell tag element x next)
    (hfuel : n.size ≤ fuel + 1) : x.size ≤ fuel ∧ ∀ m ∈ next, m.size ≤ fuel := by
  obtain ⟨_, fields, _⟩ := n
  have hchild : ∀ {name : String} {m : Node},
      (name, m) ∈ (element, x) :: (next.map ("next", ·)).toList → m.size ≤ fuel := fun hm =>
    size_child_le hfuel (mem_of_mem_visitOrder (hn.visits ▸ hm))
  refine ⟨hchild List.mem_cons_self, fun m hm => @hchild "next" m (List.mem_cons_of_mem _ ?_)⟩
  rw [Option.mem_def.mp hm]
  exact List.mem_singleton_self _

/-- A piece of code in a tree.  It carries data, but there are no nodes below it. -/
structure IsCode (n : Node) : Prop where
  tagged : n.tag = .code
  ordered : n.fields.ordered = true
  leaf : n.fields.nodes = []

theorem isCode_node (c : MachineCode) (span : Span) : (c.node span).IsCode := ⟨rfl, rfl, rfl⟩

end Node

/-! ## 2. Joined code -/

namespace MachineCode

/-- Pieces of code in one piece. -/
def join (pieces : List MachineCode) : MachineCode := pieces.foldr append empty

/-- The number of bytes in the pieces before one of them. -/
def lengthBefore (pieces : List MachineCode) (i : Nat) : Nat :=
  ((pieces.take i).map (·.bytes.length)).sum

/-- A piece of code that is made of others.  Its bytes are theirs, one after the other.  Its relocations are
theirs in the same order, each moved by the bytes of the pieces before its own, and at its new place a
relocation finds the bytes that were at the old one. -/
structure IsJoint (pieces : List MachineCode) (whole : MachineCode) : Prop where
  bytes : whole.bytes = pieces.flatMap (·.bytes)
  relocations : whole.relocations = (pieces.mapIdx fun i c => c.relocations.map fun r =>
    { r with offset := r.offset + lengthBefore pieces i }).flatten
  operands : ∀ {i : Nat} {c : MachineCode}, pieces[i]? = some c → ∀ r ∈ c.relocations,
    { r with offset := r.offset + lengthBefore pieces i } ∈ whole.relocations ∧
      ∀ {k : Nat} {b : UInt8}, c.bytes[r.offset + k]? = some b →
        whole.bytes[r.offset + lengthBefore pieces i + k]? = some b

@[simp] theorem join_cons (c : MachineCode) (pieces : List MachineCode) :
    join (c :: pieces) = c.append (join pieces) := rfl

@[simp] theorem lengthBefore_zero (pieces : List MachineCode) : lengthBefore pieces 0 = 0 := rfl

@[simp] theorem lengthBefore_succ (c : MachineCode) (pieces : List MachineCode) (i : Nat) :
    lengthBefore (c :: pieces) (i + 1) = c.bytes.length + lengthBefore pieces i := by
  simp [lengthBefore]

/-- **Joined code** is made of its pieces. -/
theorem isJoint_join : ∀ pieces : List MachineCode, IsJoint pieces (join pieces)
  | [] => ⟨rfl, rfl, fun h => by simp at h⟩
  | c :: pieces => by
    have ih := isJoint_join pieces
    refine ⟨?_, ?_, fun {i} => ?_⟩
    · rw [join_cons, append, ih.bytes, List.flatMap_cons]
    · rw [join_cons, append, ih.relocations, List.mapIdx_cons, List.flatten_cons, List.map_flatten]
      simp [List.mapIdx_eq_zipIdx_map, Relocation.shifted, Function.comp_def, Nat.add_comm, Nat.add_left_comm]
    · intro c' hc' r hr
      cases i with
      | zero =>
        obtain rfl := Option.some.inj hc'
        refine ⟨List.mem_append_left _ hr, fun {k b} hb => ?_⟩
        rw [lengthBefore_zero, Nat.add_zero, join_cons, append]
        exact List.getElem?_append_left (List.getElem?_eq_some_iff.mp hb).1 ▸ hb
      | succ i =>
        obtain ⟨hmoved, hbytes⟩ := ih.operands hc' r hr
        have hplace : r.offset + lengthBefore (c :: pieces) (i + 1) =
            r.offset + lengthBefore pieces i + c.bytes.length := by
          rw [lengthBefore_succ]
          omega
        rw [hplace]
        refine ⟨List.mem_append_right _ (List.mem_map_of_mem hmoved), fun {k b} hb => ?_⟩
        rw [join_cons, append, Nat.add_right_comm, List.getElem?_append_right (Nat.le_add_left ..),
          Nat.add_sub_cancel]
        exact hbytes hb

end MachineCode

/-! ## 3. The rules at cells of code -/

namespace FlattenSymbol

variable {tag : Tag} {element : String}

/-- What two pieces of code become. -/
def joined (first second : Node) : Node :=
  ((MachineCode.ofNode first).append (.ofNode second)).node (first.span.join second.span)

theorem ofNode_joined (first second : Node) : MachineCode.ofNode (joined first second) =
    (MachineCode.ofNode first).append (.ofNode second) := rfl

/-- Code that stands alone stays. -/
theorem apply_last {n x : Node} (htag : n.tag.element? = some element)
    (hholds : n.fields.get? element = some (.node x)) (hlast : n.fields.get? "next" = none)
    (hx : x.IsCode) : rules.apply n = .ok .keep := by
  refine apply_cell (by rw [Tag.isSequence, htag]; rfl) ?_
  have hcells : n.cells = [n] := by rw [Node.cells_eq, Fields.nextCells_eq, hlast]; rfl
  have hcell : Pattern.cellElement? n = some (.node x) := by rw [Pattern.cellElement?, htag]; exact hholds
  simp only [Pattern.ones, ItemPatterns.match?, hcells, hcell, match_code_of_tag hx.tagged, ok_bind]

/-- Two pieces of code, with nothing behind them, become one. -/
theorem apply_pair {n m first second : Node} (htag : n.tag.element? = some element) (hsame : m.tag = n.tag)
    (hfirst : n.fields.get? element = some (.node first)) (hnext : n.fields.get? "next" = some (.node m))
    (hsecond : m.fields.get? element = some (.node second)) (hlast : m.fields.get? "next" = none)
    (hcode : first.IsCode) (hcode' : second.IsCode) :
    rules.apply n = .ok (.replace (Node.cell n.tag element (joined first second) none)) := by
  have hgoes : (m.tag == n.tag) = true := beq_iff_eq.mpr hsame
  have hcells : n.cells = [n, m] := by
    rw [Node.cells_eq, Fields.nextCells_eq, hnext]
    simp only [Option.bind_some, Value.node?, hgoes, if_true]
    rw [Node.cells_eq, Fields.nextCells_eq, hlast]
    rfl
  have hcell : Pattern.cellElement? n = some (.node first) := by rw [Pattern.cellElement?, htag]; exact hfirst
  have hcell' : Pattern.cellElement? m = some (.node second) := by
    rw [Pattern.cellElement?, hsame, htag]
    exact hsecond
  have hmatch : mergeCode.pattern.match? (.node n) [] = .ok (some
      (((Bindings.bind [] "first" (.value (.node first))).bind "second" (.value (.node second))).bind "rest"
        (.rest none))) := by
    rw [mergeCode, Pattern.match?]
    refine (if_pos (by rw [Tag.isSequence, htag]; rfl)).trans ?_
    simp only [Pattern.ones, ItemPatterns.match?, hcells, hcell, hcell', match_code_of_tag hcode.tagged,
      match_code_of_tag hcode'.tagged, ok_bind]
    rfl
  rw [RuleSet.apply, rules, RuleSet.applyRules_cons hmatch]
  change Except.mapError _ (.ok (Verdict.ofOption (Node.sequence n.tag [joined first second] none))) = _
  rw [Node.sequence_cons htag, Node.sequence_nil htag]
  rfl

/-! ## 4. The walk -/

/-- A walk leaves a piece of code as it is. -/
theorem walk_code {x : Node} (hx : x.IsCode) (fuel : Nat) :
    (walkWithin rules.hooks (fuel + 1) x).outcome () = (.ok (some x), ()) := by
  obtain ⟨tag, fields, span⟩ := x
  obtain ⟨rfl, hordered, hleaf⟩ := hx
  simp only [Node.fields] at hordered hleaf
  have hkeep : rules.apply (.mk .code fields span) = .ok .keep := apply_other rfl nofun
  have hexit : Walk.Mirrors id (settle rules.hooks.exit (.mk .code fields span))
      (pure (some (.mk .code fields span)) : Walk Unit (Option Node)) :=
    mirrors_keep (congrArg (fun verdict => ExceptT.mk (pure verdict)) hkeep)
  exact walkWithin_leaf rfl (by rw [Node.framed, Node.fields, hordered]; rfl) (by rw [hleaf]; rfl) hexit ()

/-- A walk over a cell of code goes on to the rest of the chain. -/
theorem walk_code_cell (htag : tag.element? = some element) {n x : Node} {next : Option Node}
    (hn : n.IsCell tag element x next) (hx : x.IsCode) {fuel : Nat} (hfuel : n.size ≤ fuel + 1) :
    (walkWithin rules.hooks (fuel + 1) n).outcome () = Walk.outcome (do
      let rest ← walkRest rules.hooks fuel next
      leaveCell rules.hooks n element (some x) rest) () := by
  obtain ⟨fuel, rfl⟩ := Nat.exists_eq_add_of_le' (Nat.le_trans x.size_pos (hn.size_le hfuel).1)
  rw [walk_cell htag hn rfl rfl, Walk.outcome_bind_of_ok (walk_code hx fuel)]

/-- A cell is left with the verdict of the rules. -/
theorem leave_code (n x : Node) (rest : Option Node) {verdict : Verdict}
    (h : rules.apply (n.refill element (some x) rest) = .ok verdict) :
    (leaveCell rules.hooks n element (some x) rest).outcome () =
      (.ok (verdict.apply (n.refill element (some x) rest)), ()) := by
  have hexit : rules.hooks.exit (n.refill element (some x) rest) = pure verdict :=
    congrArg (fun verdict => ExceptT.mk (pure verdict)) h
  rw [leaveCell, settle, hexit]
  rfl

/-- A chain that is left of pieces of code: one cell, with the code of all of them. -/
def Left (tag : Tag) (element : String) (codes : List Node) (cell : Node) : Prop :=
  ∃ code, cell.IsCell tag element code none ∧ code.IsCode ∧
    MachineCode.ofNode code = MachineCode.join (codes.map MachineCode.ofNode)

/-- A cell without a successor is refilled with its own element. -/
theorem refill_last {n x : Node} (hn : n.IsCell tag element x none) : n.refill element (some x) none = n := by
  have hmem : (element, x) ∈ n.fields.nodes :=
    mem_of_mem_visitOrder (hn.visits ▸ List.mem_cons_self)
  have hput : n.fields.put element (some x) = n.fields := Fields.set_self hn.ordered hmem
  have herase : n.fields.put "next" none = n.fields := Fields.erase_of_get?_eq_none hn.follows
  rw [Node.refill, hput, herase]
  cases n
  rfl

/-- **A walk over a chain of code** leaves one cell.  The last cell is left first, and every other one when the
code of those behind it is in one piece. -/
theorem walk_codes (htag : tag.element? = some element) {codes : List Node} {n : Node}
    (hchain : n.IsChain tag element codes) (hcodes : ∀ c ∈ codes, c.IsCode) {fuel : Nat} (hfuel : n.size ≤ fuel) :
    ∃ cell, (walkWithin rules.hooks fuel n).outcome () = (.ok (some cell), ()) ∧ Left tag element codes cell := by
  induction hchain generalizing fuel with
  | @last n x hcell =>
    have hx : x.IsCode := hcodes x List.mem_cons_self
    obtain ⟨fuel, rfl⟩ := Nat.exists_eq_add_of_le' (Nat.le_trans n.size_pos hfuel)
    have hkeep : rules.apply (n.refill element (some x) none) = .ok .keep := by
      rw [refill_last hcell]
      exact apply_last (hcell.tagged ▸ htag) hcell.holds hcell.follows hx
    refine ⟨n, ?_, x, hcell, hx, (MachineCode.append_empty _).symm⟩
    rw [walk_code_cell htag hcell hx hfuel, walkRest, pure_bind, leave_code n x none hkeep, refill_last hcell]
    rfl
  | @cons n m x xs hcell _ ih =>
    obtain ⟨hx, hxs⟩ := List.forall_mem_cons.mp hcodes
    obtain ⟨fuel, rfl⟩ := Nat.exists_eq_add_of_le' (Nat.le_trans n.size_pos hfuel)
    obtain ⟨cell, hwalk, code, hleft, hcode, hjoin⟩ := ih hxs ((hcell.size_le hfuel).2 m rfl)
    obtain ⟨hholds, hfollows⟩ := hcell.get?_refill htag (some x) (some cell)
    have htagged : (n.refill element (some x) (some cell)).tag = tag := hcell.tagged
    have hpair := apply_pair (htagged ▸ htag) (hleft.tagged.trans htagged.symm) hholds hfollows hleft.holds
      hleft.follows hx hcode
    refine ⟨_, ?_, joined x code, Node.isCell_cell htag (joined x code) none, Node.isCode_node _ _, ?_⟩
    · rw [walk_code_cell htag hcell hx hfuel, walkRest, Walk.outcome_bind_of_ok hwalk,
        leave_code n x (some cell) hpair, htagged]
      rfl
    · rw [ofNode_joined, hjoin]
      rfl

/-- **Code in a sequence is joined.**  Of a chain of pieces of code, the rules leave a chain with one element.
It is a piece of code that is made of the pieces, with the bytes of all of them and their relocations in
order, each at the operand bytes that it was at. -/
theorem joins_code {codes : List Node} {tree : Node} (hcodes : ∀ c ∈ codes, c.IsCode)
    (htree : tree.IsChain .stmts "stmt" codes) :
    ∃ verdict left code, rules.run tree = .ok verdict ∧ verdict.apply tree = some left ∧
      left.IsChain .stmts "stmt" [code] ∧ left.elements = [code] ∧ code.IsCode ∧
      MachineCode.IsJoint (codes.map MachineCode.ofNode) (.ofNode code) := by
  obtain ⟨left, hwalk, code, hcell, hcode, hjoin⟩ := walk_codes rfl htree hcodes tree.size_le_walkBudget
  obtain ⟨verdict, hrun, hleft⟩ := run_of_walk hwalk
  have hchain : left.IsChain .stmts "stmt" [code] := .last hcell
  exact ⟨verdict, left, code, hrun, hleft, hchain, (hchain.elements_eq rfl).2, hcode,
    hjoin ▸ MachineCode.isJoint_join _⟩

theorem joins_code_call_store_return :
    let codes := [(⟨[0x20, 0, 0], [⟨1, "u.f", .absolute16⟩]⟩ : MachineCode).node .nowhere,
      (⟨[0x8d, 0, 0], [⟨1, "u.x", .absolute16⟩]⟩ : MachineCode).node .nowhere,
      (⟨[0x60], []⟩ : MachineCode).node .nowhere]
    ∃ tree, Node.sequence .stmts codes none = some tree ∧ (∀ c ∈ codes, c.IsCode) ∧
      tree.IsChain .stmts "stmt" codes ∧
      ∃ verdict left code, rules.run tree = .ok verdict ∧ verdict.apply tree = some left ∧
        left.elements = [code] ∧ MachineCode.ofNode code =
          ⟨[0x20, 0, 0, 0x8d, 0, 0, 0x60], [⟨1, "u.f", .absolute16⟩, ⟨4, "u.x", .absolute16⟩]⟩ := by
  intro codes
  obtain ⟨tree, htree, hchain⟩ : ∃ tree, Node.sequence .stmts codes none = some tree ∧
    tree.IsChain .stmts "stmt" codes := Node.isChain_sequence rfl _ _
  have hcodes : ∀ c ∈ codes, c.IsCode := by
    simp [codes, Node.isCode_node]
  obtain ⟨verdict, left, code, hrun, hleft, -, helements, -, hjoint⟩ := joins_code hcodes hchain
  refine ⟨tree, htree, hcodes, hchain, verdict, left, code, hrun, hleft, helements, ?_⟩
  have hbytes := hjoint.bytes
  have hrelocations := hjoint.relocations
  generalize MachineCode.ofNode code = joint at hbytes hrelocations
  obtain ⟨bytes, relocations⟩ := joint
  obtain rfl : bytes = _ := hbytes
  obtain rfl : relocations = _ := hrelocations
  rfl

end FlattenSymbol

end Lode
