/-
# Flattened programs

The code of a function becomes one piece, and the function a symbol.  Pieces of code that stand next to each
other are merged when the cell of the first is left, so a list is merged from its end, and a function whose
body is a single piece afterwards is replaced by a symbol with that code.

The rules of the pass are patterns over cells, and a cell is the same kind of node for statements and for
items of the unit.  Section 2 therefore goes through the cells by what stands in them: code before code,
code before something else, something else.  From there on the pass is a function on lists (`merged`).

Merging loses nothing.  The code in a list, put together, is the same before and after (`codeIn_merged`),
and what is no code stays (`mem_merged`); so if a single piece of code is left of a body, the body was
nothing but code, and the piece is all of it (`all_code`).  In particular its last instruction is still a
return (`codeIn_ends`).

With this a bound program stays bound, and the code of every symbol ends in a return (`bound`).
-/
import Lode.Proofs.Pass.Assembly

namespace Lode.FlattenSymbol

open Program
open Walk (Mirrors)

/-! ## 1. The visitor -/

/-- Two pieces of code at the front of statements become one. -/
def merge : Stmt → Stmts → Span → Stmts
  | .code c span, .cons (.code c' span') rest _, _ =>
    rest.prepend [.code (c.append c') (span.join span')]
  | s, rest, span => .cons s rest span

/-- Two pieces of code at the front of items become one. -/
def mergeItems : Program.Item → Items → Span → Items
  | .global (.code c span), (.global (.code c' span'), _) :: rest, _ =>
    let merged : Stmt := .code (c.append c') (span.join span')
    (.global merged, joinSpan merged.node.span (Items.node? rest)) :: rest
  | i, rest, span => (i, span) :: rest

/-- The piece of code that statements are, with its place. -/
def single? : Stmts → Option (MachineCode × Span)
  | .cons (.code c span) .nil _ => some (c, span)
  | _ => none

/-- A function with a single piece of code becomes a symbol. -/
def leaveFunction (f : Function) : Except Error Program.Item :=
  Except.mapError (·.locate f.span) <|
    match single? f.body with
    | some (c, _) => do
      let symbol ← f.node.textOf "symbol"
      let type ← f.node.exprType
      return .compiled symbol c type f.locals f.span
    | none => .ok (.function f)

/-- What the pass does to the parts of a program. -/
def visitor : Visitor Unit where
  cell s rest span := pure (merge s rest span)
  exitFunction f := liftM (leaveFunction f)
  itemCell i rest span := pure (mergeItems i rest span)

/-! ## 2. The pass is the visitor -/

/-- The rules leave nodes alone that are neither cells nor functions. -/
theorem apply_other {n : Node} (hsequence : n.tag.isSequence = false) (hfunction : n.tag ≠ .function) :
    rules.apply n = .ok .keep := by
  obtain ⟨tag, fields, span⟩ := n
  have hmerge : mergeCode.pattern.match? (.node (.mk tag fields span)) [] = .ok none := by
    rw [mergeCode, Pattern.match?]
    exact if_neg (by simpa [Node.tag] using hsequence)
  have hsymbol : functionSymbol.pattern.match? (.node (.mk tag fields span)) [] = .ok none := by
    rw [functionSymbol, Pattern.tagged, Pattern.match?]
    exact if_pos (by simp [show tag ≠ .function from hfunction, Node.tag])
  simp only [RuleSet.apply, rules, RuleSet.applyRules, hmerge, hsymbol, ok_bind]
  rfl

/-- The rules leave a cell alone whose elements do not begin with two pieces of code. -/
theorem apply_cell {n : Node} (hsequence : n.tag.isSequence = true)
    (hmatch : ItemPatterns.match? (Pattern.ones [.capture "first" (.tagged .code []),
      .capture "second" (.tagged .code [])]) n.cells (some "rest") [] = .ok none) :
    rules.apply n = .ok .keep := by
  obtain ⟨tag, fields, span⟩ := n
  have hmerge : mergeCode.pattern.match? (.node (.mk tag fields span)) [] = .ok none := by
    rw [mergeCode, Pattern.match?]
    exact (if_pos (by simpa [Node.tag] using hsequence)).trans hmatch
  have hsymbol : functionSymbol.pattern.match? (.node (.mk tag fields span)) [] = .ok none := by
    rw [functionSymbol, Pattern.tagged, Pattern.match?]
    refine if_pos ?_
    cases tag <;> first | rfl | cases hsequence
  simp only [RuleSet.apply, rules, RuleSet.applyRules, hmerge, hsymbol, ok_bind]
  rfl

theorem match_code {m : Node} (hm : m.tag ≠ .code) (name : String) (b : Bindings) :
    (Pattern.capture name (.tagged .code [])).match? (.node m) b = .ok none := by
  simp [Pattern.match?, Pattern.tagged, hm]
  rfl

theorem match_code_of_tag {m : Node} (hm : m.tag = .code) (name : String) (b : Bindings) :
    (Pattern.capture name (.tagged .code [])).match? (.node m) b =
      .ok (some (b.bind name (.value (.node m)))) := by
  simp [Pattern.match?, Pattern.tagged, hm, FieldPatterns.ofList, FieldPatterns.match?]
  rfl

/-- A cell that does not hold code stays. -/
theorem apply_cell_of_ne {n m : Node} (element : String) (helement : n.tag.element? = some element)
    (hget : n.get? element = some (.node m)) (hm : m.tag ≠ .code) : rules.apply n = .ok .keep := by
  refine apply_cell (by rw [Tag.isSequence, helement]; rfl) ?_
  obtain ⟨tag, fields, span⟩ := n
  have hcell : Pattern.cellElement? (.mk tag fields span) = some (.node m) := by
    rw [Pattern.cellElement?, helement]
    exact hget
  simp only [Pattern.ones, Node.cells, ItemPatterns.match?, hcell, match_code hm, ok_bind]
  rfl

/-- The cells of statements. -/
theorem cells_stmts (s : Stmt) (rest : Stmts) (span : Span) :
    (Part.cell s rest span).node.cells =
      (Part.cell s rest span).node :: rest.node?.elim [] Node.cells := by
  cases rest with
  | nil => rfl
  | cons s' rest' span' => rfl

theorem cells_items (i : Program.Item) (rest : Items) (span : Span) :
    (Part.itemCell i rest span).node.cells =
      (Part.itemCell i rest span).node :: (Items.node? rest).elim [] Node.cells := by
  cases rest with
  | nil => rfl
  | cons entry rest => rfl

/-- Statements that are code are told by the tag of their node. -/
theorem stmt_code (s : Stmt) : s.node.tag = .code ↔ ∃ c span, s = .code c span := by
  cases s with
  | expr e =>
    cases e with
    | cell place _ _ _ => cases place <;> simp [Stmt.node, Expr.node, Node.tag]
    | _ => simp [Stmt.node, Expr.node, Node.tag]
  | _ => simp [Stmt.node, Let.node, Data.node, Node.tag]

theorem item_code (i : Program.Item) : i.node.tag = .code ↔ ∃ c span, i = .global (.code c span) := by
  cases i with
  | global s => simp [Program.Item.node, stmt_code]
  | _ => simp [Program.Item.node, Function.node, Node.tag]

theorem merge_of_first_ne {s : Stmt} (hs : s.node.tag ≠ .code) (rest : Stmts) (span : Span) :
    merge s rest span = .cons s rest span := by
  cases s with
  | code c place => exact absurd rfl hs
  | _ => rfl

theorem merge_of_second_ne {c : MachineCode} {place : Span} {s : Stmt} (hs : s.node.tag ≠ .code)
    (rest : Stmts) (span span' : Span) :
    merge (.code c place) (.cons s rest span') span = .cons (.code c place) (.cons s rest span') span := by
  cases s with
  | code c place => exact absurd rfl hs
  | _ => rfl

/-- Nothing is merged in items without code in front. -/
theorem mergeItems_of_first_ne {i : Program.Item} (hi : i.node.tag ≠ .code) (rest : Items)
    (span : Span) : mergeItems i rest span = (i, span) :: rest := by
  cases i with
  | global s =>
    cases s with
    | code c place => exact absurd rfl hi
    | _ => rfl
  | _ => rfl

theorem mergeItems_of_second_ne {c : MachineCode} {place : Span} {i : Program.Item}
    (hi : i.node.tag ≠ .code) (rest : Items) (span span' : Span) :
    mergeItems (.global (.code c place)) ((i, span') :: rest) span =
      (.global (.code c place), span) :: (i, span') :: rest := by
  cases i with
  | global s =>
    cases s with
    | code c place => exact absurd rfl hi
    | _ => rfl
  | _ => rfl

/-- A piece of code in front of something else stays. -/
theorem apply_cell_of_second_ne {n m first : Node} (element : String) {cells : List Node}
    (helement : n.tag.element? = some element) (hget : n.get? element = some (.node first))
    (hfirst : first.tag = .code) (hcells : n.cells = n :: m :: cells) (second : Node)
    (hsecond : Pattern.cellElement? m = some (.node second)) (hne : second.tag ≠ .code) :
    rules.apply n = .ok .keep := by
  refine apply_cell (by rw [Tag.isSequence, helement]; rfl) ?_
  have hcell : Pattern.cellElement? n = some (.node first) := by
    rw [Pattern.cellElement?, helement]
    exact hget
  simp only [hcells, Pattern.ones, ItemPatterns.match?, hcell, match_code_of_tag hfirst, ok_bind, hsecond,
    match_code hne]
  rfl

/-- **Statements.** -/
theorem apply_stmts (s : Stmt) (rest : Stmts) (span : Span) :
    (fun verdict => verdict.apply (Part.cell s rest span).node) <$>
      rules.apply (Part.cell s rest span).node = .ok (merge s rest span).node? := by
  by_cases hs : s.node.tag = .code
  · obtain ⟨c, place, rfl⟩ := (stmt_code s).mp hs
    cases rest with
    | nil => rfl
    | cons s' rest span' =>
      by_cases hs' : s'.node.tag = .code
      · obtain ⟨c', place', rfl⟩ := (stmt_code s').mp hs'
        cases rest <;> rfl
      · have hkeep := apply_cell_of_second_ne (n := (Part.cell (.code c place) (.cons s' rest span') span).node)
          (m := (Part.cell s' rest span').node) "stmt" rfl rfl rfl (cells_stmts _ _ _) s'.node (by cases rest <;> rfl) hs'
        rw [hkeep, merge_of_second_ne hs']
        rfl
  · have hkeep := apply_cell_of_ne (n := (Part.cell s rest span).node) (m := s.node) "stmt"
      rfl (by cases rest <;> rfl) hs
    rw [hkeep, merge_of_first_ne hs]
    rfl

/-- **Items.** -/
theorem apply_items (i : Program.Item) (rest : Items) (span : Span) :
    (fun verdict => verdict.apply (Part.itemCell i rest span).node) <$>
      rules.apply (Part.itemCell i rest span).node = .ok (Items.node? (mergeItems i rest span)) := by
  by_cases hi : i.node.tag = .code
  · obtain ⟨c, place, rfl⟩ := (item_code i).mp hi
    cases rest with
    | nil => rfl
    | cons entry rest =>
      obtain ⟨i', span'⟩ := entry
      by_cases hi' : i'.node.tag = .code
      · obtain ⟨c', place', rfl⟩ := (item_code i').mp hi'
        cases rest <;> rfl
      · have hkeep := apply_cell_of_second_ne
          (n := (Part.itemCell (.global (.code c place)) ((i', span') :: rest) span).node)
          (m := (Part.itemCell i' rest span').node) "item" rfl rfl rfl (cells_items _ _ _) i'.node (by cases rest <;> rfl) hi'
        rw [hkeep, mergeItems_of_second_ne hi']
        rfl
  · have hkeep := apply_cell_of_ne (n := (Part.itemCell i rest span).node) (m := i.node) "item"
      rfl (by cases rest <;> rfl) hi
    rw [hkeep, mergeItems_of_first_ne hi]
    rfl

/-- What is captured of the body of a function. -/
def captures (code : MachineCode × Span) : Bindings :=
  [("code", .value (.node (Stmt.code code.1 code.2).node))]

/-- The body of a function matches if a single piece of code is left of it. -/
theorem match_body {body : Stmts} {n : Node} (hn : body.node? = some n) :
    (Pattern.sequence (Pattern.ones [.capture "code" (.tagged .code [])]) none).match? (.node n) [] =
      .ok ((single? body).map captures) := by
  cases body with
  | nil => cases hn
  | cons s rest span =>
    obtain rfl := Option.some.inj hn
    have hcells := cells_stmts s rest span
    have helement : Pattern.cellElement? (Part.cell s rest span).node = some (.node s.node) := by
      cases rest <;> rfl
    change ItemPatterns.match? (Pattern.ones [.capture "code" (.tagged .code [])])
      (Part.cell s rest span).node.cells none [] = _
    rw [hcells]
    by_cases hs : s.node.tag = .code
    · obtain ⟨c, place, rfl⟩ := (stmt_code s).mp hs
      cases rest <;> rfl
    · simp only [Pattern.ones, ItemPatterns.match?, helement, match_code hs, ok_bind]
      cases s with
      | code c place => exact absurd rfl hs
      | _ => rfl

/-- **Functions.** -/
theorem apply_function (f : Function) :
    (fun verdict => verdict.apply f.node) <$> rules.apply f.node =
      (fun i => some i.node) <$> leaveFunction f := by
  have hmerge : mergeCode.pattern.match? (.node f.node) [] = .ok none := rfl
  have hget : f.node.get? "body" = f.body.node?.map .node := by
    simp only [Node.get?, Function.node, Node.fields, Fields.get?_optional, Fields.get?]
    cases f.body.node? <;> simp
  have hmatch : functionSymbol.pattern.match? (.node f.node) [] =
      .ok ((single? f.body).map captures) := by
    refine (Pattern.match?_tagged rfl _ _).trans ?_
    rw [FieldPatterns.ofList]
    cases hbody : f.body.node? with
    | none =>
      rw [Stmts.eq_nil_of_node? hbody]
      simp only [FieldPatterns.match?, hget, hbody]
      rfl
    | some n =>
      rw [FieldPatterns.match?_cons (by rw [hget, hbody]; rfl) (match_body hbody)]
      cases single? f.body <;> rfl
  have hrule : rules.apply f.node = Except.mapError (·.locate f.span)
      (((single? f.body).map captures).elim (.ok .keep) (functionSymbol.template · f.node)) := by
    rw [RuleSet.apply, rules, RuleSet.applyRules_cons hmerge, Option.elim_none,
      RuleSet.applyRules_cons hmatch]
    rfl
  have hlocals : f.node.table? "locals" = f.locals.map Locals.raw := by
    simp only [Node.table?, Node.get?, Function.node, Node.fields, Fields.get?_optional, Fields.get?]
    cases f.locals <;> simp [Value.table?]
  have htemplate : ∀ code, functionSymbol.template (captures code) f.node = (do
        let symbol ← f.node.textOf "symbol"
        let type ← f.node.exprType
        return .replace (Program.Item.compiled symbol code.1 type f.locals f.span).node) := by
    intro code
    change (do
      let symbol ← f.node.textOf "symbol"
      let type ← f.node.exprType
      return Verdict.replace ((Node.build .funSymbol f.span [("name", .str symbol),
        ("bytes", .bytes code.1.bytes), ("relocs", .relocations code.1.relocations),
        ("type", .type type)]).set? "locals" ((f.node.table? "locals").map .table)) :
          Except Error Verdict) = _
    rw [hlocals]
    cases f.locals <;> rfl
  rw [hrule, leaveFunction]
  cases single? f.body with
  | none => rfl
  | some code =>
    simp only [Option.map_some, Option.elim_some, htemplate]
    cases f.node.textOf "symbol" with
    | error e => rfl
    | ok symbol => cases f.node.exprType <;> rfl

theorem exit_keep {n : Node} (h : rules.apply n = .ok .keep) : rules.hooks.exit n = pure .keep := by
  change ExceptT.mk (pure (rules.apply n)) = _
  rw [h]
  rfl

theorem exit_other {n : Node} (hsequence : n.tag.isSequence = false) (hfunction : n.tag ≠ .function) :
    Mirrors id (settle rules.hooks.exit n) (pure (some n) : Walk Unit (Option Node)) :=
  mirrors_keep (exit_keep (apply_other hsequence hfunction))

theorem visitsParts : VisitsParts id rules.hooks visitor where
  pass part _ := by cases part <;> rfl
  enterScope _ _ _ _ := .of_eq rfl
  enterFunction _ := .of_eq rfl
  enterUnit _ := .of_eq rfl
  exit part := by
    cases part with
    | type t => cases t <;> exact exit_other rfl Tag.noConfusion
    | stmt s h =>
      cases s with
      | decl _ | expr _ | scope _ _ _ _ => cases h
      | _ => exact exit_other rfl Tag.noConfusion
    | cell s rest span =>
      exact mirrors_lift (y := .ok (merge s rest span)) rfl (apply_stmts s rest span)
    | paramCell p next span =>
      exact mirrors_keep (exit_keep (apply_cell_of_ne (m := p.node) "param" rfl
        (by cases next <;> rfl) Tag.noConfusion))
    | function f => exact mirrors_lift rfl (apply_function f)
    | itemCell i rest span =>
      exact mirrors_lift (y := .ok (mergeItems i rest span)) rfl (apply_items i rest span)
    | _ => exact exit_other rfl Tag.noConfusion

theorem rewrites : Rewrites id rules.hooks (pure : Expr → Walk Unit Expr) where
  enter _ := rfl
  exit e := by
    cases e with
    | cell place _ _ _ => cases place <;> exact exit_other rfl Tag.noConfusion
    | _ => exact exit_other rfl Tag.noConfusion
  binding _ := ⟨rfl, exit_keep (apply_other rfl Tag.noConfusion)⟩
  args arg next span := by
    refine ⟨rfl, exit_keep (apply_cell_of_ne (m := arg.node) "arg" rfl rfl ?_)⟩
    intro htag
    have := arg.isExprTag_node
    rw [htag] at this
    cases this

/-- **The pass is the visitor.** -/
theorem visits : Visits id rules.hooks visitor :=
  .ascending visitsParts rewrites (funext fun e => (Expr.mapUp_pure e).symm)

theorem runPass (unit : String) (p : Program) :
    Compiler.runPass unit p.node pass = Program.node <$> ((p.mapUp visitor).outcome ()).1 :=
  runPass_of_rules (fun _ => rfl) visits rfl p

/-! ## 3. Merged code -/

/-- The code in statements, in one piece. -/
def codeIn : Stmts → MachineCode
  | .nil => .empty
  | .cons (.code c _) rest _ => c.append (codeIn rest)
  | .cons _ rest _ => codeIn rest

/-- Statements whose pieces of code are merged. -/
def merged : Stmts → Stmts
  | .nil => .nil
  | .cons s rest span => merge s (merged rest) span

/-- Two pieces of code, or a cell that stays. -/
theorem merge_cases (s : Stmt) (rest : Stmts) (span : Span) :
    merge s rest span = .cons s rest span ∨ ∃ c c' place place' rest' span', s = .code c place ∧
      rest = .cons (.code c' place') rest' span' ∧
      merge s rest span = rest'.prepend [.code (c.append c') (place.join place')] := by
  by_cases hs : s.node.tag = .code
  · obtain ⟨c, place, rfl⟩ := (stmt_code s).mp hs
    cases rest with
    | nil => exact .inl rfl
    | cons s' rest' span' =>
      by_cases hs' : s'.node.tag = .code
      · obtain ⟨c', place', rfl⟩ := (stmt_code s').mp hs'
        exact .inr ⟨c, c', place, place', rest', span', rfl, rfl, rfl⟩
      · exact .inl (merge_of_second_ne hs' rest' span span')
  · exact .inl (merge_of_first_ne hs rest span)

theorem codeIn_merge (s : Stmt) (rest : Stmts) (span : Span) :
    codeIn (merge s rest span) = codeIn (.cons s rest span) := by
  obtain h | ⟨c, c', place, place', rest', span', rfl, rfl, h⟩ := merge_cases s rest span
  · rw [h]
  · rw [h]
    exact MachineCode.append_assoc c c' (codeIn rest')

/-- **Merging changes no code.** -/
theorem codeIn_merged (stmts : Stmts) : codeIn (merged stmts) = codeIn stmts := by
  cases stmts with
  | nil => rfl
  | cons s rest span =>
    rw [merged, codeIn_merge]
    cases s with
    | code c place => rw [codeIn, codeIn, codeIn_merged rest]
    | _ => exact codeIn_merged rest

/-- The code of a single piece. -/
theorem codeIn_of_single? {stmts : Stmts} {c : MachineCode} {span : Span}
    (h : single? stmts = some (c, span)) : codeIn stmts = c := by
  cases stmts with
  | nil => cases h
  | cons s rest cell =>
    cases s with
    | code c' place =>
      cases rest with
      | nil =>
        obtain ⟨rfl, rfl⟩ := Prod.mk.inj (Option.some.inj h)
        exact MachineCode.append_empty _
      | cons _ _ _ => cases h
    | _ => cases h

/-- Linked code behind linked code is linked. -/
theorem CodeLinked.append {S : Symbols} {c c' : MachineCode} (h : CodeLinked S c)
    (h' : CodeLinked S c') : CodeLinked S (c.append c') := by
  obtain ⟨instructions, rfl⟩ := h.1
  obtain ⟨instructions', rfl⟩ := h'.1
  refine ⟨⟨_, (Machine.Instruction.codeOf_append instructions instructions').symm⟩, fun r hr => ?_⟩
  rcases List.mem_append.mp hr with hr | hr
  · exact h.2 r hr
  · obtain ⟨r', hr', rfl⟩ := List.mem_map.mp hr
    exact h'.2 r' hr'

/-- What holds of two pieces of code and of both in one, and of all statements before, holds of all after.
-/
theorem merge_forall {P : Stmt → Prop}
    (hP : ∀ {c c' : MachineCode} {span span' : Span}, P (.code c span) → P (.code c' span') →
      P (.code (c.append c') (span.join span'))) {s : Stmt} {rest : Stmts} {span : Span} (hs : P s)
    (hrest : ∀ s ∈ rest.toList, P s) : ∀ s' ∈ (merge s rest span).toList, P s' := by
  obtain h | ⟨c, c', place, place', rest', span', rfl, rfl, h⟩ := merge_cases s rest span
  · simp only [h]
    exact List.forall_mem_cons.mpr ⟨hs, hrest⟩
  · obtain ⟨hsecond, hrest⟩ := List.forall_mem_cons.mp hrest
    simp only [h, Stmts.toList_prepend]
    exact List.forall_mem_cons.mpr ⟨hP hs hsecond, hrest⟩

/-- What holds of all statements, and of two pieces of code in one, holds of merged statements. -/
theorem merged_forall {P : Stmt → Prop}
    (hP : ∀ {c c' : MachineCode} {span span' : Span}, P (.code c span) → P (.code c' span') →
      P (.code (c.append c') (span.join span'))) :
    ∀ {stmts : Stmts}, (∀ s ∈ stmts.toList, P s) → ∀ s ∈ (merged stmts).toList, P s
  | .nil, h => h
  | .cons _ _ _, h => by
    obtain ⟨hs, hrest⟩ := List.forall_mem_cons.mp h
    exact merge_forall hP hs (merged_forall hP hrest)

/-- What is no code stays. -/
theorem mem_merge {s' s : Stmt} {rest : Stmts} {span : Span} (hs' : ∀ c place, s' ≠ .code c place)
    (h : s' ∈ s :: rest.toList) : s' ∈ (merge s rest span).toList := by
  obtain hsame | ⟨c, c', place, place', rest', span', rfl, rfl, hmerged⟩ := merge_cases s rest span
  · rw [hsame]
    exact h
  · rw [hmerged]
    refine List.mem_cons_of_mem _ ?_
    simpa [Stmts.toList, hs'] using h

theorem mem_merged {s' : Stmt} (hs' : ∀ c place, s' ≠ .code c place) : ∀ {stmts : Stmts},
    s' ∈ stmts.toList → s' ∈ (merged stmts).toList
  | .cons _ _ _, h => mem_merge hs' (List.mem_cons.mpr ((List.mem_cons.mp h).imp id (mem_merged hs')))

/-- If one piece of code is left, there was nothing but code. -/
theorem all_code {stmts : Stmts} {c : MachineCode} {span : Span}
    (h : single? (merged stmts) = some (c, span)) : ∀ s ∈ stmts.toList, ∃ c place, s = .code c place := by
  intro s hs
  by_contra hnot
  have hmem := mem_merged (fun c place heq => hnot ⟨c, place, heq⟩) hs
  generalize merged stmts = left at h hmem
  cases left with
  | nil => cases hmem
  | cons first rest cell =>
    cases first with
    | code c' place =>
      cases rest with
      | nil => exact hnot ⟨c', place, List.mem_singleton.mp hmem⟩
      | cons _ _ _ => cases h
    | _ => cases h

/-- The code in linked statements is linked. -/
theorem codeIn_linked {S : Symbols} : ∀ {stmts : Stmts}, stmts.Linked S → CodeLinked S (codeIn stmts)
  | .nil, _ => ⟨⟨[], rfl⟩, by simp [codeIn, MachineCode.empty]⟩
  | .cons s rest span, ⟨hs, hrest⟩ => by
    have ih := codeIn_linked hrest
    cases s with
    | code c place => exact CodeLinked.append hs ih
    | _ => exact ih

/-- Code that ends in a return. -/
def Ends (code : MachineCode) : Prop :=
  ∃ instructions, code = Machine.Instruction.codeOf (instructions ++ [Assemble.rts])

/-- If the last statement is the code of a return, then the code ends in one. -/
theorem codeIn_ends {S : Symbols} : ∀ {stmts : Stmts} {front : List Stmt} {span : Span},
    stmts.Linked S →
    stmts.toList = front ++ [Stmt.code (Machine.Instruction.codeOf [Assemble.rts]) span] →
    Ends (codeIn stmts)
  | .nil, front, span, _, h => by
    have hlength := congrArg List.length h
    simp [Stmts.toList] at hlength
  | .cons s rest place, [], span, _, h => by
    rw [Stmts.toList, List.nil_append, List.cons.injEq] at h
    obtain ⟨rfl, hrest⟩ := h
    cases rest with
    | nil => exact ⟨[], MachineCode.append_empty _⟩
    | cons _ _ _ => cases hrest
  | .cons s rest place, s' :: front, span, ⟨hs, hlinked⟩, h => by
    rw [Stmts.toList, List.cons_append, List.cons.injEq] at h
    obtain ⟨instructions, hrest⟩ := codeIn_ends hlinked h.2
    cases s with
    | code c place =>
      obtain ⟨before, rfl⟩ := hs.1
      refine ⟨before ++ instructions, ?_⟩
      rw [codeIn, hrest, List.append_assoc, Machine.Instruction.codeOf_append before]
    | _ => exact ⟨instructions, hrest⟩

/-! ## 4. Flattened programs -/

theorem mapUp_stmt {s : Stmt} (h : s.isStraight = true) : s.mapUp visitor = pure s := by
  cases s with
  | decl _ | scope _ _ _ _ | data _ => cases h
  | ret value type span => cases value <;> rfl
  | _ => rfl

theorem mapUp_stmts : ∀ {stmts : Stmts}, stmts.Straight → stmts.mapUp visitor = pure (merged stmts)
  | .nil, _ => rfl
  | .cons s rest span, h => by
    obtain ⟨hs, hrest⟩ := List.forall_mem_cons.mp h
    rw [Stmts.mapUp, mapUp_stmt hs, pure_bind, mapUp_stmts hrest, pure_bind]
    rfl

/-- A function that has a symbol was given it. -/
theorem textOf_symbol {f : Function} {symbol : String} (h : f.node.textOf "symbol" = .ok symbol) :
    f.symbol = some symbol := by
  have hget : f.node.str? "symbol" = f.symbol := by
    simp only [Node.str?, Node.get?, Function.node, Node.fields, Fields.get?_optional, Fields.get?]
    cases f.symbol <;> simp [Value.str?]
  rw [Node.textOf, hget] at h
  cases hsymbol : f.symbol with
  | none =>
    rw [hsymbol] at h
    cases h
  | some s =>
    rw [hsymbol] at h
    exact congrArg some (Except.ok.inj h)

/-- What becomes of an item: the function of which one piece of code is left is a symbol. -/
inductive Flattened : Program.Item → Program.Item → Prop
  | symbol {f : Function} {symbol : String} {c : MachineCode} {type : Ty} {span : Span} :
      single? (merged f.body) = some (c, span) → f.symbol = some symbol →
      Flattened (.function f) (.compiled symbol c type f.locals f.span)
  | function {f : Function} : Flattened (.function f) (.function { f with body := merged f.body })
  | other {i : Program.Item} : (∀ f, i ≠ .function f) → Flattened i i

/-- A function that is left becomes a symbol with all of its code, or stays. -/
theorem leaveFunction_ok {f : Function} {i : Program.Item}
    (h : leaveFunction { f with body := merged f.body } = .ok i) : Flattened (.function f) i := by
  unfold leaveFunction at h
  split at h
  · rename_i c span hsingle
    obtain ⟨symbol, hsymbol, h⟩ := bind_eq_ok.mp (mapError_eq_ok.mp h)
    obtain ⟨type, -, h⟩ := bind_eq_ok.mp h
    obtain rfl := Except.ok.inj h
    exact .symbol hsingle (textOf_symbol (f := { f with body := merged f.body }) hsymbol)
  · obtain rfl := Except.ok.inj h
    exact .function

/-- An item is flattened. -/
theorem mapUp_item {i : Program.Item} {left : Option Program.Item} (hi : i.Straight)
    (h : (i.mapUp visitor).outcome () = (.ok left, ())) : ∃ i', left = some i' ∧ Flattened i i' := by
  cases i with
  | use name span =>
    obtain ⟨rfl, -⟩ := Walk.outcome_pure_eq_ok.mp h
    exact ⟨_, rfl, .other (by simp)⟩
  | constant name ty value symbol span =>
    rw [Item.mapUp, show visitor.type = pure from rfl, TypeExpr.mapUp_pure, pure_bind] at h
    obtain ⟨rfl, -⟩ := Walk.outcome_pure_eq_ok.mp h
    exact ⟨_, rfl, .other (by simp)⟩
  | global s =>
    cases s with
    | data d =>
      obtain ⟨rfl, -⟩ := Walk.outcome_pure_eq_ok.mp h
      exact ⟨_, rfl, .other (by simp)⟩
    | _ => cases hi
  | function f =>
    have hrun : f.mapUp visitor = liftM (leaveFunction { f with body := merged f.body }) := by
      rw [Function.mapUp, show visitor.enterFunction f = pure () from rfl, pure_bind,
        Params.mapUp_pure rfl, pure_bind, visitResult_pure rfl, pure_bind, mapUp_stmts hi.1, pure_bind]
      rfl
    rw [Item.mapUp, hrun, Walk.outcome_map, Walk.outcome_lift, Prod.mk.injEq] at h
    obtain ⟨i', hi', rfl⟩ := map_eq_ok.mp h.1
    exact ⟨i', rfl, leaveFunction_ok hi'⟩
  | compiled symbol code type locals span => cases hi

theorem Flattened.ne_code {i i' : Program.Item} (h : Flattened i i') (hi : i.Straight) :
    i'.node.tag ≠ .code := by
  rw [Ne, item_code]
  rintro ⟨c, span, rfl⟩
  cases h
  cases hi

/-- The items of a unit, one by one. -/
theorem mapUp_items : ∀ {items items' : Items}, (∀ entry ∈ items, entry.1.Straight) →
    (Items.mapUp visitor items).outcome () = (.ok items', ()) →
    List.Forall₂ (fun entry entry' => Flattened entry.1 entry'.1) items items'
  | [], items', _, h => by
    obtain ⟨rfl, -⟩ := Walk.outcome_pure_eq_ok.mp h
    exact .nil
  | (item, span) :: rest, items', hstraight, h => by
    obtain ⟨hs, hsrest⟩ := List.forall_mem_cons.mp hstraight
    obtain ⟨left, ⟨⟩, hitem, h⟩ := Walk.outcome_bind_eq_ok.mp h
    obtain ⟨rest', ⟨⟩, hrest, h⟩ := Walk.outcome_bind_eq_ok.mp h
    obtain ⟨item', rfl, hflat⟩ := mapUp_item hs hitem
    have hcell : leaveItemCell visitor rest' span (some item') = pure ((item', span) :: rest') :=
      congrArg pure (mergeItems_of_first_ne (hflat.ne_code hs) rest' span)
    rw [hcell] at h
    obtain ⟨rfl, -⟩ := Walk.outcome_pure_eq_ok.mp h
    exact .cons hflat (mapUp_items hsrest hrest)

/-- The code of a symbol ends in a return. -/
def Finished : Program.Item → Prop
  | .compiled _ code _ _ _ => Ends code
  | .global s => ∃ d, s = .data d
  | _ => True

/-- A flattened item is linked and declares what it declared, and its code ends in a return. -/
theorem Flattened.keeps {S : Symbols} {i i' : Program.Item} (h : Flattened i i') (hs : i.Straight)
    (hl : i.Linked S) (hreturns : Assemble.Returns i) :
    (i'.Linked S ∧ i'.Declared S ∧ Finished i') ∧ i'.functions = i.functions ∧ i'.vars = i.vars ∧
      i'.count = i.count := by
  cases h with
  | @symbol f symbol c type span hsingle hsymbol =>
    obtain ⟨front, place, hend⟩ := hreturns
    have hcode : codeIn f.body = c := (codeIn_merged f.body).symm.trans (codeIn_of_single? hsingle)
    refine ⟨⟨⟨hcode ▸ codeIn_linked hl.1, hl.2⟩, trivial, ?_⟩, ?_, ?_, ?_⟩
    · rw [Finished, ← hcode]
      exact codeIn_ends hl.1 hend
    · rw [Item.functions, Item.functions, hsymbol]
      rfl
    · rw [Item.vars, Item.vars, Function.vars_of_straight hs]
    · rw [Item.count, Item.count, Stmts.lets_of_straight hs.1, hs.2]
      simp
  | @function f =>
    have hs' : (Program.Item.function { f with body := merged f.body }).Straight :=
      ⟨merged_forall (P := fun s => s.isStraight = true) (fun _ _ => rfl) hs.1, hs.2⟩
    refine ⟨⟨⟨?_, hl.2⟩, hs'.declared, trivial⟩, rfl, ?_, ?_⟩
    · exact Stmts.linked_iff.mpr
        (merged_forall (P := fun s => s.Linked S) CodeLinked.append (Stmts.linked_iff.mp hl.1))
    · rw [Item.vars, Item.vars, Function.vars_of_straight hs, Function.vars_of_straight hs']
    · rw [Item.count, Item.count, Stmts.lets_of_straight hs.1, Stmts.lets_of_straight hs'.1]
  | other hne =>
    refine ⟨⟨hl, hs.declared, ?_⟩, rfl, rfl, rfl⟩
    cases i with
    | compiled _ _ _ _ _ => cases hs
    | global s =>
      cases s with
      | data d => exact ⟨d, rfl⟩
      | _ => cases hs
    | _ => trivial

/-- The items of a unit are flattened one by one. -/
theorem flattened {p p' : Program} (hstraight : p.IsStraight)
    (hrun : ((p.mapUp visitor).outcome ()).1 = .ok p') :
    List.Forall₂ (fun entry entry' => Flattened entry.1 entry'.1) p.items p'.items := by
  have hrun : (p.mapUp visitor).outcome () = (.ok p', ()) := Prod.ext hrun rfl
  rw [Program.mapUp, show visitor.enterUnit = pure from rfl, pure_bind] at hrun
  obtain ⟨items, ⟨⟩, hitems, hexit⟩ := Walk.outcome_bind_eq_ok.mp hrun
  obtain ⟨rfl, -⟩ := Walk.outcome_pure_eq_ok.mp hexit
  exact mapUp_items hstraight hitems

/-- **Flattened programs.**  A bound program stays bound, and the code of every symbol ends in a
return. -/
theorem bound {p p' : Program} {S : Symbols} (hstraight : p.IsStraight) (h : p.Bound S)
    (hreturns : ∀ entry ∈ p.items, Assemble.Returns entry.1)
    (hrun : ((p.mapUp visitor).outcome ()).1 = .ok p') :
    p'.Bound S ∧ (∀ entry ∈ p'.items, Finished entry.1) ∧ p'.frame = p.frame := by
  have hframe : p'.frame = p.frame := Program.frame_of_mapUp rfl rfl hrun
  have hkeeps := ((List.forall₂_and_left _ _).mpr ⟨fun entry hentry => And.intro
    (hstraight entry hentry) (And.intro (h.linked entry hentry) (hreturns entry hentry)),
    flattened hstraight hrun⟩).imp
      fun _ _ hitem => hitem.2.keeps hitem.1.1 hitem.1.2.1 hitem.1.2.2
  have hafter : ∀ entry ∈ p'.items, entry.1.Linked S ∧ entry.1.Declared S ∧ Finished entry.1 :=
    fun entry hentry => by
      obtain ⟨_, -, hitem, -⟩ := exists_of_mem_right hkeeps hentry
      exact hitem
  obtain ⟨hfunctions, hvars⟩ := Items.symbols_subset (hkeeps.imp fun _ _ hitem =>
    And.intro (hitem.2.1 ▸ List.Subset.refl _) (hitem.2.2.1 ▸ List.Subset.refl _))
  have hcount := Items.count_le (hkeeps.imp fun _ _ hitem => Nat.le_of_eq hitem.2.2.2)
  exact ⟨{ linked := fun entry hentry => (hafter entry hentry).1
           functions := List.Subset.trans h.functions hfunctions
           vars := List.Subset.trans h.vars hvars
           declared := fun entry hentry => (hafter entry hentry).2.1
           count := Nat.le_trans hcount h.count },
    fun entry hentry => (hafter entry hentry).2.2, hframe⟩

end Lode.FlattenSymbol
