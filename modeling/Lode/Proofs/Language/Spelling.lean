/-
# How expressions are spelled

The words of an expression, in the order in which they stand in a text (`Expr.words`), and the trees
that have such a spelling (`Expr.Spellable`): numbers are words of eight bytes without a sign, names are
not reserved, and nothing is known yet that passes find out.

A text has its words with a blank before each (`spaced`).  What is read from a text has places, which a
tree that was made up has not, so trees are compared without them (`Node.unplaced`).  The program has a walk
for this, `Node.stripSpans`, which goes by visits and verdicts and keeps what is nowhere already; the plain
recursion over trees is the same on all trees that are put together as trees are (`Node.stripSpans_eq`).
-/
import Lode.Proofs.Language.Words
import Lode.Proofs.Program.Written
import Lode.Proofs.Tree.Sharing

namespace Lode

/-! ## 1. Trees without places -/

mutual

/-- A tree without its places. -/
def Node.unplaced : Node → Node
  | .mk tag fields _ => .mk tag fields.unplaced .nowhere

/-- Named values without places. -/
def Fields.unplaced : Fields → Fields
  | .nil => .nil
  | .cons name (.node n) rest => .cons name (.node n.unplaced) rest.unplaced
  | .cons name value rest => .cons name value rest.unplaced

end

namespace Fields

/-- Taking places out does not change where a name stands among the others. -/
theorem after_unplaced (name : String) (fields : Fields) : fields.unplaced.after name = fields.after name := by
  cases fields with
  | nil => rfl
  | cons first v rest => cases v <;> rfl

/-- Records without places are in the order of their names if the records are. -/
theorem ordered_unplaced : ∀ fields : Fields, fields.unplaced.ordered = fields.ordered
  | nil => rfl
  | cons name v rest => by
    cases v <;> simp only [unplaced, ordered, after_unplaced, ordered_unplaced rest]

/-- The value of an attribute without places. -/
theorem get?_unplaced (key : String) : ∀ fields : Fields, fields.unplaced.get? key =
    (fields.get? key).map fun | .node n => .node n.unplaced | v => v
  | nil => rfl
  | cons name v rest => by
    cases v <;> simp only [unplaced, get?, get?_unplaced key rest] <;> split <;> rfl

end Fields

/-- Walking over a tree that is put together as trees are puts its nodes nowhere. -/
theorem walkWithin_stripHooks : ∀ {fuel : Nat} {n : Node}, n.size ≤ fuel → n.Framed →
    walkWithin Node.stripHooks fuel n = pure (some n.unplaced)
  | 0, n, hsize, _ => absurd hsize (Nat.not_le_of_lt n.size_pos)
  | fuel + 1, .mk tag fields span, hsize, hframed => by
    obtain ⟨hordered, hkept⟩ : fields.ordered = true ∧ lostElement tag fields = false := by
      have hhere := hframed.here
      rw [Node.framed, Bool.and_eq_true, Bool.not_eq_true'] at hhere
      exact hhere
    obtain ⟨left, hleft, hin, hchildren, hothers⟩ := @visitEach_eq_pure _ (walkWithin Node.stripHooks fuel)
      Node.unplaced (visitOrder fields.nodes) fields
      (fun entry hentry => walkWithin_stripHooks (Node.size_child_le hsize (mem_of_mem_visitOrder hentry))
        (hframed.children entry hentry))
      hordered (nodup_visitOrder (Fields.nodup_nodes hordered))
    obtain rfl : left = fields.unplaced := by
      refine Fields.eq_of_get? hin (by rwa [Fields.ordered_unplaced]) fun key => ?_
      rw [Fields.get?_unplaced]
      have hplain : (∀ n, fields.get? key ≠ some (.node n)) → left.get? key = fields.get? key := by
        refine fun hnone => hothers key fun hmem => ?_
        obtain ⟨⟨name, child⟩, hentry, rfl⟩ := List.mem_map.mp hmem
        exact hnone child (Fields.get?_of_mem_nodes hordered (mem_of_mem_visitOrder hentry))
      cases hvalue : fields.get? key with
      | none => rw [hplain (by simp [hvalue]), hvalue]; rfl
      | some v =>
        cases v with
        | node n => exact hchildren (key, n) (mem_visitOrder_of_mem (Fields.mem_nodes_of_get? hvalue))
        | _ => rw [hplain (by simp [hvalue]), hvalue]; rfl
    have hlost : lostElement tag fields.unplaced = false := by
      have hhas : ∀ name, fields.unplaced.has name = fields.has name := fun name => by
        rw [Fields.has, Fields.has, Fields.get?_unplaced, Option.isSome_map]
      simpa only [lostElement, hhas] using hkept
    have henter : Node.stripHooks.enter (.mk tag fields span) = pure .keep := rfl
    have hexit : settle Node.stripHooks.exit (.mk tag fields.unplaced span) =
        pure (some (.mk tag fields.unplaced .nowhere)) := by
      rw [settle, Node.stripHooks, map_pure]
      split
      · rename_i hspan
        rw [Verdict.apply_keep, ← eq_of_beq hspan]
        rfl
      · rfl
    rw [walkWithin_succ, henter, pure_bind, walkEntered_eq rfl hframed.here, walkInside]
    change visitEach _ (visitOrder fields.nodes) fields >>= _ = _
    rw [hleft, pure_bind]
    change (if lostElement tag fields.unplaced then _ else settle _ (Node.mk tag fields.unplaced span)) = _
    rw [hlost, if_neg Bool.false_ne_true, hexit]
    rfl

/-- **Trees without places** are what the program compares: stripping a tree of its places, if it is put
together as trees are, puts all its nodes nowhere and leaves everything else. -/
theorem Node.stripSpans_eq {n : Node} (h : n.Framed) : n.stripSpans = n.unplaced := by
  have hwalk := congrArg (fun w => Walk.outcome w ()) (walkWithin_stripHooks n.size_le_walkBudget h)
  simp only [walkWithin, settle, Walk.outcome_map, Walk.outcome_pure] at hwalk
  have houtcome : ((transformWithin stripHooks n.walkBudget n).run).run () =
      (transformWithin stripHooks n.walkBudget n).outcome () := rfl
  rw [stripSpans, transform, houtcome]
  cases hrun : (transformWithin stripHooks n.walkBudget n).outcome () with
  | mk result s =>
    rw [hrun] at hwalk
    cases result with
    | error e => cases hwalk
    | ok verdict =>
      have hleft : verdict.apply n = some n.unplaced := Except.ok.inj (Prod.mk.inj hwalk).1
      simp only [hleft, Option.getD_some]

namespace Program

/-! ## 2. Words -/

/-- A string literal. -/
def literalWord (s : String) : String := String.ofList ('"' :: s.toList.flatMap Language.escape ++ ['"'])

mutual

/-- The words of an expression. -/
def Expr.words : Expr → List String
  | .number value _ _ => [toString value]
  | .string value _ _ => [literalWord value]
  | .ident name _ _ _ => [name]
  | .member target name _ => target.words ++ [".", name]
  | .call target args _ _ _ => target.words ++ "(" :: args.words ++ [")"]
  | .binop op lhs rhs _ _ => lhs.words ++ op :: rhs.words
  | .neg operand _ _ => "-" :: operand.words
  | .deref target _ _ => "@" :: target.words
  | .paren inner _ => "(" :: inner.words ++ [")"]
  | .intrinsic _ _ _ | .cell _ _ _ _ | .immediate _ _ _ | .returned _ _ => []

/-- The words of arguments. -/
def Args.words : Args → List String
  | .nil => []
  | .cons arg rest _ => arg.words ++ rest.further

/-- The words of further arguments. -/
def Args.further : Args → List String
  | .nil => []
  | .cons arg rest _ => "," :: arg.words ++ rest.further

end

mutual

/-- An expression that its words spell. -/
def Expr.Spellable : Expr → Prop
  | .number value type _ => (0 ≤ value ∧ value < 0x8000000000000000) ∧ type = none
  | .string _ type _ => type = none
  | .ident name binding type _ => Language.isName name = true ∧ binding = none ∧ type = none
  | .member target name _ => target.Spellable ∧ Language.isName name = true
  | .call target args callee type _ => target.Spellable ∧ args.Spellable ∧ callee = none ∧ type = none
  | .binop op lhs rhs type _ => op ∈ ["+", "-", "*"] ∧ lhs.Spellable ∧ rhs.Spellable ∧ type = none
  | .neg operand type _ => operand.Spellable ∧ type = none
  | .deref target type _ => target.Spellable ∧ type = none
  | .paren inner _ => inner.Spellable
  | .intrinsic _ _ _ | .cell _ _ _ _ | .immediate _ _ _ | .returned _ _ => False

/-- Arguments that their words spell. -/
def Args.Spellable : Args → Prop
  | .nil => True
  | .cons arg rest _ => arg.Spellable ∧ rest.Spellable

end

end Program

namespace Language

open Program

/-! ## 3. Words with blanks -/

/-- Words with a blank before each. -/
def spaced (words : List String) : List Char := words.flatMap fun w => ' ' :: w.toList

@[simp] theorem spaced_nil : spaced [] = [] := rfl

@[simp] theorem spaced_cons (w : String) (words : List String) :
    spaced (w :: words) = ' ' :: (w.toList ++ spaced words) := rfl

@[simp] theorem spaced_append (front back : List String) :
    spaced (front ++ back) = spaced front ++ spaced back := List.flatMap_append

theorem ends_spaced (words : List String) : Ends (spaced words) := by
  cases words with
  | nil => simp [Ends]
  | cons w words => simp [Ends]

/-- Words with blanks between them, and one more blank in front. -/
theorem toList_intercalate_spaced : ∀ {words : List String}, words ≠ [] →
    ' ' :: (" ".intercalate words).toList = spaced words
  | [w], _ => by simp
  | w :: v :: words, _ => by
    have ih := @toList_intercalate_spaced (v :: words) (by simp)
    rw [String.intercalate_cons_cons, String.toList_append, String.toList_append, spaced_cons, ← ih]
    simp

/-- A word of a kind, wherever it ends. -/
structure Word (w kind : String) : Prop where
  head : ∃ c cs, w.toList = c :: cs ∧ isSpace c = false
  lexes : ∀ {rest : List Char}, Ends rest → Lexes lexer defaultMode w.toList rest (.kind kind) .default

theorem exists_head {w : String} (hw : w ∈ symbols ++ reserved) :
    ∃ c cs, w.toList = c :: cs ∧ isSpace c = false := by
  have hall : ∀ w ∈ symbols ++ reserved, w.toList.head?.any (!isSpace ·) = true := by
    simp only [isSpace_eq]
    decide
  obtain ⟨c, hc, hspace⟩ := (Option.any_eq_true _ _).mp (hall w hw)
  obtain ⟨cs, hcs⟩ := List.head?_eq_some_iff.mp hc
  exact ⟨c, cs, hcs, by simpa using hspace⟩

theorem word_symbol {w : String} (hw : w ∈ symbols) : Word w w where
  head := exists_head (List.mem_append_left _ hw)
  lexes hrest := lexes_symbol (List.mem_cons_of_mem _ hw) fun _ => hrest.ne_arrow

theorem word_reserved {w : String} (hw : w ∈ reserved) : Word w w where
  head := exists_head (List.mem_append_right _ hw)
  lexes := lexes_reserved hw

/-- A name is a word. -/
theorem word_name {name : String} (hname : isName name = true) : Word name "IDENT" where
  head := by
    unfold isName at hname
    split at hname
    · cases hname
    · rename_i c cs hcs
      have hstart : nameStart.contains c = true := by
        simp only [Bool.and_eq_true] at hname
        exact hname.1.1
      have hall : ∀ n < 128, nameStart.contains (Char.ofNat n) = true → isSpace (Char.ofNat n) = false := by
        simp only [isSpace_eq]
        decide
      have hc := hall c.toNat (toNat_lt_of_nameRest (nameRest_of_nameStart hstart))
      rw [Char.ofNat_toNat] at hc
      exact ⟨c, cs, hcs, hc hstart⟩
  lexes := lexes_name hname

theorem toList_natCast (n : Nat) : (toString (n : Int)).toList = Nat.toDigits 10 n :=
  show (Nat.repr n).toList = _ from Nat.toList_repr

/-- A number is a word. -/
theorem word_number (n : Nat) : Word (toString (n : Int)) "NUMBER" where
  head := by
    obtain ⟨c, cs, hcs, hc⟩ := exists_decimal n
    have hall : ∀ n < 128, (Char.ofNat n).isDigit = true → isSpace (Char.ofNat n) = false := by
      simp only [isSpace_eq]
      decide
    have hspace := hall c.toNat (by have := isDigit_iff.mp hc; omega)
    rw [Char.ofNat_toNat] at hspace
    exact ⟨c, cs, by rw [toList_natCast, hcs], hspace hc⟩
  lexes hrest := by
    rw [toList_natCast]
    exact lexes_number n hrest

end Language

end Lode
