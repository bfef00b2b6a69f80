/-
# Values through the passes

Simplifying, resolving units, reading types and binding names keep the values of expressions.  Computing
constants gives a constant exactly the value of what is written, in terms of the constants before it
(`EvaluateConstants.mapUp_evaluated`).

The value of an expression is defined once, for what is written, with the values of names as a parameter
(`Expr.value?`); it is a number without bounds, or nothing.  Up to the pass that computes, every pass keeps
it for any values of names (`Expr.Means`), and so keeps the definitions of the unit.

That pass is followed in the other direction.  What it computes for an expression is the value, if it
computes anything (`evaluateWithin_ok`): the code works with words of 64 bits and refuses what does not fit,
so a result that it gives is not wrapped around.  The names of constants are looked up in the frame of the
unit.  There they have the values that were recorded so far, and these are among the definitions above; the
list of definitions is therefore evaluated from its front (`Evaluated`), and the run over the items goes
along with it.
-/
import Lode.Proofs.Pass.Constants
import Lode.Proofs.Pass.Front
import Lode.Proofs.Pass.Scoping
import Lode.Proofs.Pass.Simplification
import Lode.Proofs.Program.Functions
import Lode.Proofs.Program.Values

namespace Lode

open Program

variable {values : String → Option Int}

/-! ## 1. Simplification -/

namespace Simplify

theorem name?_simple (arrival : Arrival) {e : Expr} (h : e.isPostfix = true) :
    (simple arrival e).name? = e.name? := by
  cases e with
  | ident _ _ _ _ | member _ _ _ | call _ _ _ _ _ => simp [simple, Expr.name?]
  | _ => cases h

theorem member?_simple (arrival : Arrival) {e : Expr} (h : e.isPostfix = true) (hw : e.Written) :
    (simple arrival e).member? = e.member? := by
  cases e with
  | ident _ _ _ _ | call _ _ _ _ _ => simp [simple, Expr.member?]
  | member target name span =>
    simp only [simple]
    rw [Expr.member?, Expr.member?, name?_simple .fresh hw.1]
  | _ => cases h

/-- Taking zero away does not change a value. -/
theorem value?_minus_zero {lhs rhs : Expr} (hzero : isZero rhs = true) (type : Option Ty) (span : Span) :
    (Expr.binop "-" lhs rhs type span).value? values = lhs.value? values := by
  cases rhs with
  | number value _ _ =>
    obtain rfl : value = 0 := by simpa [isZero] using hzero
    simp [Expr.value?, operatorValue]
  | _ => cases hzero

mutual

/-- **Simplified expressions have the same values.** -/
theorem value?_simple (arrival : Arrival) : ∀ {e : Expr}, e.Written →
    (simple arrival e).value? values = e.value? values
  | .number _ _ _, _ | .string _ _ _, _ | .ident _ _ _ _, _ | .member _ _ _, _ | .deref _ _ _, _ => by
    simp [simple, Expr.value?]
  | .call target args _ _ _, ⟨hpost, ht, hargs, _⟩ => by
    simp only [simple]
    rw [Expr.value?, Expr.value?, member?_simple .fresh hpost ht, word?_simple hargs]
  | .binop op lhs rhs type span, ⟨hl, hr, _⟩ => by
    have hsame : (Expr.binop op (simple .fresh lhs) (simple .fresh rhs) type span).value? values =
        (Expr.binop op lhs rhs type span).value? values := by
      rw [Expr.value?, Expr.value?, value?_simple .fresh hl, value?_simple .fresh hr]
    simp only [simple]
    split
    · rename_i hminus
      rw [Bool.and_eq_true, beq_iff_eq] at hminus
      obtain ⟨rfl, hzero⟩ := hminus
      rw [value?_minus_zero hzero, value?_simple .placed hl]
    · exact hsame
  | .neg operand type span, ⟨ho, _⟩ => by
    have hsame : (Expr.neg (simple .fresh operand) type span).value? values =
        (Expr.neg operand type span).value? values := by
      rw [Expr.value?, Expr.value?, value?_simple .fresh ho]
    simp only [simple]
    split
    · rw [Expr.value?, wrapWord64_neg ho.2]
      rfl
    · exact hsame
  | .paren inner _, h => by
    have hw : inner.Written := h
    cases arrival <;> simp only [simple]
    · exact value?_simple .bare hw
    · exact value?_simple .bare hw
    · exact value?_simple .fresh hw

/-- The word in the arguments of a call has the same value. -/
theorem word?_simple : ∀ {args : Args}, args.Written →
    (simpleArgs args).word? values = args.word? values
  | .nil, _ => by simp [simpleArgs]
  | .cons arg .nil _, ⟨harg, _⟩ => by
    simp only [simpleArgs, Args.word?]
    exact value?_simple .fresh harg
  | .cons _ (.cons _ _ _) _, _ => by simp [simpleArgs, Args.word?]

end

/-- A simplified program defines the same constants. -/
theorem definitions {p : Program} (h : p.Written) :
    List.Forall₂ Definition.Means (Items.definitions (p.items.map (·.1)))
      (Items.definitions ((program p).items.map (·.1))) := by
  have hitems := h.items
  have hmap : (program p).items.map (·.1) = (p.items.map (·.1)).map simpleItem := by
    simp [program]
  rw [hmap]
  generalize p.items.map (·.1) = items at hitems ⊢
  induction items with
  | nil => exact .nil
  | cons i rest ih =>
    obtain ⟨hi, hrest⟩ := List.forall_mem_cons.mp hitems
    rw [List.map_cons, Items.definitions_cons, Items.definitions_cons]
    refine List.rel_append ?_ (ih hrest)
    cases i with
    | constant name ty value symbol span =>
      exact .cons ⟨rfl, .refl _, fun hv => (value?_simple .fresh hi.2.1).symm.trans hv⟩ .nil
    | _ => exact .nil

end Simplify

/-! ## 2. Units -/

/-- A constant of a unit is visited by rewriting its value. -/
theorem Program.Steady.mapUp_constant {σ : Type} {v : Visitor σ} {expr : σ → Expr → Except Error Expr}
    {decl : σ → Let → Except Error Let} {stmt : σ → Stmt → Except Error Stmt} {push : Frame → σ → σ}
    (h : Steady v expr decl stmt push) (htype : v.type = pure) {name : String} {ty : TypeExpr}
    {value : Expr} {symbol : Option String} {span : Span} {left : Option Program.Item} {s s' : σ}
    (hrun : ((Item.constant name ty value symbol span).mapUp v).outcome s = (.ok left, s')) :
    ∃ value', value.mapUp (expr s) = .ok value' ∧
      (v.item (.constant name ty value' symbol span)).outcome s = (.ok left, s') := by
  rw [Item.mapUp, htype, TypeExpr.mapUp_pure, pure_bind] at hrun
  obtain ⟨value', s1, hvalue, hitem⟩ := Walk.outcome_bind_eq_ok.mp hrun
  obtain ⟨hvalue, rfl⟩ := h.mapUp_expr hvalue
  exact ⟨value', hvalue, hitem⟩

namespace ResolveUnits

/-- A member of a unit means what its name does, if names of units are their own. -/
theorem resolve_means {s : Nested Unit} (hs : Inv UnitsSound s) {e e' : Expr} (h : resolve s e = .ok e') :
    e.Means values e' := by
  cases e with
  | member target name span =>
    simp only [resolve] at h
    split at h
    · exact Except.ok.inj h ▸ .refl _
    · rename_i u hunit
      split at h
      · cases h
      · obtain rfl := Except.ok.inj h
        refine ⟨fun hn => (by cases hn), fun hm => ?_, fun hv => (by cases hv)⟩
        obtain rfl := Option.some.inj hm
        cases target with
        | ident name' binding type place =>
          obtain ⟨named, hnamed, hu⟩ := Option.bind_eq_some_iff.mp hunit
          obtain rfl : named = .unit u := by
            cases named with
            | unit u' => exact congrArg Named.unit (Option.some.inj hu)
            | binding b => cases hu
          obtain ⟨frame, hframe, hfind⟩ := List.exists_of_findSome?_eq_some hnamed
          have hname := hs frame hframe _ (Sorted.mem_of_find? hfind) u rfl
          simp [Expr.member?, Expr.name?, hname]
        | _ => cases hunit
  | _ => exact Except.ok.inj h ▸ .refl _

/-- A use leaves the constants of the frame alone. -/
theorem resolveUse_frame {frame : Frame} {name : String} {span : Span} {left : Option Program.Item}
    {s' : Nested Unit} (h : (resolveUse (.use name span)).outcome ⟨[frame], ()⟩ = (.ok left, s')) :
    left = none ∧ ∃ frame', s' = ⟨[frame'], ()⟩ ∧ frame'.constants = frame.constants ∧
      (UnitsSound frame → UnitsSound frame') := by
  simp only [resolveUse] at h
  cases hu : IntrinsicUnit.ofName? name with
  | none => simp [hu] at h
  | some u =>
    simp only [hu, Walk.outcome_bind, Walk.outcome_get, Walk.andThen_ok, Frames.bind?] at h
    cases hfind : Sorted.find? name frame.names with
    | some _ => simp [hfind] at h
    | none =>
      simp only [hfind, Option.isSome_none, Bool.false_eq_true, if_false, Walk.outcome_bind,
        Walk.outcome_set, Walk.andThen_ok, Walk.outcome_pure, Prod.mk.injEq, Except.ok.injEq] at h
      obtain ⟨rfl, rfl⟩ := h
      refine ⟨rfl, _, rfl, rfl, fun hsound entry hentry u' hu' => ?_⟩
      rcases Sorted.mem_set hentry with rfl | hentry
      · exact Named.unit.inj hu' ▸ hu
      · exact hsound entry hentry u' hu'

/-- **Resolving units** keeps the values of constants. -/
theorem mapUp_definitions : ∀ {items items' : Items} {frame : Frame} {s' : Nested Unit},
    (∀ entry ∈ items, entry.1.isSource = true) → UnitsSound frame →
    (Items.mapUp visitor items).outcome ⟨[frame], ()⟩ = (.ok items', s') →
    ∃ frame', s' = ⟨[frame'], ()⟩ ∧ frame'.constants = frame.constants ∧ UnitsSound frame' ∧
      List.Forall₂ Definition.Means (Items.definitions (items.map (·.1)))
        (Items.definitions (items'.map (·.1)))
  | [], items', frame, s', _, hsound, h => by
    obtain ⟨rfl, rfl⟩ := Walk.outcome_pure_eq_ok.mp h
    exact ⟨frame, rfl, rfl, hsound, .nil⟩
  | (item, span) :: rest, items', frame, s', hsource, hsound, h => by
    obtain ⟨hs, hsrest⟩ := List.forall_mem_cons.mp hsource
    obtain ⟨left, s1, hitem, h⟩ := Walk.outcome_bind_eq_ok.mp h
    obtain ⟨rest', s2, hrest, h⟩ := Walk.outcome_bind_eq_ok.mp h
    rw [steady.leaveItemCell_eq] at h
    obtain ⟨rfl, rfl⟩ := Walk.outcome_pure_eq_ok.mp h
    -- an item leaves its definition with the value that it had
    have hstep : (∃ frame1, s1 = ⟨[frame1], ()⟩ ∧ frame1.constants = frame.constants ∧
        (UnitsSound frame → UnitsSound frame1)) ∧
        List.Forall₂ Definition.Means item.definition?.toList (Items.definitions left.toList) := by
      obtain ⟨item', halike, hleft⟩ := steady.mapUp_item (keeps fun _ => True) (keepsFunctions fun _ => True)
        (fun _ _ => trivial) hs (fun _ _ => trivial) hitem
      cases halike with
      | use =>
        rcases hleft with ⟨-, -, hwhole⟩ | ⟨-, hrun⟩
        · cases hwhole
        · obtain ⟨rfl, hframe⟩ := resolveUse_frame hrun
          exact ⟨hframe, .nil⟩
      | constant _ _ =>
        obtain ⟨value', hvalue, hrun⟩ := steady.mapUp_constant rfl hitem
        obtain ⟨rfl, rfl⟩ := Walk.outcome_pure_eq_ok.mp hrun
        refine ⟨⟨frame, rfl, rfl, id⟩, .cons ⟨rfl, .refl _, fun hv => ?_⟩ .nil⟩
        have hopen : Inv UnitsSound ⟨[frame], ()⟩ := List.forall_mem_singleton.mpr hsound
        exact (Expr.means_of_mapUp (fun hstep => resolve_means hopen hstep) hvalue).value hv
      | global _ _ | function _ =>
        rcases hleft with ⟨rfl, rfl, -⟩ | ⟨hwhole, -⟩
        · exact ⟨⟨frame, rfl, rfl, id⟩, .nil⟩
        · cases hwhole
    obtain ⟨⟨frame1, rfl, hconstants, hsound1⟩, hdefinition⟩ := hstep
    obtain ⟨frame', rfl, hconstants', hsound', hdefinitions⟩ :=
      mapUp_definitions hsrest (hsound1 hsound) hrest
    have hleft : ((left.map (·, span)).toList ++ rest').map (·.1) = left.toList ++ rest'.map (·.1) := by
      cases left <;> rfl
    refine ⟨frame', rfl, hconstants'.trans hconstants, hsound', ?_⟩
    rw [List.map_cons, Items.definitions_cons, hleft, Items.definitions_append]
    exact List.rel_append hdefinition hdefinitions

/-- Resolving the units of a program. -/
theorem definitions {p p' : Program} (hsource : p.IsSource) (hframe : UnitsSound p.frame)
    (hrun : ((p.mapUp visitor).outcome ⟨[], ()⟩).1 = .ok p') :
    (p'.frame.constants = p.frame.constants ∧ UnitsSound p'.frame) ∧
      List.Forall₂ Definition.Means (Items.definitions (p.items.map (·.1)))
        (Items.definitions (p'.items.map (·.1))) := by
  obtain ⟨items, s1, hitems, rfl⟩ := Visitor.scoped_program rfl rfl
    (Prod.ext hrun rfl : (p.mapUp visitor).outcome ⟨[], ()⟩ = (.ok p', _))
  obtain ⟨frame', rfl, hconstants, hsound, hdefinitions⟩ := mapUp_definitions hsource hframe hitems
  refine ⟨⟨?_, fun entry hentry => ?_⟩, hdefinitions⟩
  · simp [Frame.above, hconstants]
  · exact (Frame.mem_above hentry).elim (hsound entry) (hframe entry)

/-- **Items of a unit** whose units are resolved. -/
theorem resolves {p p' : Program} (hsource : p.IsSource) (hframe : UnitsSound p.frame)
    (hframes : ∀ frame ∈ Items.frames p.items, UnitsSound frame)
    (hrun : ((p.mapUp visitor).outcome ⟨[], ()⟩).1 = .ok p') :
    Items.Related IsUse (Item.Alike Resolves) p.items p'.items :=
  (mapUp_related keptByUse_sound hsource hframe hframes hrun).1

theorem isWhole_of_isUse {i : Program.Item} (h : IsUse i) : i.isWhole = true := by
  obtain ⟨_, _, rfl⟩ := h
  rfl

end ResolveUnits

/-- A frame in which nothing has a value yet, and the names of units are their own. -/
structure Program.Frame.Unvalued (frame : Frame) : Prop where
  constants : frame.constants = []
  units : ResolveUnits.UnitsSound frame

theorem Program.Frame.unvalued_empty : ({} : Frame).Unvalued := ⟨rfl, fun _ h => by cases h⟩

/-- A frame in which variables are declared has neither values nor units. -/
theorem Program.Frame.Local.unvalued {frame : Frame} (h : frame.Local) : frame.Unvalued where
  constants := h.constants
  units entry hentry u hu := by
    obtain ⟨b, hb⟩ := h.names entry hentry
    cases hb.symm.trans hu

/-! ## 3. Types and names -/

/-- Reading types keeps the values of constants. -/
theorem ConstructTypes.definitions {p p' : Program} (hsource : p.IsSource)
    (hrun : ((p.mapUp ConstructTypes.visitor).outcome ()).1 = .ok p') :
    List.Forall₂ Definition.Means (Items.definitions (p.items.map (·.1)))
      (Items.definitions (p'.items.map (·.1))) := by
  have hrelated := (ConstructTypes.related hsource hrun).1
  exact Items.Related.definitions False.elim (hrelated.imp fun halike => halike.imp fun he _ => he ▸ .refl _)

theorem BindNames.definition?_nameItem (unit : String) (i : Program.Item) :
    (BindNames.nameItem unit i).definition? = i.definition? := by
  cases i with
  | global s => cases s <;> rfl
  | _ => rfl

/-- Binding names keeps the values of constants. -/
theorem BindNames.definitions {unit : String} {env : Env} {items items' : List Program.Item}
    (h : List.Forall₂ (BindNames.ResolvedItem env) (items.map (BindNames.nameItem unit)) items') :
    List.Forall₂ Definition.Means (Items.definitions items) (Items.definitions items') := by
  have hsame : Items.definitions (items.map (BindNames.nameItem unit)) = Items.definitions items := by
    rw [Items.definitions, List.filterMap_map]
    exact congrArg (List.filterMap · items) (funext (BindNames.definition?_nameItem unit))
  rw [← hsame]
  generalize items.map (BindNames.nameItem unit) = named at h
  induction h with
  | nil => exact .nil
  | cons hi _ ih =>
    rw [Items.definitions_cons, Items.definitions_cons]
    refine List.rel_append ?_ ih
    cases hi with
    | constant _ => exact .cons ⟨rfl, .refl _, fun hv => (Expr.value?_bindIn env _).symm.trans hv⟩ .nil
    | _ => exact .nil

/-! ## 4. Computing constants -/

namespace EvaluateConstants

/-- The values of the constants of a frame. -/
def valuesIn (constants : List (String × Constant)) (name : String) : Option Int :=
  (Sorted.find? name constants).map Constant.value

variable {frame : Frame} {frames : Frames} {P : Expr → Prop}

/-- An operation that does not fail gives the exact result. -/
theorem applyOperator_ok {op : String} {lhs rhs value : Int} {span : Span}
    (h : applyOperator op lhs rhs span = .ok value) : operatorValue op lhs rhs = some value := by
  have hcheck : ∀ {n : Int},
      ((checkWord64 n).elim (.error (ConstantProblem.overflow.atSpan span)) .ok : Except Error Int) =
        .ok value → n = value := by
    intro n hn
    unfold checkWord64 at hn
    split at hn
    · exact Except.ok.inj hn
    · cases hn
  unfold applyOperator at h
  unfold operatorValue
  split at h
  · exact congrArg some (hcheck h)
  · exact congrArg some (hcheck h)
  · exact congrArg some (hcheck h)
  · cases h

theorem applyNegation_ok {operand value : Int} {span : Span}
    (h : applyNegation operand span = .ok value) : -operand = value := by
  unfold applyNegation checkWord64 at h
  split at h
  · exact Except.ok.inj h
  · cases h

/-- The value of a name is that of the constant it is bound to. -/
theorem constantValue_ok {name : String} {binding : Option Binding} {type : Option Ty} {span : Span}
    {value : Int}
    (h : constantValue frames.raw (Expr.ident name binding type span).node = .ok value) :
    namesConstant (Expr.ident name binding type span).node = true ∧
      (frames.constant? name).map Constant.value = some value := by
  have hname : (Expr.ident name binding type span).node.textOf "name" = .ok name := by
    cases binding <;> cases type <;> rfl
  have hconstant : (Scopes.constant frames.raw name).bind (·.int? "value") =
      (frames.constant? name).map Constant.value := by
    rw [Frames.constant_raw]
    cases frames.constant? name <;> rfl
  rw [constantValue, hname, ok_bind, hconstant] at h
  cases hnames : namesConstant (Expr.ident name binding type span).node with
  | false =>
    rw [hnames] at h
    cases h
  | true =>
    rw [hnames] at h
    refine ⟨rfl, ?_⟩
    cases hvalue : (frames.constant? name).map Constant.value with
    | none =>
      rw [hvalue] at h
      cases h
    | some v =>
      rw [hvalue] at h
      exact congrArg some (Except.ok.inj h)

/-- Something that holds of the parts of an expression that is computed, if it holds of the expression. -/
structure Inherited (P : Expr → Prop) : Prop where
  binop : ∀ {op : String} {lhs rhs : Expr} {type : Option Ty} {span : Span},
    P (.binop op lhs rhs type span) → P lhs ∧ P rhs
  neg : ∀ {operand : Expr} {type : Option Ty} {span : Span}, P (.neg operand type span) → P operand
  paren : ∀ {inner : Expr} {span : Span}, P (.paren inner span) → P inner
  arg : ∀ {target arg : Expr} {rest : Args} {cell span : Span} {callee : Option Binding} {type : Option Ty},
    P (.call target (.cons arg rest cell) callee type span) → P arg

theorem inherited_true : Inherited fun _ => True := ⟨fun _ => ⟨trivial, trivial⟩, id, id, fun _ => trivial⟩

/-- The names of constants have known values, in expressions of which `P` holds. -/
def Reads (frames : Frames) (P : Expr → Prop) (values : String → Option Int) : Prop :=
  ∀ {name : String} {binding : Option Binding} {type : Option Ty} {span : Span} {value : Int},
    P (.ident name binding type span) →
    constantValue frames.raw (Expr.ident name binding type span).node = .ok value → values name = some value

/-- What a single frame reads are its constants. -/
theorem reads_frame (frame : Frame) : Reads [frame] (fun _ => True) (valuesIn frame.constants) := by
  intro name binding type span value _ h
  have hfind : Frames.constant? [frame] name = Sorted.find? name frame.constants := by
    simp [Frames.constant?]
  exact (congrArg (Option.map Constant.value) hfind.symm).trans (constantValue_ok h).2

/-- A literal that is made like another node has the value that it is made for. -/
theorem numberLike_value (value : Int) (like : Node) (span : Span) :
    (numberLike value like span).tag = .number ∧
      (numberLike value like span).int? "value" = some value := by
  unfold numberLike
  cases like.type? "type" <;> exact ⟨rfl, rfl⟩

/-- A member gives the value of a word. -/
theorem member_value {u : IntrinsicUnit} {name : String} {member : IntrinsicMember}
    (h : u.member? name = some member) {numbers : List Node} {span : Span} {n : Node}
    (hn : member.evaluate numbers span = .ok n) :
    ∃ word value, Intrinsic.wordArgument numbers span = .ok word ∧
      literalOf n = .number value (n.type? "type") n.span ∧
      (0 ≤ word ∧ word ≤ 0xffff → memberValue name word = some value) := by
  have hname : member.name = name := by simpa using List.find?_some h
  have hmem := List.mem_of_find?_eq_some h
  cases u
  simp only [IntrinsicUnit.members, Intrinsic.memMembers, List.mem_cons, List.not_mem_nil,
    or_false] at hmem
  rcases hmem with rfl | rfl | rfl | rfl <;> obtain rfl := hname <;>
    obtain ⟨word, hword, hn⟩ := bind_eq_ok.mp hn <;> obtain rfl := Except.ok.inj hn
  · exact ⟨word, word, hword, rfl, fun hrange => if_pos hrange⟩
  · exact ⟨word, word, hword, rfl, fun hrange => if_pos hrange⟩
  · exact ⟨word, word % 256, hword, rfl, fun hrange => if_pos hrange⟩
  · refine ⟨word, word / 256 % 256, hword, rfl, fun hrange => (if_pos hrange).trans ?_⟩
    have hbyte : word / 256 % 256 = word / 256 := Int.emod_eq_of_lt (by omega) (by omega)
    exact congrArg some hbyte.symm

section Computed

variable (hP : Inherited P) (hreads : Reads frames P values)
include hP hreads

/-- **What is computed is the value.** -/
theorem evaluateWithin_ok : ∀ {fuel : Nat} {e : Expr} {value : Int}, P e →
    evaluateWithin frames.raw fuel e.node = .ok value → e.value? values = some value
  | 0, _, _, _, h => by cases h
  | fuel + 1, .number v type span, value, _, h => by
    rw [evaluateWithin] at h
    simp only [show (Expr.number v type span).node.tag = .number from rfl, Expr.int?_number] at h
    exact congrArg some (Except.ok.inj h)
  | fuel + 1, .binop op lhs rhs type span, value, he, h => by
    have hlhs : (Expr.binop op lhs rhs type span).node.child "lhs" = .ok lhs.node := rfl
    have hrhs : (Expr.binop op lhs rhs type span).node.child "rhs" = .ok rhs.node := rfl
    have hop : (Expr.binop op lhs rhs type span).node.textOf "op" = .ok op := rfl
    rw [evaluateWithin] at h
    simp only [show (Expr.binop op lhs rhs type span).node.tag = .binop from rfl, hlhs, hrhs, hop,
      ok_bind] at h
    obtain ⟨l, hl, h⟩ := bind_eq_ok.mp h
    obtain ⟨r, hr, h⟩ := bind_eq_ok.mp h
    rw [Expr.value?, evaluateWithin_ok (hP.binop he).1 hl, evaluateWithin_ok (hP.binop he).2 hr]
    exact applyOperator_ok h
  | fuel + 1, .neg operand type span, value, he, h => by
    have hoperand : (Expr.neg operand type span).node.child "operand" = .ok operand.node := rfl
    rw [evaluateWithin] at h
    simp only [show (Expr.neg operand type span).node.tag = .neg from rfl, hoperand, ok_bind] at h
    obtain ⟨v, hv, h⟩ := bind_eq_ok.mp h
    rw [Expr.value?, evaluateWithin_ok (hP.neg he) hv]
    exact congrArg some (applyNegation_ok h)
  | fuel + 1, .paren inner span, value, he, h => by
    have h : evaluateWithin frames.raw fuel inner.node = .ok value := h
    rw [Expr.value?]
    exact evaluateWithin_ok (hP.paren he) h
  | fuel + 1, .ident name binding type span, value, he, h => hreads he h
  | fuel + 1, .string _ _ _, _, _, h | fuel + 1, .member _ _ _, _, _, h | fuel + 1, .intrinsic _ _ _, _, _, h
  | fuel + 1, .call _ _ _ _ _, _, _, h | fuel + 1, .deref _ _ _, _, _, h
  | fuel + 1, .cell (.symbol _) _ _ _, _, _, h | fuel + 1, .cell (.address _) _ _ _, _, _, h
  | fuel + 1, .immediate _ _ _, _, _, h | fuel + 1, .returned _ _, _, _, h => by cases h

/-- The only argument of a member is a word of two bytes. -/
theorem wordArgument_ok {target : Expr} {args : Args} {callee : Option Binding} {type : Option Ty} {place : Span}
    {numbers : List Node} {word : Int} {span : Span} (he : P (.call target args callee type place))
    (hnumbers : evaluateArguments frames.raw (args.toList.map Expr.node) = .ok numbers)
    (hword : Intrinsic.wordArgument numbers span = .ok word) :
    args.word? values = some word ∧ 0 ≤ word ∧ word ≤ 0xffff := by
  have hall := forall₂_of_mapM hnumbers
  cases args with
  | nil =>
    cases hall
    cases hword
  | cons arg rest cell =>
    cases rest with
    | nil =>
      cases hall with
      | cons harg hrest =>
        cases hrest
        obtain ⟨value, hvalue, hnumber⟩ := bind_eq_ok.mp harg
        obtain rfl := Except.ok.inj hnumber
        obtain ⟨htag, hint⟩ := numberLike_value value arg.node arg.node.span
        simp only [Intrinsic.wordArgument, htag, hint] at hword
        split at hword
        · rename_i hfits
          obtain rfl := Except.ok.inj hword
          refine ⟨evaluateWithin_ok hP hreads (hP.arg he) hvalue, ?_⟩
          simp only [Ty.u16, Ty.fits, Bool.false_eq_true, if_false, Bool.and_eq_true,
            decide_eq_true_eq] at hfits
          have hpower : (powerOfTwo (8 * 2) : Int) = 0x10000 := by decide
          omega
        · cases hword
    | cons arg' rest' cell' =>
      cases hall with
      | cons _ hrest =>
        cases hrest with
        | cons _ _ => cases hword

/-- The call of a member that is computed has the value that is put in its place. -/
theorem evaluateCall_ok {s : Nested Unit} (hs : s.frames = frames) {e e' : Expr} (he : P e)
    (h : evaluateCall s e = .ok e') :
    e' = e ∨ ∃ value type span, e' = .number value type span ∧ e.value? values = some value := by
  subst hs
  unfold evaluateCall at h
  split at h
  · split at h
    · cases h
    · rename_i hmember
      obtain ⟨numbers, hnumbers, h⟩ := bind_eq_ok.mp h
      obtain ⟨n, hn, rfl⟩ := map_eq_ok.mp h
      obtain ⟨word, value, hword, hliteral, hvalue⟩ := member_value hmember hn
      obtain ⟨hargument, hrange⟩ := wordArgument_ok hP hreads he hnumbers hword
      refine .inr ⟨value, _, _, hliteral, ?_⟩
      simp only [Expr.value?, Expr.member?, Option.bind_some, hargument]
      exact hvalue hrange
  · exact .inl (Except.ok.inj h).symm

end Computed

/-- **A call that is computed means its value**, in terms of the constants so far. -/
theorem evaluateCall_means {e e' : Expr} (h : evaluateCall ⟨[frame], ()⟩ e = .ok e') :
    e.Means (valuesIn frame.constants) e' := by
  rcases evaluateCall_ok inherited_true (reads_frame frame) rfl trivial h with rfl | ⟨value, _, _, rfl, hvalue⟩
  · exact .refl _
  · exact .of_value rfl rfl fun hv => hvalue.trans hv

/-- Constants that are defined one after the other: each has the value of its expression in terms of
those before it, and its type holds the value. -/
inductive Evaluated : List (String × Constant) → List Definition → List (String × Constant) → Prop
  | nil {constants : List (String × Constant)} : Evaluated constants [] constants
  | cons {constants constants' : List (String × Constant)} {c : Definition} {rest : List Definition}
      {value : Constant} : c.value.value? (valuesIn constants) = some value.value →
      c.ty.type? = some value.type → value.type.fits value.value = true →
      Evaluated (Sorted.set c.name value constants) rest constants' →
      Evaluated constants (c :: rest) constants'

/-- A constant that is recorded has the value of its expression, which its type holds. -/
theorem recordConstant_ok {name : String} {ty : TypeExpr} {e : Expr} (symbol : Option String)
    {span : Span} {left : Option Program.Item} {s' : Nested Unit}
    (h : (recordConstant (.constant name ty e symbol span)).outcome ⟨[frame], ()⟩ = (.ok left, s')) :
    ∃ value : Constant, s' = ⟨[{ frame with
        constants := Sorted.set name value frame.constants }], ()⟩ ∧
      e.value? (valuesIn frame.constants) = some value.value ∧ ty.type? = some value.type ∧
      value.type.fits value.value = true := by
  rw [recordConstant, Walk.outcome_bind_of_ok Walk.outcome_get] at h
  obtain ⟨computed, hcomputed, h⟩ := Walk.outcome_lift_bind_eq_ok.mp h
  obtain ⟨type, htype, h⟩ := Walk.outcome_lift_bind_eq_ok.mp h
  cases hfits : type.fits computed with
  | false =>
    rw [hfits] at h
    cases (Prod.mk.inj h).1
  | true =>
    rw [hfits] at h
    refine ⟨⟨computed, type, e.node.span⟩, (Prod.mk.inj h).2.symm,
      evaluateWithin_ok inherited_true (reads_frame frame) trivial hcomputed, ?_, hfits⟩
    unfold BindNames.knownType at htype
    split at htype
    · rename_i hknown
      rw [hknown, Except.ok.inj htype]
    · cases htype

/-- **A run over the items evaluates their definitions**, from the first to the last. -/
theorem mapUp_evaluated : ∀ {items items' : Items} {frame : Frame} {s' : Nested Unit},
    (∀ entry ∈ items, entry.1.isSource = true) →
    (Items.mapUp visitor items).outcome ⟨[frame], ()⟩ = (.ok items', s') →
    ∃ frame', s' = ⟨[frame'], ()⟩ ∧
      Evaluated frame.constants (Items.definitions (items.map (·.1))) frame'.constants
  | [], items', frame, s', _, h => by
    obtain ⟨-, rfl⟩ := Walk.outcome_pure_eq_ok.mp h
    exact ⟨frame, rfl, .nil⟩
  | (item, span) :: rest, items', frame, s', hsource, h => by
    obtain ⟨hs, hsrest⟩ := List.forall_mem_cons.mp hsource
    obtain ⟨left, s1, hitem, h⟩ := Walk.outcome_bind_eq_ok.mp h
    obtain ⟨rest', s2, hrest, h⟩ := Walk.outcome_bind_eq_ok.mp h
    rw [steady.leaveItemCell_eq] at h
    obtain ⟨-, rfl⟩ := Walk.outcome_pure_eq_ok.mp h
    cases hdefinition : item.definition? with
    | none =>
      -- an item without a definition leaves the constants as they are
      have hs1 : s1 = ⟨[frame], ()⟩ := by
        obtain ⟨item', halike, hleft⟩ := steady.mapUp_item
          (Steady.keeps_staysLinked rfl evaluateCall_staysLinked)
          (Visitor.scoped_keepsFunctions_pure rfl) trivial hs (fun _ _ => trivial) hitem
        rcases hleft with ⟨-, hs1, -⟩ | ⟨-, hrun⟩
        · exact hs1
        · cases halike with
          | constant _ _ => cases hdefinition
          | _ => exact (Walk.outcome_pure_eq_ok.mp hrun).2.symm
      subst hs1
      rw [List.map_cons, Items.definitions_cons, hdefinition]
      exact mapUp_evaluated hsrest hrest
    | some c =>
      cases item with
      | constant name ty value symbol place =>
        obtain ⟨value', hvalue, hrun⟩ := steady.mapUp_constant rfl hitem
        obtain ⟨recorded, rfl, hexact, htype, hfits⟩ := recordConstant_ok symbol hrun
        obtain ⟨frame', rfl, hevaluated⟩ := mapUp_evaluated hsrest hrest
        refine ⟨frame', rfl, .cons ?_ htype hfits hevaluated⟩
        exact (Expr.means_of_mapUp (fun hstep => evaluateCall_means hstep) hvalue).value hexact
      | _ => cases hdefinition

/-- **Constants get their values.** -/
theorem evaluated {p p' : Program} (hsource : p.IsSource) (hconstants : p.frame.constants = [])
    (hrun : ((p.mapUp visitor).outcome ⟨[], ()⟩).1 = .ok p') :
    Evaluated [] (Items.definitions (p.items.map (·.1))) p'.frame.constants := by
  obtain ⟨items, s1, hitems, rfl⟩ := Visitor.scoped_program rfl rfl
    (Prod.ext hrun rfl : (p.mapUp visitor).outcome ⟨[], ()⟩ = (.ok p', _))
  obtain ⟨frame', rfl, hevaluated⟩ := mapUp_evaluated hsource hitems
  rw [hconstants] at hevaluated
  have habove : (frame'.above p.frame).constants = frame'.constants := by
    simp only [Frame.above, hconstants]
    cases frame'.constants <;> rfl
  rw [← habove] at hevaluated
  exact hevaluated

end EvaluateConstants

end Lode
