/-
# Refinement while a text is compiled

The functions of a text are followed from the statements that are written to those whose variables are
allocated.  What a name of the unit stands for does not change on the way (`Program.Refines`), and every
expression stands for what was written in its place: it has the same byte, wherever it has one
(`Expr.Realizes`).

The passes before names are bound change what is written without its meaning, and in any order
(`frontKeeps_refines`).  Behind them an expression is rewritten by several passes in turn, with a relation for
what is left of it (`Substituted`); each of the steps is sound in an environment that gives names the
meanings they have in the text (`Substituted.sound`).

The constants of the unit have the values that are defined, each in terms of those before it
(`EvaluateConstants.Evaluated.lookup`).  A constant is replaced by its value before the storage of variables
is known, so the values are exact integers and nothing is cut off to a byte in between.

The same holds of the initial values of variables of the unit, which are literals in the end: a literal that
stands for a written expression has its value, so that the data of a variable are the lowest bytes of what
is written (`variables_initialized`).
-/
import Lode.Proofs.Compiler.Bodies
import Lode.Proofs.Pass.Refinement
import Mathlib.Data.Nat.Digits.Defs

namespace Lode

open Program
open Machine (Memory)

variable {unit : String} {p q : Program} {S : Symbols} {c : Context} {env : Env}

/-! ## 1. The names of a unit -/

/-- What the names of a unit stand for. -/
def Program.meanings (unit : String) (q : Program) : List (String × Meaning) :=
  (q.items.map (·.1)).filterMap (Item.meaning? unit)

namespace Program

variable {Rel : Expr → Expr → Prop}

theorem Item.Alike.meaning? {i i' : Item} (h : i.Alike Rel i') : i'.meaning? unit = i.meaning? unit := by
  cases h with
  | use | constant _ _ => rfl
  | global _ hsame => rw [Item.meaning?, Item.meaning?, hsame.name]
  | function hf => rw [Item.meaning?, Item.meaning?, hf.name]

theorem Item.meaning?_erase (i : Item) : i.erase.meaning? unit = i.meaning? unit := by
  cases i with
  | global s => cases s <;> rfl
  | _ => rfl

theorem meaning?_nestItem (i : Item) : (ExplicitScopes.nestItem i).meaning? unit = i.meaning? unit := by
  cases i with
  | global s => cases s <;> rfl
  | _ => rfl

/-- Related items stand for the same, if those that are dropped stand for nothing. -/
theorem Items.Related.meanings {drops : Item → Prop} (hdrops : ∀ {i : Item}, drops i → i.meaning? unit = none)
    {items items' : Items} (h : Items.Related drops (Item.Alike Rel) items items') :
    (items'.map (·.1)).filterMap (Item.meaning? unit) = (items.map (·.1)).filterMap (Item.meaning? unit) := by
  induction h with
  | nil => rfl
  | cons hitem _ ih =>
    rw [List.map_cons, List.map_cons, List.filterMap_cons, List.filterMap_cons, hitem.meaning?, ih]
  | drop hdrop _ ih => rw [List.map_cons, List.filterMap_cons_none (hdrops hdrop), ih]

theorem Expr.refines_of_eq {e e' : Expr} (h : e = e') (c : Context) : e.Refines c e' := h ▸ .refl e

/-- A function while the first passes run: its statements are refined. -/
structure Function.Refines (f g : Function) : Prop where
  name : g.name = f.name
  params : g.paramNames = f.paramNames
  leaves : List.Forall₂ (Stmt.Like fun e e' => ∀ c, e.Refines c e') f.body.leaves g.body.leaves

theorem Function.Refines.refl (f : Function) : f.Refines f :=
  ⟨rfl, rfl, List.forall₂_same.mpr fun _ _ => ⟨rfl, List.forall₂_same.mpr fun _ _ _ => .refl _⟩⟩

theorem Function.Refines.trans {f g h : Function} (hfg : f.Refines g) (hgh : g.Refines h) : f.Refines h :=
  ⟨hgh.name.trans hfg.name, hgh.params.trans hfg.params,
    forall₂_trans (fun hs hs' => hs.trans (fun he he' c => (he c).trans (he' c)) hs') hfg.leaves hgh.leaves⟩

theorem Function.Alike.refines (hRel : ∀ {e e' : Expr}, Rel e e' → ∀ c, e.Refines c e') {f g : Function}
    (h : f.Alike Rel g) : f.Refines g := by
  refine ⟨h.name, ?_, h.body.leaves.imp fun _ _ hs => (hs.imp hRel).like⟩
  exact map_eq_of_forall₂ (fun _ _ hsame => hsame.name) h.params

/-- A function refines another one if it differs in its bindings only. -/
theorem Function.refines_of_erase {f g : Function} (h : g.erase = f.erase) : f.Refines g := by
  have hparams : ∀ f : Function, f.erase.paramNames = f.paramNames := fun f => by
    rw [Function.paramNames, Function.erase, Params.map_fst_ofList, List.map_map]
    rfl
  have hname : g.erase.name = f.erase.name := congrArg Function.name h
  refine ⟨hname, by rw [← hparams g, h, hparams], ?_⟩
  have hleaves : g.body.leaves.map Stmt.erase = f.body.leaves.map Stmt.erase := by
    rw [← Stmts.leaves_erase, ← Stmts.leaves_erase]
    exact congrArg (fun f : Function => f.body.leaves) h
  exact (forall₂_of_map_eq hleaves).imp fun _ _ herase => Stmt.like_of_erase herase

/-- A declaration while the first passes run: its type is the one that is written, and its initial value is
refined. -/
structure Let.Refines (d d' : Let) : Prop where
  name : d'.name = d.name
  denotes : d'.ty.denotes = d.ty.denotes
  value : ∀ c, d.value.Refines c d'.value

theorem Let.Refines.refl (d : Let) : d.Refines d := ⟨rfl, rfl, fun _ => .refl _⟩

theorem Let.Refines.trans {d d' d'' : Let} (h : d.Refines d') (h' : d'.Refines d'') : d.Refines d'' :=
  ⟨h'.name.trans h.name, h'.denotes.trans h.denotes, fun c => (h.value c).trans (h'.value c)⟩

theorem Let.Alike.refines (hRel : ∀ {e e' : Expr}, Rel e e' → ∀ c, e.Refines c e') {d d' : Let}
    (h : d.Alike Rel d') : d.Refines d' :=
  ⟨h.same.name, h.same.ty.denotes, hRel h.value⟩

/-- A declaration refines another one if it differs in its bindings only. -/
theorem Let.refines_of_erase {d d' : Let} (h : d'.erase = d.erase) : d.Refines d' := by
  have hname : d'.erase.name = d.erase.name := congrArg Let.name h
  have hdenotes : d'.erase.ty.denotes = d.erase.ty.denotes := congrArg (fun d : Let => d.ty.denotes) h
  exact ⟨hname, hdenotes, fun _ => Expr.refines_of_erase (congrArg Let.value h)⟩

theorem Item.let?_erase (i : Item) : i.erase.let? = i.let?.map Let.erase := by
  cases i with
  | global s => cases s <;> rfl
  | _ => rfl

end Program

/-- A program while the first passes run, next to what it was before: its names stand for the same, and its
functions and variables are refined. -/
structure Program.Refines (unit : String) (p q : Program) : Prop where
  meanings : q.meanings unit = p.meanings unit
  functions : List.Forall₂ Function.Refines p.functions q.functions
  lets : List.Forall₂ Let.Refines p.lets q.lets

theorem Program.Refines.refl (p : Program) : p.Refines unit p :=
  ⟨rfl, List.forall₂_same.mpr fun f _ => .refl f, List.forall₂_same.mpr fun d _ => .refl d⟩

/-- Explicit scopes leave the variables of a unit. -/
theorem ExplicitScopes.lets_nested (q : Program) : (nested q).lets = q.lets := by
  rw [Program.lets, Program.lets, Items.lets, Items.lets, nested, List.map_map, List.filterMap_map,
    List.filterMap_map]
  refine List.filterMap_congr fun entry _ => ?_
  change (nestItem entry.1).let? = entry.1.let?
  generalize entry.1 = i
  cases i with
  | global s => cases s <;> rfl
  | _ => rfl

/-- **Explicit scopes** refine a program. -/
theorem ExplicitScopes.nested_refines (q : Program) : q.Refines unit (nested q) := by
  refine ⟨?_, functions_nested (fun f => ⟨rfl, rfl, ?_⟩) q,
    (lets_nested q).symm ▸ List.forall₂_same.mpr fun d _ => .refl d⟩
  · rw [meanings, meanings, nested, List.map_map, List.filterMap_map, List.filterMap_map]
    exact List.filterMap_congr fun entry _ => meaning?_nestItem entry.1
  · rw [leaves_nest]
    exact (Function.Refines.refl f).leaves

theorem Program.Refines.trans {p q q' : Program} (h : p.Refines unit q) (h' : q.Refines unit q') :
    p.Refines unit q' :=
  ⟨h'.meanings.trans h.meanings, forall₂_trans @Function.Refines.trans h.functions h'.functions,
    forall₂_trans @Let.Refines.trans h.lets h'.lets⟩

/-- A program refines another one if it differs in its bindings only. -/
theorem Program.refines_of_erase {q q' : Program}
    (h : (q'.items.map (·.1)).map Item.erase = (q.items.map (·.1)).map Item.erase) : q.Refines unit q' := by
  refine ⟨?_, functions_of_erase Function.refines_of_erase h, ?_⟩
  · have hsame : ∀ items : List Program.Item, items.filterMap (Item.meaning? unit) =
        (items.map Item.erase).filterMap (Item.meaning? unit) := fun items => by
      rw [List.filterMap_map]
      exact List.filterMap_congr fun i _ => i.meaning?_erase.symm
    rw [meanings, meanings, hsame, h, ← hsame]
  · have hlets : ∀ items : List Program.Item, (items.filterMap Item.let?).map Let.erase =
        (items.map Item.erase).filterMap Item.let? := fun items => by
      rw [List.filterMap_map, List.map_filterMap]
      exact List.filterMap_congr fun i _ => i.let?_erase.symm
    have hsame : q'.lets.map Let.erase = q.lets.map Let.erase := by
      rw [lets, lets, Items.lets, Items.lets, hlets, h, ← hlets]
    exact (forall₂_of_map_eq hsame).imp fun _ _ herase => Let.refines_of_erase herase

/-- **The first passes** refine a program. -/
theorem frontKeeps_refines (unit : String) (p : Program) : FrontKeeps (p.Refines unit) where
  scopes h := h.trans (ExplicitScopes.nested_refines _)
  units h hrelated := h.trans
    ⟨hrelated.meanings (by rintro _ ⟨_, _, rfl⟩; rfl),
      (hrelated.alike ResolveUnits.isWhole_of_isUse).functions.imp
        fun _ _ hf => hf.refines fun he _ => he.refines,
      (hrelated.alike ResolveUnits.isWhole_of_isUse).lets.imp fun _ _ hd => hd.refines fun he _ => he.refines⟩
  types h hrelated := h.trans
    ⟨hrelated.meanings False.elim,
      (hrelated.alike False.elim).functions.imp fun _ _ hf => hf.refines Expr.refines_of_eq,
      (hrelated.alike False.elim).lets.imp fun _ _ hd => hd.refines Expr.refines_of_eq⟩
  names h herase := h.trans (Program.refines_of_erase herase)

/-! ## 2. From written functions to bound ones -/

/-- Simplified, the names of a unit stand for the same. -/
theorem Simplify.meanings (p : Program) : (program p).meanings unit = p.meanings unit := by
  rw [Program.meanings, Program.meanings, program, List.map_map, List.filterMap_map, List.filterMap_map]
  refine List.filterMap_congr fun entry _ => ?_
  change (simpleItem entry.1).meaning? unit = entry.1.meaning? unit
  generalize entry.1 = i
  cases i with
  | global s => cases s <;> rfl
  | _ => rfl

/-- A written function, and what it is when names are bound: the statements are simplified and refined. -/
structure Program.Function.Bound (f g : Function) : Prop where
  written : f.body.Written
  assigns : ∀ s ∈ f.body.toList, s.Assigns
  name : g.name = f.name
  params : g.paramNames = f.paramNames
  leaves : List.Forall₂ (fun s s' => (Simplify.simpleStmt s).Like (fun e e' => ∀ c, e.Refines c e') s')
    f.body.toList g.body.leaves

/-- **Functions that are bound.** -/
theorem Run.bound_functions (r : Run unit p S) :
    List.Forall₂ Function.Bound p.functions r.named.functions := by
  have hrefines : (Simplify.program p).Refines unit r.named :=
    r.reached _ (frontKeeps_refines unit _) (.refl _)
  have hsimple : List.Forall₂ (fun f g => (f.body.Written ∧ ∀ s ∈ f.body.toList, s.Assigns) ∧
      g.name = f.name ∧ g.paramNames = f.paramNames ∧ g.body.leaves = f.body.toList.map Simplify.simpleStmt)
      p.functions (Simplify.program p).functions := by
    refine Items.functions_forall₂ (R := fun i i' => (i.Written ∧ i.Assigns) ∧ i' = Simplify.simpleItem i)
      (fun {f i'} hi => ?_) (fun {i i'} hi hnone => ?_) ?_
    · obtain ⟨⟨hf, hassigns⟩, rfl⟩ := hi
      have hbody : (Simplify.simpleStmts f.body).Written := (Simplify.written_simpleItem hf).body
      exact ⟨_, rfl, ⟨hf.body, hassigns⟩, rfl, rfl, by rw [hbody.flat.leaves_eq, Simplify.toList_simpleStmts]⟩
    · obtain ⟨-, rfl⟩ := hi
      cases i with
      | function f => cases hnone
      | _ => rfl
    · exact List.forall₂_map_right_iff.mpr (List.forall₂_same.mpr fun entry hentry =>
        ⟨⟨r.written.items _ (List.mem_map_of_mem hentry), r.assigns _ (List.mem_map_of_mem hentry)⟩, rfl⟩)
  refine forall₂_trans (fun ⟨⟨hwritten, hassigns⟩, hname, hparams, hleaves⟩ h => ?_) hsimple hrefines.functions
  exact ⟨hwritten, hassigns, h.name.trans hname, h.params.trans hparams,
    List.forall₂_map_left_iff.mp (hleaves ▸ h.leaves)⟩

/-- Simplified, a unit declares the same variables. -/
theorem Simplify.lets (p : Program) : (program p).lets = p.lets.map simpleLet := by
  rw [Program.lets, Program.lets, Items.lets, Items.lets, program, List.map_map, List.filterMap_map,
    List.map_filterMap, List.filterMap_map]
  refine List.filterMap_congr fun entry _ => ?_
  change (simpleItem entry.1).let? = entry.1.let?.map simpleLet
  generalize entry.1 = i
  cases i with
  | global s => cases s <;> rfl
  | _ => rfl

/-- **Variables that are bound.** -/
theorem Run.bound_lets (r : Run unit p S) :
    List.Forall₂ (fun d d' => d.Written ∧ (Simplify.simpleLet d).Refines d') p.lets r.named.lets := by
  have hrefines : (Simplify.program p).Refines unit r.named :=
    r.reached _ (frontKeeps_refines unit _) (.refl _)
  have hlets := hrefines.lets
  rw [Simplify.lets, List.forall₂_map_left_iff] at hlets
  exact (List.forall₂_and_left _ _).mpr ⟨fun d hd => r.written.items _ (Items.mem_lets.mp hd), hlets⟩

/-- What an item binds its name to is what that stands for. -/
theorem Program.Item.meaning?_of_binding {i : Program.Item} (h : BindNames.ItemLabelled unit i) :
    i.binding?.map (fun entry => (entry.1, entry.2.meaning)) = i.meaning? unit := by
  cases i with
  | global s =>
    cases s with
    | decl d =>
      have hsymbol : d.symbol = some (unit ++ "." ++ d.name) := h.1
      simp [Item.binding?, Item.meaning?, Binding.meaning, Let.binding, hsymbol]
    | _ => rfl
  | _ => rfl

/-- The values of the constants of a written unit. -/
def Program.constantValues (p : Program) : List (String × Int) := p.definitions.foldl Definition.extend []

/-- What is known around the items of a unit. -/
def Program.context (unit : String) (p : Program) : Context := ⟨p.meanings unit, p.constantValues⟩

/-- What the names of a unit stand for is what they are bound to. -/
theorem Run.unit_fits (r : Run unit p S) :
    (p.context unit).Fits (Items.env (r.named.items.map (·.1))) := by
  have hrefines : (Simplify.program p).Refines unit r.named :=
    r.reached _ (frontKeeps_refines unit _) (.refl _)
  have hmeanings : r.named.meanings unit = p.meanings unit := hrefines.meanings.trans (Simplify.meanings p)
  rw [Context.Fits, Program.context, ← hmeanings, Items.env, List.map_filterMap]
  exact (List.filterMap_congr fun i hi => Item.meaning?_of_binding (r.names.labelled i hi)).symm

/-- **What names stand for** in the body of a function is what they are bound to there. -/
theorem Run.context_fits (r : Run unit p S) {f g : Function} (hg : g ∈ r.named.functions) (h : f.Bound g) :
    (f.context unit (p.items.map (·.1))).Fits (g.paramEnv ++ Items.env (r.named.items.map (·.1))) := by
  obtain ⟨-, hlabelled, -⟩ := r.names.labelled _ (Items.mem_functions.mp hg)
  rw [Context.Fits, Function.context, Function.names, List.map_append]
  refine congrArg₂ (· ++ ·) ?_ r.unit_fits
  · have hnames : (f.params.map Prod.fst).map Param.name = (g.params.map Prod.fst).map Param.name := h.params.symm
    have hsame : ((f.params.map Prod.fst).map Param.name).map
        (fun name => (name, Meaning.variable (unit ++ "." ++ f.name ++ "." ++ name))) =
        (g.params.map Prod.fst).map fun x => (x.name, x.binding.meaning) := by
      rw [hnames, List.map_map]
      refine List.map_congr_left fun x hx => ?_
      simp [Binding.meaning, Param.binding, (hlabelled x hx).1, h.name]
    rw [List.map_map] at hsame
    rw [Function.paramEnv, List.map_map (l := g.params.map Prod.fst)]
    exact hsame

/-! ## 3. Constants -/

/-- **The constants of a unit** have the values that are defined. -/
theorem EvaluateConstants.Evaluated.lookup {constants constants' : List (String × Constant)}
    {definitions : List Definition} (h : Evaluated constants definitions constants') :
    ∀ {written : List Definition} {known : List (String × Int)},
    List.Forall₂ Definition.Means written definitions →
    (∀ name, valuesIn constants name = known.lookup name) →
    ∀ name, valuesIn constants' name = (written.foldl Definition.extend known).lookup name := by
  induction h with
  | nil =>
    intro written known hmeans hknown
    cases hmeans
    exact hknown
  | @cons constants constants' d rest value hvalue htype hfits _ ih =>
    intro written known hmeans hknown
    cases hmeans with
    | @cons d' _ rest' _ hd hrest =>
      rw [funext hknown] at hvalue
      have hextend : Definition.extend known d' = (d'.name, value.value) :: known := by
        rw [Definition.extend, hd.value hvalue]
      rw [List.foldl_cons, hextend]
      exact ih hrest (hd.name ▸ valuesIn_set hknown d.name value)

/-- What the passes behind the binding of names make of an expression up to its storage, where constants are
known. -/
inductive Substituted (values : String → Option Int) : Expr → Expr → Prop
  | intro {e e1 e2 e3 e4 e5 : Expr} : UnitsResolved e e1 →
      Steady.RewrittenIn (ConstantsIn values) EvaluateConstants.evaluateCall e1 e2 →
      Steady.RewrittenIn (ConstantsIn values) ResolveConstants.resolve e2 e3 →
      Steady.Rewritten (fun _ : Unit => FoldArithmetic.fold) e3 e4 →
      Steady.Rewritten (fun _ : Nested (List Ty) => PropagateTypes.typeExpr) e4 e5 → Substituted values e e5

theorem UnitsResolved.sound {e e' : Expr} (h : UnitsResolved e e') : e.Sound env c e' := by
  induction h with
  | refl => exact fun hbound => ⟨hbound, .refl _⟩
  | tail _ h ih => exact ih.trans h.sound

/-- **Substituting** the constants of a unit refines expressions. -/
theorem Substituted.sound (hfits : c.Fits env) {e e' : Expr} (h : Substituted (c.constants.lookup ·) e e') :
    e.Sound env c e' := by
  cases h with
  | intro hunits hevaluate hresolve hfold htype =>
    exact hunits.sound.trans ((EvaluateConstants.sound hfits hevaluate).trans
      ((ResolveConstants.sound hfits hresolve).trans
        ((FoldArithmetic.sound hfold).trans (PropagateTypes.sound htype))))

namespace Run

variable (r : Run unit p S)

/-- The computed constants are those that are known. -/
theorem knownIn_evaluated : KnownIn (p.constantValues.lookup ·) r.preparation.evaluated.frame := by
  have hevaluated := EvaluateConstants.evaluated r.preparation.source r.underway.constants r.preparation.evaluate
  intro name k hk
  have hlookup : EvaluateConstants.valuesIn r.preparation.evaluated.frame.constants name =
      p.constantValues.lookup name := hevaluated.lookup r.underway.definitions (fun _ => rfl) name
  exact hlookup.symm.trans (congrArg (Option.map Constant.value) hk)

theorem definitions_nodup :
    ((Items.definitions (r.ready.items.map (·.1))).map Definition.name).Nodup := by
  have hnames : r.ready.definitions.map Definition.name = p.definitions.map Definition.name :=
    map_eq_of_forall₂ (fun _ _ hd => hd.name) r.underway.definitions
  have hnodup := Lode.definitions_nodup (r.underway.once rfl)
  rwa [← hnames] at hnodup

/-- **Items whose constants are substituted**, up to the allocation of variables. -/
theorem substituted : Items.Alike
    (Relation.Comp (Substituted (p.constantValues.lookup ·)) (Steady.Rewritten ResolveStorage.place))
    r.named.items r.preparation.placed.items := by
  have hframes : ∀ inner ∈ Items.frames r.ready.items, inner.constants = [] := fun inner hinner =>
    (r.underway.frames inner hinner).constants
  have hframes' : ∀ inner ∈ Items.frames r.preparation.evaluated.items, inner.constants = [] := fun inner hinner =>
    hframes inner ((EvaluateConstants.related r.preparation.source r.preparation.evaluate).frames_subset hinner)
  have hevaluate := EvaluateConstants.items r.preparation.source r.underway.constants hframes
    r.definitions_nodup r.preparation.evaluate r.knownIn_evaluated
  have hresolve := ResolveConstants.items r.preparation.evaluated_bound.1 hframes' r.knownIn_evaluated
    r.preparation.resolve
  have hfold := (FoldArithmetic.related r.preparation.resolved_bound.1 r.preparation.fold).1.alike False.elim
  have htype := (PropagateTypes.related r.preparation.folded_bound.1 r.preparation.type).1.alike False.elim
  have hplace := (ResolveStorage.related r.preparation.typed_bound.1 r.preparation.place).1.alike False.elim
  exact (r.units.comp (hevaluate.comp (hresolve.comp (hfold.comp (htype.comp hplace))))).imp
    fun ⟨_, h1, _, h2, _, h3, _, h4, _, h5, h6⟩ => ⟨_, .intro h1 h2 h3 h4 h5, h6⟩

end Run

/-! ## 4. Expressions up to their storage -/

/-- An expression that stands for a written one once its storage is known. -/
structure Program.Expr.Realizes (c : Context) (e e' : Expr) : Prop where
  byte : ∀ {memory : Memory} {b : UInt8}, e'.byte? c memory = some b → e.byte? c memory = some b
  place : e.isAssignable = true → ∀ {place : Place}, e'.place? c = some place → e.place? c = some place
  direct : e'.Direct
  callees : e'.callees = []

/-- **Expressions up to their storage.**  An expression that calls no functions and dereferences addresses has the
byte that is written, wherever it has one. -/
theorem Program.Expr.Written.realizes {e bound placed : Expr} (hwritten : e.Written) (hfits : c.Fits env)
    (hcallees : e.callees = []) (haddresses : e.AddressesFit c.constant?)
    (hrefines : (Simplify.simple .fresh e).Refines c bound) (hbound : bound.BoundBy env)
    (h : Relation.Comp (Substituted (c.constants.lookup ·)) (Steady.Rewritten ResolveStorage.place) bound placed) :
    e.Realizes c placed := by
  obtain ⟨substituted, hsubstituted, hplaced⟩ := h
  have hsimple := Simplify.simplified (c := c) .fresh hwritten
  obtain ⟨hbound', hrefines'⟩ := hsubstituted.sound hfits hbound
  have hall := hrefines.trans hrefines'
  have hplain : (Simplify.simple .fresh e).Plain := (Simplify.written_simple .fresh hwritten).plain
  have haddresses' : substituted.AddressesFit c.constant? := fun address haddress =>
    haddresses address (hsimple.addresses (hall.addresses haddress))
  have hlands := ResolveStorage.lands hfits hplaced hbound' (hall.plain hplain) haddresses'
  refine ⟨fun {memory b} hb => ?_, fun hassignable {place} hp => ?_, hlands.direct, ?_⟩
  · rw [← hsimple.byte]
    exact hall.byte (hlands.byte hb)
  · rw [← Simplify.place?_simple .fresh hassignable hwritten]
    exact hall.place (hlands.place hp)
  · have hnone : placed.callees ⊆ [] := fun name hname =>
      hcallees ▸ hsimple.callees ▸ hall.callees (hlands.callees hname)
    exact List.subset_nil.mp hnone

/-- An expression whose memory cells are those that a written one dereferences, one by one. -/
def Program.Expr.Traces (c : Context) (e e' : Expr) : Prop :=
  List.Forall₂ (fun t a => ∃ n, t.value? c.constant? = some n ∧ Hits n a) e.targets e'.accesses

/-- **Dereferences up to their storage** have values, at which the memory cells in their place are. -/
theorem Program.Expr.Written.traces {e bound placed : Expr} (hwritten : e.Written) (hfits : c.Fits env)
    (hrefines : (Simplify.simple .fresh e).Refines c bound) (hbound : bound.BoundBy env)
    (h : Relation.Comp (Substituted (c.constants.lookup ·)) (Steady.Rewritten ResolveStorage.place) bound placed) :
    e.Traces c placed := by
  obtain ⟨substituted, hsubstituted, hplaced⟩ := h
  obtain ⟨-, hrefines'⟩ := hsubstituted.sound hfits hbound
  have hall := hrefines.trans hrefines'
  have hplain : (Simplify.simple .fresh e).Plain := (Simplify.written_simple .fresh hwritten).plain
  have hkept : List.Forall₂ (fun t t' => ∀ v, t'.value? c.constant? = some v → t.value? c.constant? = some v)
      e.targets substituted.targets :=
    forall₂_trans (fun ht ht' v hv => ht ▸ ht'.value hv) (Simplify.simplified (c := c) .fresh hwritten).targets
      hall.targets
  refine forall₂_trans (fun hvalue ⟨n, _, _, hnumber, hhits⟩ => ⟨n, hvalue n ?_, hhits⟩) hkept
    (ResolveStorage.traced hplaced (hall.plain hplain)).accesses
  rw [hnumber, Expr.value?]

/-! ## 5. Bytes of integers -/

/-- **The lowest bytes of an integer** are the digits of its remainder. -/
theorem ofDigits_littleEndian : ∀ (count : Nat) (n : Int),
    ((Nat.ofDigits 256 ((littleEndian count n).map UInt8.toNat) : Nat) : Int) = n % 256 ^ count
  | 0, n => by simp [littleEndian]
  | count + 1, n => by
    have hpower : (0 : Int) < 256 ^ count := by positivity
    have hlow := Int.emod_nonneg (n / 256) hpower.ne'
    have hhigh := Int.emod_lt_of_pos (n / 256) hpower
    have hquotient := Int.emod_add_mul_ediv (n / 256) (256 ^ count)
    have hsplit : n / 256 ^ (count + 1) = n / 256 / 256 ^ count ∧
        n % 256 ^ (count + 1) = n % 256 + 256 * (n / 256 % 256 ^ count) :=
      (Int.ediv_emod_unique (by positivity)).mpr
        ⟨by rw [pow_succ']; linarith [Int.emod_add_mul_ediv n 256], by omega, by omega⟩
    rw [littleEndian, List.map_cons, Nat.ofDigits_cons, Nat.cast_add, Nat.cast_mul, ofDigits_littleEndian count,
      toNat_lowByte, hsplit.2]
    rfl

/-- The integer that bytes stand for in a type, the lowest of them first: a signed one in two's complement. -/
def Ty.read (type : Ty) (bytes : List UInt8) : Int :=
  let value : Nat := Nat.ofDigits 256 (bytes.map UInt8.toNat)
  match type with
  | .int _ true => (value : Int).bmod (256 ^ bytes.length)
  | _ => value

/-- The types of values: integers of up to four bytes, and addresses. -/
def Ty.IsStored : Ty → Prop
  | .int width _ => 0 < width ∧ width ≤ 4
  | .ref _ => True
  | _ => False

theorem Ty.IsStored.width_le {type : Ty} (h : type.IsStored) : type.width ≤ 4 := by
  cases type with
  | int _ _ => exact h.2
  | ref _ => exact Nat.le_add_left 2 2
  | function _ _ | void | phantom _ => cases h

theorem Ty.stored_of_ofBits? {signed : Bool} {bits : String} {type : Ty} (h : Ty.ofBits? signed bits = some type) :
    type.IsStored := by
  unfold Ty.ofBits? at h
  split at h <;> cases h <;> simp [Ty.IsStored]

/-- Types that are written are those of values, and the empty one. -/
theorem Ty.stored_of_denotes {ty : TypeExpr} {type : Ty} (hwritten : ty.Written) (h : ty.denotes = some type) :
    type = .void ∨ type.IsStored := by
  cases ty with
  | name name _ =>
    have h : Ty.ofName? name = some type := h
    unfold Ty.ofName? at h
    split at h
    · exact .inr (Ty.stored_of_ofBits? h)
    · exact .inr (Ty.stored_of_ofBits? h)
    · exact .inl (Option.some.inj (Option.ite_none_right_eq_some.mp h).2).symm
  | ref target _ =>
    obtain ⟨_, -, rfl⟩ := Option.map_eq_some_iff.mp h
    exact .inr trivial
  | info _ _ => exact hwritten.elim

theorem emod_eq_self_iff {n b : Int} (hb : 0 < b) : n % b = n ↔ 0 ≤ n ∧ n < b :=
  ⟨fun h => h ▸ ⟨Int.emod_nonneg n hb.ne', Int.emod_lt_of_pos n hb⟩, fun h => Int.emod_eq_of_lt h.1 h.2⟩

/-- **The lowest bytes of an integer** stand for it in a type exactly if it is in the range of the type. -/
theorem Ty.read_littleEndian {type : Ty} (h : type.IsStored) (value : Int) :
    type.read (littleEndian type.width value) = value ↔ type.Range value := by
  have hdigits := ofDigits_littleEndian type.width value
  have hpower : ∀ width : Nat, (256 : Int) ^ width = 2 ^ (8 * width) := fun width => by
    rw [pow_mul]
    norm_num
  cases type with
  | int width signed =>
    obtain ⟨hpositive, -⟩ := h
    cases signed with
    | true =>
      have hmodulus : (256 : Int) ^ width = ((256 ^ width : Nat) : Int) := by push_cast; rfl
      have hhalf : ((256 ^ width : Nat) : Int) = 2 * 2 ^ (8 * width - 1) := by
        rw [← hmodulus, hpower, ← pow_succ', Nat.sub_add_cancel (by omega)]
      rw [Ty.read, hdigits, Link.length_littleEndian, Ty.width, hmodulus, Int.emod_bmod,
        Int.bmod_eq_iff (by positivity), Ty.Range, sub_self, and_iff_left (dvd_zero _)]
      omega
    | false =>
      have hvalue : (Ty.int width false).read (littleEndian width value) = value % 256 ^ width := hdigits
      rw [Ty.width, hvalue, emod_eq_self_iff (by positivity), Ty.Range, hpower]
  | ref target =>
    have hvalue : (Ty.ref target).read (littleEndian 2 value) = value % 2 ^ 16 := hdigits
    rw [Ty.width, hvalue, emod_eq_self_iff (by positivity), Ty.Range]
  | function _ _ | void | phantom _ => cases h

/-! ## 6. Initial values -/

/-- **An expression that becomes a literal** has the value of it. -/
theorem Program.Expr.Written.value_of_number {e bound : Expr} {value : Int} {type : Option Ty} {span : Span}
    (hwritten : e.Written) (hfits : c.Fits env) (hrefines : (Simplify.simple .fresh e).Refines c bound)
    (hbound : bound.BoundBy env)
    (h : Relation.Comp (Substituted (c.constants.lookup ·)) (Steady.Rewritten ResolveStorage.place) bound
      (.number value type span)) : e.value? c.constant? = some value := by
  obtain ⟨substituted, hsubstituted, hplaced⟩ := h
  obtain rfl := ResolveStorage.eq_number hplaced
  obtain ⟨-, hrefines'⟩ := hsubstituted.sound hfits hbound
  rw [← Simplify.value?_simple .fresh hwritten]
  exact (hrefines.trans hrefines').means.value rfl

/-- The data of a variable of a written unit. -/
theorem Run.exists_data (r : Run unit p S) {d : Let} (hd : d ∈ p.lets) : ∃ (data : Data) (value : Int),
    .global (.data data) ∈ r.allocated.items.map (·.1) ∧ data.symbol = unit ++ "." ++ d.name ∧
      d.ty.denotes = some data.type ∧ d.value.value? (p.context unit).constant? = some value ∧
      data.bytes = initialBytes value data.type := by
  obtain ⟨named, hnamed, hwritten, hrefines⟩ := exists_of_mem_right r.bound_lets.flip hd
  obtain ⟨placed, hplaced, halike⟩ := exists_of_mem_right r.substituted.lets.flip hnamed
  obtain ⟨data, value, type, span, hdata, hvar, hvalue, hbytes⟩ := r.preparation.exists_data hplaced
  have hitem := Items.mem_lets.mp hnamed
  have hlabelled : named.symbol = some (unit ++ "." ++ named.name) := (r.names.labelled _ hitem).1
  obtain ⟨symbol, hsymbol, hvar⟩ := Option.bind_eq_some_iff.mp hvar
  obtain ⟨place, -, hvar⟩ := Option.bind_eq_some_iff.mp hvar
  obtain ⟨declared, htype, hvar⟩ := Option.map_eq_some_iff.mp hvar
  obtain ⟨rfl, -, rfl⟩ := Variable.mk.inj hvar
  refine ⟨data, value, hdata, ?_, ?_, ?_, hbytes⟩
  · rw [halike.same.symbol, hlabelled, hrefines.name] at hsymbol
    exact (Option.some.inj hsymbol).symm
  · rw [← TypeExpr.denotes_of_type? htype, halike.same.ty.denotes, hrefines.denotes]
    rfl
  · have hsubstituted := halike.value
    rw [hvalue] at hsubstituted
    exact hwritten.value.value_of_number r.unit_fits (hrefines.value _) (r.names.lexical _ hitem) hsubstituted

/-- **Variables of a unit hold their initial values.**  The archive of a text has a symbol for every variable
that the unit declares, of the type that is written and with as many bytes as the type has.  They are the lowest
bytes of the initial value, which is exact, with the constants of the unit in it.  They stand for it, in a type of
values, exactly if it is in the range of the type; a value out of the range is cut. -/
theorem Compiler.variables_initialized (text unit : String) (options : ScheduleOptions) :
    match compile text unit options with
    | .error _ => True
    | .ok archive => ∃ p : Program, p.Written ∧ Language.read text = .ok p.node ∧ ∀ d ∈ p.lets,
        ∃ (object : ObjectSymbol) (value : Int), (unit ++ "." ++ d.name, object) ∈ archive.symbols ∧
          d.ty.denotes = some object.type ∧ d.value.value? (p.context unit).constant? = some value ∧
          object.data = littleEndian object.type.width value ∧ (object.type = .void ∨ object.type.IsStored) ∧
          (object.type.IsStored → (object.type.read object.data = value ↔ object.type.Range value)) := by
  cases harchive : compile text unit options with
  | error e => trivial
  | ok archive =>
    obtain ⟨p, S, r, emission, hr, hobjects, -⟩ := compile_eq_ok harchive
    refine ⟨p, r.written, hr.read, fun d hd => ?_⟩
    obtain ⟨data, value, hdata, hsymbol, htype, hvalue, hbytes⟩ := r.exists_data hd
    obtain ⟨entry, hentry, hitem⟩ := emission.data_mem hdata
    have hwritten : d.Written := r.written.items _ (Items.mem_lets.mp hd)
    have hstored := Ty.stored_of_denotes hwritten.ty htype
    have hwidth : data.type.width ≤ 8 := by
      rcases hstored with hvoid | hstored
      · rw [hvoid]
        exact Nat.zero_le 8
      · exact hstored.width_le.trans (by decide)
    have hcut : data.bytes = littleEndian data.type.width value := by
      rw [hbytes, initialBytes, Nat.min_eq_left hwidth]
    refine ⟨⟨data.place, data.bytes, data.type, []⟩, value, ?_, htype, hvalue, hcut, hstored, fun hstored => ?_⟩
    · refine hobjects.mem_iff.mpr ⟨entry, hentry, ?_⟩
      rw [hitem, ← hsymbol]
      exact List.mem_singleton_self _
    · rw [show ObjectSymbol.data ⟨data.place, data.bytes, data.type, []⟩ = _ from hcut]
      exact Ty.read_littleEndian hstored value

/-- A byte that is initialized to 300 holds 44. -/
example : littleEndian 1 300 = [44] ∧ (Ty.int 1 false).read [44] ≠ 300 := by decide

end Lode
