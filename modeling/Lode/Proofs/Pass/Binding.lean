/-
# Bound programs

What binding names does to a program.  Entering the unit gives every item a symbol that no other has, and
binds its name; entering a function binds its parameters; leaving a declaration gives it a new symbol and
binds its name for what comes after it.

The result is that a program whose names are bound mentions only symbols that it declares (`bound`).  The
difficulty is that the walk does not know these symbols while it is under way: a function may be called
before the walk gets to it.  So the statements are about any table of symbols that has what the finished
program declares, and say that with respect to it the open frames stay linked (`Open`).  Three things are
followed along.

1. A fresh symbol is not in use.  The search tries more candidates than there are symbols in use, and no
   candidate twice, so it finds one (`freshSymbol_first`).
2. The symbols of the parameters and variables of one function differ: those of parameters because their
   names do, those of variables because they are fresh (`Locally`).  This composes along the statements of a
   body, whatever scopes they are in.
3. What is declared does not exceed the symbols that are taken (`Counted`), and no node is added when the
   unit is entered (`enterUnit_size`), so the budget of the walk is enough for the unit with its symbols as
   well.
-/
import Lode.Proofs.Pass.Names
import Mathlib.Algebra.GroupWithZero.Nat

namespace Lode.BindNames

open Program

/-! ## 1. Fresh symbols -/

/-- The symbols that are tried for a declaration, in order. -/
def candidate (base : String) (tried : Nat) : String := if tried = 0 then base else s!"{base}_{tried}"

theorem toString_injective {m n : Nat} (h : toString m = toString n) : m = n := by
  rw [Nat.toString_eq_ofList_toDigits, Nat.toString_eq_ofList_toDigits] at h
  have hdigits := String.ofList_injective h
  rw [← Nat.ofDigitChars_ten_toDigits (n := m), hdigits, Nat.ofDigitChars_ten_toDigits]

/-- No candidate is tried twice. -/
theorem candidate_injective (base : String) : Function.Injective (candidate base) := by
  have hne : ∀ n : Nat, base ≠ base ++ "_" ++ toString n := fun n h => by
    have hlength := congrArg String.length h
    simp only [String.length_append] at hlength
    have : ("_" : String).length = 1 := rfl
    omega
  intro m n h
  simp only [candidate] at h
  split at h <;> split at h
  · omega
  · exact absurd h (hne n)
  · exact absurd h.symm (hne m)
  · exact toString_injective ((String.append_right_inj (base ++ "_")).mp h)

theorem freshFrom_succ (used : List String) (base : String) (fuel tried : Nat) :
    freshFrom used base (fuel + 1) tried =
      if used.contains (candidate base tried) then freshFrom used base fuel (tried + 1)
      else candidate base tried := rfl

/-- The search finds the first candidate that is free, or all it tries are in use. -/
theorem freshFrom_cases (used : List String) (base : String) : ∀ fuel tried : Nat,
    (∃ n, n < tried + fuel ∧ freshFrom used base fuel tried = candidate base n ∧
      candidate base n ∉ used ∧ ∀ k, tried ≤ k → k < n → candidate base k ∈ used) ∨
      ∀ k, tried ≤ k → k < tried + fuel → candidate base k ∈ used
  | 0, tried => .inr fun k hle hlt => by omega
  | fuel + 1, tried => by
    rw [freshFrom_succ]
    split
    · rename_i hmem
      have hmem : candidate base tried ∈ used := by simpa using hmem
      rcases freshFrom_cases used base fuel (tried + 1) with ⟨n, hlt, heq, hfree, hused⟩ | hall
      · refine .inl ⟨n, by omega, heq, hfree, fun k hle hk => ?_⟩
        rcases Nat.eq_or_lt_of_le hle with rfl | hlt'
        · exact hmem
        · exact hused k hlt' hk
      · refine .inr fun k hle hlt => ?_
        rcases Nat.eq_or_lt_of_le hle with rfl | hlt'
        · exact hmem
        · exact hall k hlt' (by omega)
    · rename_i hmem
      exact .inl ⟨tried, by omega, rfl, by simpa using hmem, fun k hle hlt => by omega⟩

/-- **A fresh symbol is the first candidate that is free**: there are more candidates than used
symbols. -/
theorem freshSymbol_first (used : List String) (base : String) :
    ∃ n ≤ used.length, freshSymbol used base = candidate base n ∧ candidate base n ∉ used ∧
      ∀ k < n, candidate base k ∈ used := by
  rcases freshFrom_cases used base (used.length + 1) 0 with ⟨n, hlt, heq, hfree, hused⟩ | hall
  · exact ⟨n, by omega, heq, hfree, fun k hk => hused k (Nat.zero_le k) hk⟩
  · have hsubset : (List.range (used.length + 1)).map (candidate base) ⊆ used := by
      intro x hx
      obtain ⟨k, hk, rfl⟩ := List.mem_map.mp hx
      exact hall k (Nat.zero_le k) (by simpa using hk)
    have hnodup : ((List.range (used.length + 1)).map (candidate base)).Nodup :=
      List.nodup_range.map (candidate_injective base)
    have hlength := (List.subperm_of_subset hnodup hsubset).length_le
    simp only [List.length_map, List.length_range] at hlength
    omega

theorem freshSymbol_not_mem (used : List String) (base : String) : freshSymbol used base ∉ used := by
  obtain ⟨n, -, heq, hfree, -⟩ := freshSymbol_first used base
  rw [heq]
  exact hfree

/-! ## 2. Taking symbols and binding names -/

theorem takeFresh_ok {base symbol : String} {s s' : Nested Binder}
    (h : (takeFresh base).outcome s = (.ok symbol, s')) :
    symbol ∉ s.own.symbols ∧
      s' = { s with own := { s.own with symbols := symbol :: s.own.symbols } } := by
  obtain ⟨hsymbol, hs⟩ := Prod.mk.inj h
  obtain rfl := Except.ok.inj hsymbol
  exact ⟨freshSymbol_not_mem _ _, hs.symm⟩

/-- **Binding a name** needs an open frame that does not have it, and adds it there. -/
theorem bindName_ok {name : String} {b : Binding} {span : Span} {s s' : Nested Binder}
    (h : (bindName name b span).outcome s = (.ok (), s')) :
    ∃ frame outer, s.frames = frame :: outer ∧ Sorted.find? name frame.names = none ∧
      s' = { s with
        frames := { frame with names := Sorted.set name (.binding b) frame.names } :: outer } := by
  simp only [bindName, Walk.outcome_bind, Walk.outcome_get, Walk.andThen_ok] at h
  cases hframes : s.frames with
  | nil => simp [hframes, Frames.bind?] at h
  | cons frame outer =>
    simp only [hframes, Frames.bind?] at h
    cases hfind : Sorted.find? name frame.names with
    | some _ => simp [hfind] at h
    | none =>
      simp only [hfind, Option.isSome_none, Bool.false_eq_true, if_false, Walk.outcome_set,
        Prod.mk.injEq, true_and] at h
      exact ⟨frame, outer, rfl, hfind, h.symm⟩

/-- A type that is known is the one that was read. -/
theorem knownType_ok {tag : Tag} {ty : TypeExpr} {span : Span} {type : Ty}
    (h : knownType tag ty span = .ok type) : ty.type? = some type := by
  unfold knownType at h
  split at h
  · rename_i hty
    rw [hty, Except.ok.inj h]
  · cases h

/-- All open frames are linked. -/
def Open (S : Symbols) (s : Nested Binder) : Prop := ∀ frame ∈ s.frames, frame.Linked S

/-- Binding a name to something linked keeps the frames linked. -/
theorem Open.bindName {S : Symbols} {name : String} {b : Binding} {span : Span}
    {s s' : Nested Binder} (h : (bindName name b span).outcome s = (.ok (), s'))
    (hb : b.Linked S) (hs : Open S s) : Open S s' := by
  obtain ⟨frame, outer, hframes, _, rfl⟩ := bindName_ok h
  rw [Open, hframes, List.forall_mem_cons] at hs
  refine List.forall_mem_cons.mpr ⟨fun entry hentry b' hb' => ?_, hs.2⟩
  rcases Sorted.mem_set hentry with rfl | hentry
  · obtain rfl := Named.binding.inj hb'
    exact hb
  · exact hs.1 entry hentry b' hb'

/-- What binding a variable leaves. -/
theorem bindLet_ok {d d' : Let} {symbol : String} {kind : BindingKind} {place : Section}
    {s s' : Nested Binder} (h : (bindLet d symbol kind place).outcome s = (.ok d', s')) :
    ∃ type, d' = { d with symbol := some symbol, place := some place } ∧
      d'.toVariable? = some ⟨symbol, place, type⟩ ∧
      (bindName d.name ⟨⟨d.name, symbol, kind, type, d.storage.isSome, some place⟩, none, d.span⟩
        d.span).outcome s = (.ok (), s') := by
  obtain ⟨type, htype, hrest⟩ := Walk.outcome_lift_bind_eq_ok.mp h
  obtain ⟨⟨⟩, s2, hname, hleft⟩ := Walk.outcome_bind_eq_ok.mp hrest
  obtain ⟨rfl, rfl⟩ := Walk.outcome_pure_eq_ok.mp hleft
  exact ⟨type, rfl, by simp [Let.toVariable?, knownType_ok htype], hname⟩

/-! ## 3. The items of the unit -/

/-- A parameter with the symbol that it gets from its function. -/
def NamedParam (symbol : String) (p p' : Param) : Prop :=
  p' = { p with symbol := some (symbol ++ "." ++ p.name) } ∧ (p.ty.type?).isSome

/-- Parameters get symbols one by one. -/
theorem nameAll_ok {symbol : String} : ∀ {params : List Param} {entries : List (Param × Ty)},
    nameAll symbol params = .ok entries →
      List.Forall₂ (NamedParam symbol) params (entries.map (·.1))
  | [], entries, h => by
    obtain rfl := Except.ok.inj h
    exact .nil
  | p :: rest, entries, h => by
    obtain ⟨type, htype, h⟩ := bind_eq_ok.mp h
    obtain ⟨others, hothers, h⟩ := bind_eq_ok.mp h
    obtain rfl := Except.ok.inj h
    exact .cons ⟨rfl, by simp [knownType_ok htype]⟩ (nameAll_ok hothers)

/-- An item with its symbol. -/
inductive NamedItem : Program.Item → Program.Item → Prop
  | use {name : String} {span : Span} : NamedItem (.use name span) (.use name span)
  | constant {name : String} {ty : TypeExpr} {value : Expr} {old : Option String} {symbol : String}
      {span : Span} :
      NamedItem (.constant name ty value old span) (.constant name ty value (some symbol) span)
  | global {d : Let} {symbol : String} {place : Section} : d.ty.type?.isSome = true →
      NamedItem (.global (.decl d))
        (.global (.decl { d with symbol := some symbol, place := some place }))
  | function {f : Function} {symbol : String} {params : List Param} :
      List.Forall₂ (NamedParam symbol) (f.params.map Prod.fst) params →
      NamedItem (.function f)
        (.function { f with symbol := some symbol, params := Params.ofList params })

/-- The symbols that an item declares for the whole unit are among others. -/
def Declares (S : Symbols) : Program.Item → Prop
  | .constant _ _ _ symbol _ => symbol.toList ⊆ S.constants
  | .global (.decl d) => d.toVariable?.toList ⊆ S.vars
  | .function f => f.symbol.toList ⊆ S.functions ∧
      (f.params.map Prod.fst).filterMap Param.toVariable? ⊆ S.vars
  | _ => True

/-- The binding of a function is linked if its symbol and those of its parameters are known. -/
theorem functionBinding_linked {S : Symbols} {f : Function} {symbol : String} {params : List Param}
    {entries : List (Param × Ty)} (hentries : nameAll symbol params = .ok entries)
    (hsymbol : symbol ∈ S.functions) (hvars : (entries.map (·.1)).filterMap Param.toVariable? ⊆ S.vars) :
    (functionBinding f symbol entries).Linked S := by
  refine ⟨hsymbol, fun s hs => ?_⟩
  obtain ⟨entry, hentry, rfl⟩ := List.mem_map.mp hs
  have hnamed := nameAll_ok hentries
  obtain ⟨p, -, hp⟩ := exists_of_mem_right hnamed (List.mem_map_of_mem hentry)
  obtain ⟨type, htype⟩ := Option.isSome_iff_exists.mp hp.2
  refine ⟨type, hvars (List.mem_filterMap.mpr ⟨entry.1, List.mem_map_of_mem hentry, ?_⟩)⟩
  simp [hp.1, Param.toVariable?, htype]

/-- A symbol of the unit that is taken was not in use, and is from now on. -/
theorem takeUnitFresh_ok {name symbol : String} {s s' : Nested Binder}
    (h : (takeUnitFresh name).outcome s = (.ok symbol, s')) :
    symbol ∉ s.own.symbols ∧
      s' = { s with own := { s.own with symbols := symbol :: s.own.symbols } } := by
  rw [takeUnitFresh, Walk.outcome_bind, Walk.outcome_get, Walk.andThen_ok] at h
  exact takeFresh_ok h

/-- **Binding an item.** -/
theorem bindItemName_ok {i i' : Program.Item} {s s' : Nested Binder} (hsource : i.isSource = true)
    (h : (bindItemName i).outcome s = (.ok i', s')) :
    NamedItem i i' ∧ s'.own.functions = s.own.functions ∧
      ∀ S, Declares S i' → Open S s → Open S s' := by
  cases i with
  | use name span =>
    obtain ⟨rfl, rfl⟩ := Walk.outcome_pure_eq_ok.mp h
    exact ⟨.use, rfl, fun _ _ hs => hs⟩
  | constant name ty value old span =>
    obtain ⟨symbol, s1, hsymbol, h⟩ := Walk.outcome_bind_eq_ok.mp h
    obtain ⟨-, rfl⟩ := takeUnitFresh_ok hsymbol
    obtain ⟨type, htype, h⟩ := Walk.outcome_lift_bind_eq_ok.mp h
    obtain ⟨⟨⟩, s2, hname, h⟩ := Walk.outcome_bind_eq_ok.mp h
    obtain ⟨rfl, rfl⟩ := Walk.outcome_pure_eq_ok.mp h
    refine ⟨.constant, ?_, fun S hS hs => Open.bindName hname ?_ hs⟩
    · obtain ⟨_, _, _, _, rfl⟩ := bindName_ok hname
      rfl
    · exact hS List.mem_cons_self
  | global st =>
    cases st with
    | decl d =>
      obtain ⟨symbol, s1, hsymbol, h⟩ := Walk.outcome_bind_eq_ok.mp h
      obtain ⟨-, rfl⟩ := takeUnitFresh_ok hsymbol
      obtain ⟨d', s2, hd, h⟩ := Walk.outcome_bind_eq_ok.mp h
      obtain ⟨rfl, rfl⟩ := Walk.outcome_pure_eq_ok.mp h
      obtain ⟨type, rfl, hvar, hname⟩ := bindLet_ok hd
      have htype : d.ty.type?.isSome = true := by
        obtain ⟨_, -, hvar⟩ := Option.bind_eq_some_iff.mp hvar
        obtain ⟨_, -, hvar⟩ := Option.bind_eq_some_iff.mp hvar
        obtain ⟨_, htype, -⟩ := Option.map_eq_some_iff.mp hvar
        exact Option.isSome_iff_exists.mpr ⟨_, htype⟩
      refine ⟨.global htype, ?_, fun S hS hs => Open.bindName hname ?_ hs⟩
      · obtain ⟨_, _, _, _, rfl⟩ := bindName_ok hname
        rfl
      · exact ⟨_, rfl, hS (by rw [hvar]; exact List.mem_cons_self)⟩
    | _ => simp [Item.isSource] at hsource
  | function f =>
    rw [bindItemName, Walk.outcome_map, Prod.mk.injEq] at h
    obtain ⟨f', hf', rfl⟩ := map_eq_ok.mp h.1
    replace h : (bindFunctionName f).outcome s = (.ok f', s') := Prod.ext hf' h.2
    obtain ⟨symbol, s1, hsymbol, h⟩ := Walk.outcome_bind_eq_ok.mp h
    obtain ⟨-, rfl⟩ := takeUnitFresh_ok hsymbol
    obtain ⟨entries, hentries, h⟩ := Walk.outcome_lift_bind_eq_ok.mp h
    obtain ⟨⟨⟩, s2, hname, h⟩ := Walk.outcome_bind_eq_ok.mp h
    obtain ⟨rfl, rfl⟩ := Walk.outcome_pure_eq_ok.mp h
    refine ⟨.function (nameAll_ok hentries), ?_, fun S hS hs => Open.bindName hname ?_ hs⟩
    · obtain ⟨_, _, _, _, rfl⟩ := bindName_ok hname
      rfl
    · obtain ⟨hfun, hvars⟩ := hS
      rw [Params.map_fst_ofList] at hvars
      exact functionBinding_linked hentries (hfun List.mem_cons_self) hvars
  | compiled _ _ _ _ _ => simp [Item.isSource] at hsource

/-- **Binding the items of a unit.** -/
theorem bindItems_ok : ∀ {items items' : List Program.Item} {s s' : Nested Binder},
    (∀ i ∈ items, i.isSource = true) → (bindItems items).outcome s = (.ok items', s') →
      List.Forall₂ NamedItem items items' ∧ s'.own.functions = s.own.functions ∧
        ∀ S, (∀ i ∈ items', Declares S i) → Open S s → Open S s'
  | [], items', s, s', _, h => by
    obtain ⟨rfl, rfl⟩ := Walk.outcome_pure_eq_ok.mp h
    exact ⟨.nil, rfl, fun _ _ hs => hs⟩
  | i :: rest, items', s, s', hsource, h => by
    obtain ⟨hi, hrest⟩ := List.forall_mem_cons.mp hsource
    obtain ⟨i', s1, hi', h⟩ := Walk.outcome_bind_eq_ok.mp h
    obtain ⟨rest', s2, hrest', h⟩ := Walk.outcome_bind_eq_ok.mp h
    obtain ⟨rfl, rfl⟩ := Walk.outcome_pure_eq_ok.mp h
    obtain ⟨hnamed, hfunctions, hopen⟩ := bindItemName_ok hi hi'
    obtain ⟨hnamed', hfunctions', hopen'⟩ := bindItems_ok hrest hrest'
    refine ⟨.cons hnamed hnamed', hfunctions'.trans hfunctions, fun S hS hs => ?_⟩
    obtain ⟨hSi, hSrest⟩ := List.forall_mem_cons.mp hS
    exact hopen' S hSrest (hopen S hSi hs)

/-- **Entering the unit** binds its items. -/
theorem enterUnit_ok {p p' : Program} (hsource : p.IsSource) {s s' : Nested Binder}
    (h : (visitor.enterUnit p).outcome s = (.ok p', s')) :
    List.Forall₂ NamedItem (p.items.map (·.1)) (p'.items.map (·.1)) ∧ p'.frame = p.frame ∧
      p'.span = p.span ∧ s'.own.functions = s.own.functions ∧
      ∀ S, (∀ entry ∈ p'.items, Declares S entry.1) → p.frame.Linked S → Open S s → Open S s' := by
  obtain ⟨⟨⟩, s1, hopen, h⟩ := Walk.outcome_bind_eq_ok.mp h
  obtain ⟨-, rfl⟩ := Prod.mk.inj hopen
  have hpushed : ∀ S, p.frame.Linked S → Open S s → Open S (s.pushed p.frame) := fun S hframe hs =>
    List.forall_mem_cons.mpr ⟨hframe, hs⟩
  simp only [inner] at h
  split at h
  · rename_i hempty
    obtain ⟨rfl, rfl⟩ := Walk.outcome_pure_eq_ok.mp h
    rw [List.isEmpty_iff.mp hempty]
    exact ⟨.nil, rfl, rfl, rfl, fun S _ => hpushed S⟩
  · rename_i hnil
    obtain ⟨items, s2, hitems, h⟩ := Walk.outcome_bind_eq_ok.mp h
    obtain ⟨hp', rfl⟩ := Walk.outcome_pure_eq_ok.mp h
    have hmem : ∀ i ∈ p.items.map (·.1), i.isSource = true := by
      intro i hi
      obtain ⟨entry, hentry, rfl⟩ := List.mem_map.mp hi
      exact hsource entry hentry
    obtain ⟨hnamed, hfunctions, hopen⟩ := bindItems_ok hmem hitems
    have hp' : p' = { p with items := Items.ofList items } := by
      split at hp'
      · rename_i hempty
        rw [List.isEmpty_iff.mp hempty, List.forall₂_nil_right_iff, List.map_eq_nil_iff] at hnamed
        simp [hnamed] at hnil
      · exact hp'.symm
    obtain rfl := hp'
    refine ⟨by rwa [Items.map_fst_ofList], rfl, rfl, hfunctions, fun S hS hframe hs =>
      hopen S (fun i hi => ?_) (hpushed S hframe hs)⟩
    rw [← Items.map_fst_ofList items] at hi
    obtain ⟨entry, hentry, rfl⟩ := List.mem_map.mp hi
    exact hS entry hentry

/-! ## 4. The size of the unit -/

theorem nodeCount_eq : ∀ fields : Fields, fields.nodeCount = (fields.nodes.map fun c => c.2.size).sum
  | .nil => rfl
  | .cons _ v rest => by
    have ih := nodeCount_eq rest
    cases v <;> simp [Fields.nodeCount, Fields.nodes, ih]

/-- The size of parameters. -/
theorem size_params : ∀ params : Params, (Params.node? params).elim 0 Node.size =
    ((params.map Prod.fst).map fun p => p.node.size + 1).sum
  | [] => rfl
  | entry :: rest => by
    have ih := size_params rest
    simp only [Params.node?, Option.elim_some, Node.size, List.map_cons, List.sum_cons, ← ih]
    cases Params.node? rest with
    | none => simp [Fields.optional, Fields.nodeCount]
    | some n =>
      simp only [Fields.optional, Option.map_some, Fields.nodeCount, Option.elim_some]
      omega

theorem size_items : ∀ items : Items, (Items.node? items).elim 0 Node.size =
    ((items.map (·.1)).map fun i => i.node.size + 1).sum
  | [] => rfl
  | entry :: rest => by
    have ih := size_items rest
    simp only [Items.node?, Option.elim_some, Node.size, Fields.nodeCount, List.map_cons, List.sum_cons,
      ← ih]
    cases Items.node? rest with
    | none => simp [Fields.optional, Fields.nodeCount]
    | some n =>
      simp only [Fields.optional, Option.map_some, Fields.nodeCount, Option.elim_some]
      omega

theorem size_sum {α : Type} {R : α → α → Prop} (size : α → Nat)
    (hR : ∀ a a' : α, R a a' → size a' = size a) {as as' : List α} (h : List.Forall₂ R as as') :
    (as'.map size).sum = (as.map size).sum := by
  induction h with
  | nil => rfl
  | cons ha _ ih => rw [List.map_cons, List.map_cons, List.sum_cons, List.sum_cons, hR _ _ ha, ih]

theorem NamedParam.size {symbol : String} {p p' : Param} (h : NamedParam symbol p p') :
    p'.node.size = p.node.size := by
  obtain ⟨name, ty, old, span⟩ := p
  rw [h.1]
  cases old <;> rfl

theorem size_function (f : Function) : f.node.size = f.body.node?.elim 0 Node.size +
    (Params.node? f.params).elim 0 Node.size + (f.result.map TypeExpr.node).elim 0 Node.size + 1 := by
  change f.node.fields.nodeCount + 1 = _
  rw [nodeCount_eq, Function.nodes_node]
  cases f.body.node? <;> cases Params.node? f.params <;> cases f.result <;>
    simp [Nat.add_assoc]

theorem size_program (p : Program) : p.node.size = (Items.node? p.items).elim 0 Node.size + 1 := by
  change p.node.fields.nodeCount + 1 = _
  simp only [nodeCount_eq, Program.node, Node.fields]
  rw [Fields.nodes_optional_node, Fields.nodes_optional_plain (plain_tableValue _),
    Fields.nodes_optional_plain (plain_tableValue _)]
  cases Items.node? p.items <;> simp [Fields.nodes]

theorem NamedItem.size {i i' : Program.Item} (h : NamedItem i i') : i'.node.size = i.node.size := by
  cases h with
  | use => rfl
  | @constant name ty value old symbol span => cases old <;> rfl
  | @global d symbol place _ =>
    obtain ⟨name, storage, ty, value, old, section_, type, span⟩ := d
    cases storage <;> cases old <;> cases section_ <;> cases type <;> rfl
  | @function f symbol params hparams =>
    have hsum := size_sum (fun p : Param => p.node.size + 1)
      (fun _ _ hp => by rw [hp.size]) hparams
    change (Function.node _).size = f.node.size
    rw [size_function, size_function, size_params, size_params, Params.map_fst_ofList, hsum]

/-- Binding the items of a unit adds no nodes. -/
theorem enterUnit_size {p p' : Program} (hsource : p.IsSource) {s s' : Nested Binder}
    (h : (visitor.enterUnit p).outcome s = (.ok p', s')) : p'.node.size = p.node.size := by
  have hsum := size_sum (fun i : Program.Item => i.node.size + 1)
    (fun _ _ hi => by rw [hi.size]) (enterUnit_ok hsource h).1
  rw [size_program, size_program, size_items, size_items, hsum]

/-- **The pass is the visitor.** -/
theorem runPass (unit : String) {p : Program} (hsource : p.IsSource) :
    Compiler.runPass unit p.node pass =
      Program.node <$> ((p.mapUp visitor).outcome ⟨[], unit, [], []⟩).1 :=
  runPass_of_visits (fun _ => rfl) visits p fun _ _ _ h => (enterUnit_size hsource h).le

/-! ## 5. Expressions and statements -/

theorem Binding.not_linked_empty (b : Binding) : ¬ b.Linked {} := by
  unfold Binding.Linked
  cases b.declaration.kind <;> simp

/-- What is found in linked frames is linked. -/
theorem Open.lookup? {S : Symbols} {s : Nested Binder} (hs : Open S s) {name : String} {b : Binding}
    (h : (s.frames.lookup? name).bind Named.binding? = some b) : b.Linked S := by
  obtain ⟨named, hnamed, hb⟩ := Option.bind_eq_some_iff.mp h
  obtain ⟨frame, hframe, hfind⟩ := List.exists_of_findSome?_eq_some hnamed
  cases named with
  | unit u => cases hb
  | binding b' =>
    obtain rfl := Option.some.inj hb
    exact hs frame hframe _ (Sorted.mem_of_find? hfind) _ rfl

/-- **Identifiers** get linked bindings. -/
theorem expr_ok {e e' : Expr} {s s' : Nested Binder} (h : (visitor.expr e).outcome s = (.ok e', s')) :
    s' = s ∧ ∀ S, e.Linked {} → Open S s → e'.Linked S := by
  change (e.mapUp fun e => Walk.reading (bindExpr · e)).outcome s = _ at h
  rw [Expr.outcome_mapUp, Prod.mk.injEq] at h
  refine ⟨h.2.symm, fun S hlinked hs => ?_⟩
  refine @Expr.mapUp_rel (fun e e' => e.Linked {} → e'.Linked S) _ (fun {e e1 e2} halike hstep => ?_)
    _ _ h.1 hlinked
  cases e1 with
  | ident name binding type span =>
    cases halike with
    | leaf _ =>
      intro hbefore
      obtain rfl : binding = none := by
        cases binding with
        | none => rfl
        | some b => exact absurd (hbefore.1 b rfl) (Binding.not_linked_empty b)
      obtain rfl := Except.ok.inj hstep
      refine ⟨fun b hb => hs.lookup? (by simpa using hb), fun t ht => ?_⟩
      obtain ⟨_, hb, _⟩ := hbefore.2 t ht
      cases hb
  | _ =>
    obtain rfl := Except.ok.inj hstep
    exact Expr.Alike.linked (.empty S) halike

/-- What declarations do to the state: their symbols are new, and different from each other. -/
structure Locally (lets : List Let) (s s' : Nested Binder) : Prop where
  functions : s'.own.functions = s.own.functions
  used : s.own.symbols ⊆ s'.own.symbols
  fresh : ∀ symbol ∈ lets.filterMap Let.symbol, symbol ∉ s.own.symbols ∧ symbol ∈ s'.own.symbols
  nodup : (lets.filterMap Let.symbol).Nodup
  known : ∀ d ∈ lets, ∃ v, d.toVariable? = some v

namespace Locally

theorem refl (s : Nested Binder) : Locally [] s s :=
  ⟨rfl, List.Subset.refl _, by simp, List.nodup_nil, by simp⟩

/-- **The symbols of declarations add up**: those of later ones are new with respect to the earlier ones. -/
theorem append {lets lets' : List Let} {s s' s'' : Nested Binder} (h : Locally lets s s')
    (h' : Locally lets' s' s'') : Locally (lets ++ lets') s s'' where
  functions := h'.functions.trans h.functions
  used := List.Subset.trans h.used h'.used
  fresh symbol hsymbol := by
    rw [List.filterMap_append, List.mem_append] at hsymbol
    rcases hsymbol with hsymbol | hsymbol
    · exact ⟨(h.fresh symbol hsymbol).1, h'.used (h.fresh symbol hsymbol).2⟩
    · exact ⟨fun hused => (h'.fresh symbol hsymbol).1 (h.used hused), (h'.fresh symbol hsymbol).2⟩
  nodup := by
    rw [List.filterMap_append]
    refine List.nodup_append.mpr ⟨h.nodup, h'.nodup, fun a ha b hb hab => ?_⟩
    exact (h'.fresh b hb).1 (hab ▸ (h.fresh a ha).2)
  known := List.forall_mem_append.mpr ⟨h.known, h'.known⟩

/-- Frames make no difference. -/
theorem frames {lets : List Let} {s s' : Nested Binder} (h : Locally lets s s') (frames frames' : Frames) :
    Locally lets { s with frames := frames } { s' with frames := frames' } :=
  ⟨h.functions, h.used, h.fresh, h.nodup, h.known⟩

end Locally

/-- **Declarations** get new symbols. -/
theorem bindLocal_ok {d d' : Let} {s s' : Nested Binder} (hinside : s.own.functions ≠ [])
    (h : (bindLocal d).outcome s = (.ok d', s')) : d'.value = d.value ∧ d'.ty = d.ty ∧
      d'.type = d.type ∧ Locally [d'] s s' ∧ ∀ S, d'.toVariable?.toList ⊆ S.vars → Open S s → Open S s' := by
  rw [bindLocal, Walk.outcome_bind, Walk.outcome_get, Walk.andThen_ok] at h
  cases hfunctions : s.own.functions with
  | nil => exact absurd hfunctions hinside
  | cons function outer =>
    rw [hfunctions] at h
    obtain ⟨symbol, s1, hsymbol, h⟩ := Walk.outcome_bind_eq_ok.mp h
    obtain ⟨hfresh, rfl⟩ := takeFresh_ok hsymbol
    obtain ⟨type, rfl, hvar, hname⟩ := bindLet_ok h
    refine ⟨rfl, rfl, rfl, ?_, fun S hS hs => Open.bindName hname ?_ hs⟩
    · obtain ⟨_, _, _, _, rfl⟩ := bindName_ok hname
      exact ⟨rfl, List.subset_cons_self _ _, by simpa using hfresh, List.nodup_singleton _,
        by simpa using ⟨_, hvar⟩⟩
    · exact ⟨_, rfl, hS (by rw [hvar]; exact List.mem_cons_self)⟩

/-- A declaration that is left gets a new symbol, and its name is bound for what follows. -/
theorem mapUp_let {d : Let} {st : Stmt} {s s' : Nested Binder} (hinside : s.own.functions ≠ [])
    (h : (d.mapUp visitor).outcome s = (.ok st, s')) : ∃ d', st = .decl d' ∧ Locally [d'] s s' ∧
      ∀ S, (Stmt.decl d).Linked {} → d'.toVariable?.toList ⊆ S.vars → Open S s →
        (Stmt.decl d').Linked S ∧ Open S s' := by
  rw [Let.mapUp, show visitor.type = pure from rfl, TypeExpr.mapUp_pure, pure_bind] at h
  obtain ⟨value, s1, hvalue, hleft⟩ := Walk.outcome_bind_eq_ok.mp h
  obtain ⟨rfl, hlinked⟩ := expr_ok hvalue
  rw [show visitor.decl = fun d => .decl <$> bindLocal d from rfl, Walk.outcome_map,
    Prod.mk.injEq] at hleft
  obtain ⟨d', hd', rfl⟩ := map_eq_ok.mp hleft.1
  obtain ⟨hv, hty, htype, hlocally, hopen⟩ := bindLocal_ok hinside (Prod.ext hd' hleft.2)
  refine ⟨d', rfl, hlocally, fun S hd hvars hs =>
    ⟨⟨hv ▸ hlinked S hd.1 hs, fun ht => ?_⟩, hopen S hvars hs⟩⟩
  rw [htype] at ht
  rw [hty]
  exact hd.2 ht

mutual

/-- A statement, with all declarations inside of it. The induction is on the statement and the list
together. -/
theorem mapUp_stmt : ∀ {st st' : Stmt} {s s' : Nested Binder}, s.own.functions ≠ [] →
    st.isSource = true → (st.mapUp visitor).outcome s = (.ok st', s') →
      st'.isSource = true ∧ Locally st'.lets s s' ∧
        ∀ S, st.Linked {} → (∀ frame ∈ st.frames, frame.Linked {}) →
          st'.lets.filterMap Let.toVariable? ⊆ S.vars → Open S s → st'.Linked S ∧ Open S s'
  | .decl d, st', s, s', hinside, _, h => by
    obtain ⟨d', rfl, hlocally, hlinked⟩ := mapUp_let hinside h
    refine ⟨rfl, hlocally, fun S hd _ hvars hs => hlinked S hd (fun v hv => hvars ?_) hs⟩
    rw [Stmt.lets, List.mem_filterMap]
    exact ⟨d', List.mem_cons_self, Option.mem_toList.mp hv⟩
  | .set lvalue rvalue type span, st', s, s', _, _, h => by
    obtain ⟨lvalue', s1, hl, hrest⟩ := Walk.outcome_bind_eq_ok.mp h
    obtain ⟨rfl, hlinkedl⟩ := expr_ok hl
    obtain ⟨rvalue', s2, hr, hleft⟩ := Walk.outcome_bind_eq_ok.mp hrest
    obtain ⟨rfl, hlinkedr⟩ := expr_ok hr
    obtain ⟨rfl, rfl⟩ := Walk.outcome_pure_eq_ok.mp hleft
    exact ⟨rfl, .refl _, fun S hst _ _ hs => ⟨⟨hlinkedl S hst.1 hs, hlinkedr S hst.2 hs⟩, hs⟩⟩
  | .ret none type span, st', s, s', _, _, h => by
    obtain ⟨rfl, rfl⟩ := Walk.outcome_pure_eq_ok.mp h
    exact ⟨rfl, .refl _, fun S _ _ _ hs => ⟨fun _ he => (by cases he), hs⟩⟩
  | .ret (some value) type span, st', s, s', _, _, h => by
    obtain ⟨value', s1, hv, hleft⟩ := Walk.outcome_bind_eq_ok.mp h
    obtain ⟨rfl, hlinked⟩ := expr_ok hv
    obtain ⟨rfl, rfl⟩ := Walk.outcome_pure_eq_ok.mp hleft
    refine ⟨rfl, .refl _, fun S hst _ _ hs => ⟨fun e he => ?_, hs⟩⟩
    obtain rfl := Option.some.inj he
    exact hlinked S (hst value rfl) hs
  | .expr e, st', s, s', _, _, h => by
    rw [Stmt.mapUp, Walk.outcome_map, Prod.mk.injEq] at h
    obtain ⟨e', he, rfl⟩ := map_eq_ok.mp h.1
    obtain ⟨rfl, hlinked⟩ := expr_ok (Prod.ext he h.2 : (visitor.expr e).outcome s = (.ok e', s'))
    exact ⟨rfl, .refl _, fun S hst _ _ hs => ⟨hlinked S hst hs, hs⟩⟩
  | .scope d body frame span, st', s, s', hinside, hsource, h => by
    obtain ⟨hsd, hsb⟩ := Bool.and_eq_true_iff.mp hsource
    have henter : (visitor.enterScope d body frame span).outcome s = (.ok (), s.pushed frame) := rfl
    rw [Stmt.mapUp, Walk.outcome_bind_of_ok henter] at h
    obtain ⟨d', s1, hd, h⟩ := Walk.outcome_bind_eq_ok.mp h
    obtain ⟨-, hlocally, hlinked⟩ :=
      mapUp_stmt (s := s.pushed frame) hinside (Stmt.isSource_of_isDecl hsd) hd
    have hsd' : d'.isDecl = true := by
      cases d with
      | decl d =>
        obtain ⟨d1, rfl, -⟩ := mapUp_let (s := s.pushed frame) hinside hd
        rfl
      | _ => cases hsd
    obtain ⟨body', s2, hbody, h⟩ := Walk.outcome_bind_eq_ok.mp h
    obtain ⟨hsb', hlocally', hlinked'⟩ :=
      mapUp_stmts (by rw [hlocally.functions]; exact hinside) hsb hbody
    obtain ⟨new, s3, hclose, h⟩ := Walk.outcome_bind_eq_ok.mp h
    obtain ⟨rfl, rfl⟩ := Walk.outcome_pure_eq_ok.mp h
    -- closing the scope takes its frame away, and nothing else
    have hs3 : s3 = { s2 with frames := s2.frames.tail } := by
      obtain ⟨frames, own⟩ := s2
      cases frames <;> exact (Prod.mk.inj hclose).2.symm
    subst hs3
    refine ⟨Bool.and_eq_true_iff.mpr ⟨hsd', hsb'⟩, (hlocally.append hlocally').frames s.frames _,
      fun S hst hframes hvars hs => ?_⟩
    simp only [Stmt.frames, List.forall_mem_cons, List.forall_mem_append] at hframes
    rw [Stmt.lets, List.filterMap_append, List.append_subset] at hvars
    obtain ⟨hdlinked, hs1⟩ := hlinked S hst.1 hframes.2.1 hvars.1
      (List.forall_mem_cons.mpr ⟨hframes.1.mono (.empty S), hs⟩)
    obtain ⟨hblinked, hs2⟩ := hlinked' S hst.2 hframes.2.2 hvars.2 hs1
    exact ⟨⟨hdlinked, hblinked⟩, fun fr hfr => hs2 fr (List.mem_of_mem_tail hfr)⟩
  | .data _, _, _, _, _, hsource, _ | .load _ _ _, _, _, _, _, hsource, _
  | .store _ _ _, _, _, _, _, hsource, _ | .arith _ _ _ _, _, _, _, _, hsource, _
  | .jump _ _, _, _, _, _, hsource, _ | .rts _, _, _, _, _, hsource, _
  | .code _ _, _, _, _, _, hsource, _ => by simp [Stmt.isSource] at hsource

/-- **Statements** mention what is in scope. -/
theorem mapUp_stmts : ∀ {stmts stmts' : Stmts} {s s' : Nested Binder}, s.own.functions ≠ [] →
    stmts.isSource = true → (stmts.mapUp visitor).outcome s = (.ok stmts', s') →
      stmts'.isSource = true ∧ Locally stmts'.lets s s' ∧
        ∀ S, stmts.Linked {} → (∀ frame ∈ stmts.frames, frame.Linked {}) →
          stmts'.lets.filterMap Let.toVariable? ⊆ S.vars → Open S s → stmts'.Linked S ∧ Open S s'
  | .nil, stmts', s, s', _, _, h => by
    obtain ⟨rfl, rfl⟩ := Walk.outcome_pure_eq_ok.mp h
    exact ⟨rfl, .refl _, fun S _ _ _ hs => ⟨trivial, hs⟩⟩
  | .cons stmt rest span, stmts', s, s', hinside, hsource, h => by
    obtain ⟨hss, hsr⟩ := Bool.and_eq_true_iff.mp hsource
    obtain ⟨stmt', s1, hstmt, h⟩ := Walk.outcome_bind_eq_ok.mp h
    obtain ⟨hss', hlocally, hlinked⟩ := mapUp_stmt hinside hss hstmt
    obtain ⟨rest', s2, hrest, h⟩ := Walk.outcome_bind_eq_ok.mp h
    obtain ⟨hsr', hlocally', hlinked'⟩ :=
      mapUp_stmts (by rw [hlocally.functions]; exact hinside) hsr hrest
    obtain ⟨rfl, rfl⟩ := Walk.outcome_pure_eq_ok.mp h
    refine ⟨Bool.and_eq_true_iff.mpr ⟨hss', hsr'⟩, hlocally.append hlocally',
      fun S hst hframes hvars hs => ?_⟩
    simp only [Stmts.frames, List.forall_mem_append] at hframes
    rw [Stmts.lets, List.filterMap_append, List.append_subset] at hvars
    obtain ⟨hslinked, hs1⟩ := hlinked S hst.1 hframes.1 hvars.1 hs
    obtain ⟨hrlinked, hs2⟩ := hlinked' S hst.2 hframes.2 hvars.2 hs1
    exact ⟨⟨hslinked, hrlinked⟩, hs2⟩

end

/-! ## 6. Functions and items -/

/-- A parameter that is bound has a name that the frame of its function did not have. -/
theorem bindParamName_ok {p : Param} {s s' : Nested Binder}
    (h : (bindParamName p).outcome s = (.ok (), s')) :
    ∃ frame outer b, s.frames = frame :: outer ∧ Sorted.find? p.name frame.names = none ∧
      s'.frames = { frame with names := Sorted.set p.name (.binding b) frame.names } :: outer ∧
      s'.own.functions = s.own.functions ∧
      s'.own.symbols = p.symbol.toList ++ s.own.symbols ∧
      ∀ S, p.toVariable?.toList ⊆ S.vars → Open S s → Open S s' := by
  unfold bindParamName at h
  cases hsymbol : p.symbol with
  | none => simp [hsymbol] at h
  | some symbol =>
    rw [hsymbol] at h
    obtain ⟨type, htype, h⟩ := Walk.outcome_lift_bind_eq_ok.mp h
    obtain ⟨⟨⟩, s1, hname, h⟩ := Walk.outcome_bind_eq_ok.mp h
    obtain ⟨-, rfl⟩ := Prod.mk.inj h
    have hopen : ∀ S, p.toVariable?.toList ⊆ S.vars → Open S s → Open S s1 := fun S hS hs =>
      Open.bindName hname ⟨_, rfl, hS (by simp [Param.toVariable?, hsymbol, knownType_ok htype])⟩ hs
    obtain ⟨frame, outer, hframes, hfind, rfl⟩ := bindName_ok hname
    exact ⟨frame, outer, _, hframes, hfind, rfl, rfl, rfl, hopen⟩

theorem filterMap_cons_toList {α β : Type} (f : α → Option β) (a : α) (as : List α) :
    (a :: as).filterMap f = (f a).toList ++ as.filterMap f := by
  cases h : f a <;> simp [h]

/-- **Parameters** have different names. -/
theorem bindParams_ok : ∀ {params : List Param} {s s' : Nested Binder},
    (bindParams params).outcome s = (.ok (), s') →
      s'.own.functions = s.own.functions ∧
      params.filterMap Param.symbol ++ s.own.symbols ⊆ s'.own.symbols ∧
      (params.map Param.name).Nodup ∧
      (∀ frame ∈ s.frames.head?, ∀ p ∈ params, p.name ∉ frame.names.map Prod.fst) ∧
      ∀ S, params.filterMap Param.toVariable? ⊆ S.vars → Open S s → Open S s'
  | [], s, s', h => by
    obtain ⟨-, rfl⟩ := Walk.outcome_pure_eq_ok.mp h
    exact ⟨rfl, List.Subset.refl _, List.nodup_nil, by simp, fun _ _ hs => hs⟩
  | p :: rest, s, s', h => by
    obtain ⟨⟨⟩, s1, hp, hrest⟩ := Walk.outcome_bind_eq_ok.mp h
    obtain ⟨frame, outer, b, hframes, hfind, hframes1, hfunctions, hsymbols, hopen⟩ :=
      bindParamName_ok hp
    obtain ⟨hfunctions', hused, hnodup, hunbound, hopen'⟩ := bindParams_ok hrest
    have hrestNames : ∀ q ∈ rest, q.name ≠ p.name ∧ q.name ∉ frame.names.map Prod.fst := by
      intro q hq
      have hnew := hunbound _ (by rw [hframes1]; rfl) q hq
      rwa [Sorted.set, Sorted.mem_keys_alter, not_or] at hnew
    refine ⟨hfunctions'.trans hfunctions, ?_, ?_, ?_, fun S hS hs => ?_⟩
    · rw [hsymbols] at hused
      refine List.Subset.trans (fun x hx => ?_) hused
      rw [filterMap_cons_toList] at hx
      simp only [List.mem_append] at hx ⊢
      tauto
    · exact List.nodup_cons.mpr ⟨fun hmem => by
        obtain ⟨q, hq, heq⟩ := List.mem_map.mp hmem
        exact (hrestNames q hq).1 heq, hnodup⟩
    · rw [hframes]
      rintro _ ⟨⟩
      exact List.forall_mem_cons.mpr
        ⟨Sorted.find?_eq_none_iff.mp hfind, fun q hq => (hrestNames q hq).2⟩
    · rw [filterMap_cons_toList, List.append_subset] at hS
      exact hopen' S hS.2 (hopen S hS.1 hs)

/-- The parameters of a function have the symbols that its symbol gives them. -/
def ParamsNamed : Program.Item → Prop
  | .function f => ∃ symbol, f.symbol = some symbol ∧
      ∀ p ∈ f.params.map Prod.fst, p.symbol = some (symbol ++ "." ++ p.name)
  | _ => True

/-- The parameters of a named item have symbols after its own. -/
theorem NamedItem.paramsNamed {i i' : Program.Item} (h : NamedItem i i') : ParamsNamed i' := by
  cases h with
  | @function f symbol params hparams =>
    refine ⟨symbol, rfl, fun p hp => ?_⟩
    rw [Params.map_fst_ofList] at hp
    obtain ⟨q, -, hq⟩ := exists_of_mem_right hparams hp
    rw [hq.1]
  | _ => trivial

/-- The symbols of parameters are made of their names. -/
theorem filterMap_symbol {symbol : String} : ∀ {params : List Param},
    (∀ p ∈ params, p.symbol = some (symbol ++ "." ++ p.name)) →
      params.filterMap Param.symbol = (params.map Param.name).map (symbol ++ "." ++ ·)
  | [], _ => rfl
  | p :: rest, h => by
    obtain ⟨hp, hrest⟩ := List.forall_mem_cons.mp h
    rw [filterMap_cons_toList, hp, filterMap_symbol hrest]
    rfl

/-- The symbols that an item declares are among others. -/
structure Within (S : Symbols) (i : Program.Item) : Prop where
  functions : i.functions ⊆ S.functions
  constants : i.constants ⊆ S.constants
  vars : i.vars ⊆ S.vars

/-- The symbols that an item gets with the unit are known. -/
def Counted : Program.Item → Prop
  | .global (.decl d) => d.toVariable?.isSome = true
  | .function f => f.symbol.isSome = true ∧ ∀ p ∈ f.params.map Prod.fst, p.toVariable?.isSome = true
  | _ => True

/-- Nothing is left out of a list if there is something for all elements. -/
theorem length_filterMap_of_isSome {α β : Type} {f : α → Option β} : ∀ (as : List α),
    (∀ a ∈ as, (f a).isSome = true) → (as.filterMap f).length = as.length
  | [], _ => rfl
  | a :: as, h => by
    obtain ⟨ha, has⟩ := List.forall_mem_cons.mp h
    obtain ⟨b, hb⟩ := Option.isSome_iff_exists.mp ha
    rw [List.filterMap_cons_some hb, List.length_cons, List.length_cons, length_filterMap_of_isSome as has]

/-- A function declares as many symbols as are counted. -/
theorem Counted.count {f : Function} (h : Counted (.function f)) {body : Stmts} {frame : Frame}
    (hlocals : f.locals = none) (hlets : ∀ d ∈ body.lets, ∃ v, d.toVariable? = some v) :
    (Program.Item.function { f with body := body, frame := frame }).count ≤
      (Program.Item.function { f with body := body, frame := frame }).functions.length +
        (Program.Item.function { f with body := body, frame := frame }).vars.length := by
  obtain ⟨symbol, hsymbol⟩ := Option.isSome_iff_exists.mp h.1
  have hparams := length_filterMap_of_isSome _ h.2
  have hbody := length_filterMap_of_isSome (f := Let.toVariable?) body.lets fun d hd =>
    Option.isSome_iff_exists.mpr (hlets d hd)
  rw [List.length_map] at hparams
  simp only [Item.count, Item.functions, Item.vars, Function.vars, hsymbol, Option.toList_some,
    List.length_append, hparams, hbody, hlocals, Locals.vars, Option.getD_none, List.map_nil,
    List.length_cons, List.length_nil]
  omega

/-- An item before and after the names in it are bound. -/
structure Finished (s s' : Nested Binder) (i i' : Program.Item) : Prop where
  functions : s'.own.functions = s.own.functions
  source : i'.isSource = true
  count : Counted i → i'.count ≤ i'.functions.length + i'.vars.length
  declared : ∀ S, Within S i' → i'.Declared S
  declares : ∀ S, Within S i' → Declares S i
  linked : ∀ S, i.Linked {} → (∀ frame ∈ i.frames, frame.Linked {}) → Within S i' → Open S s →
    i'.Linked S ∧ Open S s'

/-- **Entering a function** binds its parameters, whose names differ. -/
theorem enterFunction_ok {f : Function} {symbol : String} {s s' : Nested Binder}
    (hsymbol : f.symbol = some symbol) (h : (visitor.enterFunction f).outcome s = (.ok (), s')) :
    s'.own.functions = symbol :: s.own.functions ∧
      (f.params.map Prod.fst).filterMap Param.symbol ⊆ s'.own.symbols ∧
      ((f.params.map Prod.fst).map Param.name).Nodup ∧
      ∀ S, (f.params.map Prod.fst).filterMap Param.toVariable? ⊆ S.vars → f.frame.Linked S →
        Open S s → Open S s' := by
  obtain ⟨⟨⟩, s1, hopened, henter⟩ := Walk.outcome_bind_eq_ok.mp h
  obtain ⟨-, rfl⟩ := Prod.mk.inj hopened
  simp only [inner, hsymbol] at henter
  obtain ⟨⟨⟩, s2, hbind, hpush⟩ := Walk.outcome_bind_eq_ok.mp henter
  obtain ⟨-, rfl⟩ := Prod.mk.inj hpush
  obtain ⟨hfunctions, hused, hnodup, -, hopen⟩ := bindParams_ok hbind
  refine ⟨congrArg (symbol :: ·) hfunctions, (List.append_subset.mp hused).1, hnodup,
    fun S hS hframe hs => ?_⟩
  exact hopen S hS (List.forall_mem_cons.mpr ⟨hframe, hs⟩)

/-- Leaving a function keeps everything but its frame. -/
theorem exitFunction_ok {f : Function} {i : Program.Item} {s s' : Nested Binder}
    (h : (visitor.exitFunction f).outcome s = (.ok i, s')) :
    (∃ frame, i = .function { f with frame := frame }) ∧ s'.frames = s.frames.tail ∧
      s'.own.functions = s.own.functions.tail := by
  obtain ⟨frames, own⟩ := s
  cases frames <;>
  · obtain ⟨hi, rfl⟩ := Prod.mk.inj h
    exact ⟨⟨_, (Except.ok.inj hi).symm⟩, rfl, rfl⟩

/-- The symbols that are declared in a function differ, parameters from variables as well. -/
theorem distinct_of_locally {f : Function} {symbol : String} {s s' : Nested Binder}
    (hparams : ∀ p ∈ f.params.map Prod.fst, p.symbol = some (symbol ++ "." ++ p.name))
    (hnodup : ((f.params.map Prod.fst).map Param.name).Nodup)
    (hused : (f.params.map Prod.fst).filterMap Param.symbol ⊆ s.own.symbols)
    (hlocally : Locally f.body.lets s s') : f.locallyDeclared.Nodup := by
  refine List.nodup_append.mpr ⟨?_, hlocally.nodup, fun a ha b hb hab => ?_⟩
  · rw [filterMap_symbol hparams]
    exact hnodup.map fun a b hab => (String.append_right_inj _).mp hab
  · exact (hlocally.fresh b hb).1 (hab ▸ hused ha)

/-- **Functions.** -/
theorem mapUp_function {f : Function} {i : Program.Item} {s s' : Nested Binder}
    (hnamed : ParamsNamed (.function f)) (hsource : (Program.Item.function f).isSource = true)
    (h : (f.mapUp visitor).outcome s = (.ok i, s')) : Finished s s' (.function f) i := by
  obtain ⟨symbol, hsymbol, hparams⟩ := hnamed
  obtain ⟨hbodySource, hlocals⟩ := Bool.and_eq_true_iff.mp hsource
  obtain ⟨⟨⟩, s1, henter, hrest⟩ := Walk.outcome_bind_eq_ok.mp h
  rw [Params.mapUp_pure rfl, pure_bind, visitResult_pure rfl, pure_bind] at hrest
  obtain ⟨body, s2, hbody, hexit⟩ := Walk.outcome_bind_eq_ok.mp hrest
  obtain ⟨hfunctions, hused, hnodup, hopen⟩ := enterFunction_ok hsymbol henter
  obtain ⟨hsource', hlocally, hlinked⟩ := mapUp_stmts (by simp [hfunctions]) hbodySource hbody
  obtain ⟨⟨frame, rfl⟩, hframes', hfunctions'⟩ := exitFunction_ok hexit
  have hvars : ∀ S, Within S (.function { f with body := body, frame := frame }) →
      (f.params.map Prod.fst).filterMap Param.toVariable? ⊆ S.vars ∧
        body.lets.filterMap Let.toVariable? ⊆ S.vars := by
    intro S hS
    obtain ⟨hall, -⟩ := List.append_subset.mp hS.vars
    exact List.append_subset.mp hall
  refine ⟨?_, Bool.and_eq_true_iff.mpr ⟨hsource', hlocals⟩, fun hcounted =>
      hcounted.count (Option.isNone_iff_eq_none.mp hlocals) hlocally.known, ?_,
    fun S hS => ⟨hS.functions, (hvars S hS).1⟩,
    fun S hbefore hframes hS hs => ?_⟩
  · rw [hfunctions', hlocally.functions, hfunctions, List.tail_cons]
  · intro S hS
    refine ⟨distinct_of_locally hparams hnodup hused hlocally, fun d hd => ?_⟩
    obtain ⟨v, hv⟩ := hlocally.known d hd
    exact ⟨v, (hvars S hS).2 (List.mem_filterMap.mpr ⟨d, hd, hv⟩), hv⟩
  · obtain ⟨hframe, hinside⟩ := List.forall_mem_cons.mp hframes
    obtain ⟨hbodyLinked, hs2⟩ := hlinked S hbefore.1 hinside (hvars S hS).2
      (hopen S (hvars S hS).1 (hframe.mono (.empty S)) hs)
    refine ⟨⟨hbodyLinked, hbefore.2⟩, fun fr hfr => hs2 fr ?_⟩
    rw [hframes'] at hfr
    exact List.mem_of_mem_tail hfr

/-- **Items.** -/
theorem mapUp_item {i : Program.Item} {left : Option Program.Item} {s s' : Nested Binder}
    (houtside : s.own.functions = []) (hnamed : ParamsNamed i) (hsource : i.isSource = true)
    (h : (i.mapUp visitor).outcome s = (.ok left, s')) : ∃ i', left = some i' ∧ Finished s s' i i' := by
  cases i with
  | use name span =>
    obtain ⟨rfl, rfl⟩ := Walk.outcome_pure_eq_ok.mp h
    exact ⟨_, rfl, rfl, rfl, fun _ => Nat.zero_le _, fun _ _ => trivial, fun _ _ => trivial,
      fun _ _ _ _ hs => ⟨trivial, hs⟩⟩
  | constant name ty value symbol span =>
    rw [Item.mapUp, show visitor.type = pure from rfl, TypeExpr.mapUp_pure, pure_bind] at h
    obtain ⟨value', s1, hvalue, hleft⟩ := Walk.outcome_bind_eq_ok.mp h
    obtain ⟨rfl, hlinked⟩ := expr_ok hvalue
    obtain ⟨rfl, rfl⟩ := Walk.outcome_pure_eq_ok.mp hleft
    exact ⟨_, rfl, rfl, rfl, fun _ => Nat.zero_le _, fun _ _ => trivial, fun _ hS => hS.constants,
      fun S hbefore _ _ hs => ⟨hlinked S hbefore hs, hs⟩⟩
  | global st =>
    cases st with
    | decl d =>
      rw [Item.mapUp, Stmt.mapUp, Let.mapUp, show visitor.type = pure from rfl, TypeExpr.mapUp_pure,
        pure_bind, Walk.outcome_map, Prod.mk.injEq] at h
      obtain ⟨st, hst, rfl⟩ := map_eq_ok.mp h.1
      obtain ⟨value, s1, hvalue, hleft⟩ := Walk.outcome_bind_eq_ok.mp
        (Prod.ext hst h.2 : Walk.outcome (visitor.expr d.value >>= _) s = (.ok st, s'))
      obtain ⟨rfl, hlinked⟩ := expr_ok hvalue
      have hkeep : ∀ d : Let, (visitor.decl d).outcome s1 = (.ok (.decl d), s1) := by
        intro d
        change Walk.outcome (Stmt.decl <$> bindLocal d) s1 = _
        rw [Walk.outcome_map, bindLocal, Walk.outcome_bind, Walk.outcome_get, Walk.andThen_ok, houtside]
        rfl
      rw [hkeep] at hleft
      obtain ⟨hst', rfl⟩ := Prod.mk.inj hleft
      obtain rfl := Except.ok.inj hst'
      have hone : d.toVariable?.isSome = true → 1 ≤ 0 + d.toVariable?.toList.length := fun h => by
        obtain ⟨v, hv⟩ := Option.isSome_iff_exists.mp h
        rw [hv]
        exact Nat.le_refl _
      exact ⟨_, rfl, rfl, rfl, hone, fun _ _ => trivial, fun _ hS => hS.vars,
        fun S hbefore _ _ hs => ⟨⟨hlinked S hbefore.1 hs, hbefore.2⟩, hs⟩⟩
    | _ => simp [Item.isSource] at hsource
  | function f =>
    rw [Item.mapUp, Walk.outcome_map, Prod.mk.injEq] at h
    obtain ⟨i', hi', rfl⟩ := map_eq_ok.mp h.1
    exact ⟨i', rfl, mapUp_function hnamed hsource (Prod.ext hi' h.2)⟩
  | compiled _ _ _ _ _ => simp [Item.isSource] at hsource

/-- The items of a unit, one by one: what one of them takes is not free for the next. -/
theorem mapUp_items : ∀ {items items' : Items} {s s' : Nested Binder}, s.own.functions = [] →
    (∀ entry ∈ items, ParamsNamed entry.1 ∧ entry.1.isSource = true) →
    (Items.mapUp visitor items).outcome s = (.ok items', s') →
      (∀ entry ∈ items', entry.1.isSource = true) ∧
      ((∀ entry ∈ items, Counted entry.1) → Items.count items' ≤
        (Items.symbols items').functions.length + (Items.symbols items').vars.length) ∧
      ∀ S, (∀ entry ∈ items', Within S entry.1) → (∀ entry ∈ items, Declares S entry.1) ∧
        (∀ entry ∈ items', entry.1.Declared S) ∧
        ((∀ entry ∈ items, entry.1.Linked {} ∧ ∀ frame ∈ entry.1.frames, frame.Linked {}) →
          Open S s → ∀ entry ∈ items', entry.1.Linked S)
  | [], items', s, s', _, _, h => by
    obtain ⟨rfl, rfl⟩ := Walk.outcome_pure_eq_ok.mp h
    simp [Items.count]
  | (i, span) :: rest, items', s, s', houtside, hitems, h => by
    obtain ⟨⟨hnamed, hsource⟩, hrestItems⟩ := List.forall_mem_cons.mp hitems
    obtain ⟨left, s1, hi, hmore⟩ := Walk.outcome_bind_eq_ok.mp h
    obtain ⟨rest', s2, hrest, hleft⟩ := Walk.outcome_bind_eq_ok.mp hmore
    obtain ⟨i', rfl, hfinished⟩ := mapUp_item houtside hnamed hsource hi
    obtain ⟨rfl, rfl⟩ := Walk.outcome_pure_eq_ok.mp hleft
    obtain ⟨hsourceRest, hcountRest, hlinkedRest⟩ :=
      mapUp_items (hfinished.functions.trans houtside) hrestItems hrest
    refine ⟨List.forall_mem_cons.mpr ⟨hfinished.source, hsourceRest⟩, fun hcounted => ?_, fun S hS => ?_⟩
    · obtain ⟨hci, hcrest⟩ := List.forall_mem_cons.mp hcounted
      have hi := hfinished.count hci
      have hrest := hcountRest hcrest
      simp only [Items.count, Items.symbols, List.map_cons, List.sum_cons, List.flatMap_cons,
        List.length_append] at hrest ⊢
      omega
    obtain ⟨hSi, hSrest⟩ := List.forall_mem_cons.mp hS
    obtain ⟨hdeclaresRest, hdeclaredRest, hlinkedRest⟩ := hlinkedRest S hSrest
    refine ⟨List.forall_mem_cons.mpr ⟨hfinished.declares S hSi, hdeclaresRest⟩,
      List.forall_mem_cons.mpr ⟨hfinished.declared S hSi, hdeclaredRest⟩, fun hbefore hs => ?_⟩
    obtain ⟨⟨hbi, hbframes⟩, hbrest⟩ := List.forall_mem_cons.mp hbefore
    obtain ⟨hlinked, hs1⟩ := hfinished.linked S hbi hbframes hSi hs
    exact List.forall_mem_cons.mpr ⟨hlinked, hlinkedRest hbrest hs1⟩

/-! ## 7. The unit -/

theorem within_symbols {items : Items} {entry : Program.Item × Span} (h : entry ∈ items) :
    Within (Items.symbols items) entry.1 where
  functions _ hx := List.mem_flatMap.mpr ⟨entry, h, hx⟩
  constants _ hx := List.mem_flatMap.mpr ⟨entry, h, hx⟩
  vars _ hx := List.mem_flatMap.mpr ⟨entry, h, hx⟩

theorem NamedItem.source {i i' : Program.Item} (h : NamedItem i i') (hi : i.isSource = true) :
    i'.isSource = true := by
  cases h <;> exact hi

theorem NamedItem.linked {i i' : Program.Item} {S : Symbols} (h : NamedItem i i') (hi : i.Linked S) :
    i'.Linked S := by
  cases h <;> exact hi

theorem NamedParam.toVariable? {symbol : String} {p p' : Param} (h : NamedParam symbol p p') :
    p'.toVariable?.isSome = true := by
  obtain ⟨type, htype⟩ := Option.isSome_iff_exists.mp h.2
  simp [h.1, Param.toVariable?, htype]

/-- The symbols of a named item are known. -/
theorem NamedItem.counted {i i' : Program.Item} (h : NamedItem i i') : Counted i' := by
  cases h with
  | global htype =>
    obtain ⟨type, htype⟩ := Option.isSome_iff_exists.mp htype
    simp [Counted, Let.toVariable?, htype]
  | function hparams =>
    refine ⟨rfl, fun p' hp' => ?_⟩
    rw [Params.map_fst_ofList] at hp'
    obtain ⟨p, -, hp⟩ := exists_of_mem_right hparams hp'
    exact hp.toVariable?
  | _ => trivial

theorem NamedItem.frames {i i' : Program.Item} (h : NamedItem i i') : i'.frames = i.frames := by
  cases h <;> rfl

/-- **Bound programs.**  A program whose names are bound mentions the symbols it declares. -/
theorem bound {unit : String} {p p' : Program} (hp : p.Unbound)
    (hrun : ((p.mapUp visitor).outcome ⟨[], unit, [], []⟩).1 = .ok p') :
    p'.IsSource ∧ p'.Bound (Items.symbols p'.items) := by
  obtain ⟨p1, s1, henter, hrest⟩ := Walk.outcome_bind_eq_ok.mp
    (Prod.ext hrun rfl : (p.mapUp visitor).outcome ⟨[], unit, [], []⟩ = (.ok p', _))
  obtain ⟨items, s2, hitems, hexit⟩ := Walk.outcome_bind_eq_ok.mp hrest
  obtain ⟨hnamed, -, -, hfunctions, hopen⟩ := enterUnit_ok hp.source henter
  have hbefore : ∀ entry ∈ p1.items, ∃ entry' ∈ p.items, NamedItem entry'.1 entry.1 := by
    intro entry hentry
    obtain ⟨i, hi, h⟩ := exists_of_mem_right hnamed (List.mem_map_of_mem hentry)
    obtain ⟨entry', hentry', rfl⟩ := List.mem_map.mp hi
    exact ⟨entry', hentry', h⟩
  obtain ⟨hsource, hcount, hlinked⟩ := mapUp_items hfunctions (fun entry hentry => by
    obtain ⟨entry', hentry', h⟩ := hbefore entry hentry
    exact ⟨h.paramsNamed, h.source (hp.source entry' hentry')⟩) hitems
  have hitems' : p'.items = items := by
    obtain ⟨frames, own⟩ := s2
    cases frames <;> exact congrArg Program.items (Except.ok.inj (Prod.mk.inj hexit).1).symm
  rw [← hitems'] at hsource hcount hlinked
  obtain ⟨hdeclares, hdeclared, hlinked⟩ := hlinked (Items.symbols p'.items) fun _ => within_symbols
  refine ⟨hsource, ?_, List.Subset.refl _, List.Subset.refl _, hdeclared, hcount fun entry hentry => by
    obtain ⟨_, -, h⟩ := hbefore entry hentry
    exact h.counted⟩
  refine hlinked (fun entry hentry => ?_) (hopen _ hdeclares (hp.frame.mono (.empty _)) ?_)
  · obtain ⟨entry', hentry', h⟩ := hbefore entry hentry
    refine ⟨h.linked (hp.linked entry' hentry'), fun frame hframe => ?_⟩
    rw [h.frames] at hframe
    exact hp.frames frame (List.mem_flatMap.mpr ⟨entry', hentry', hframe⟩)
  · intro frame hframe
    cases hframe

end Lode.BindNames
