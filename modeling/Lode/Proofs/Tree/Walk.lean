/-
# Walks that rebuild

A walk tells apart "kept" and "replaced by the same", so that it can share what did not change.  For what it
leaves in the end this makes no difference: `walkWithin` is the walk as a function from nodes to what is
left of them, and on a node whose attributes are in order it is the plain recursion that visits the
children, puts what is left of each in its place, and hands the node to the exit hook (`walkWithin_enter`).

The lemmas about walks are stated for the computation that a walk mirrors: if the walks over the children
mirror given computations, and the exit hook one that depends on their results, then the walk mirrors these
computations one after the other.  There is one such lemma for nodes with no, one, two and three children,
and nodes of programs have no more, a chain of cells being nested to the right.

Attributes are sorted by name, and children are not visited in that order, so putting back what is left of
one child must not disturb the others: sections 1 and 2 are about setting, erasing and finding attributes,
some of which may be missing.  The condition on the node is that its attributes are in order and that a cell
has its element (`Node.framed`); every tree that the compiler makes is of this kind.

The last section goes the other way.  From a walk that succeeded it is read off what it went through, and a
walk that changes nothing in a subtree, if it succeeds, is recognized node by node (`Still`).
-/
import Lode.Proofs.Tree.Outcome
import Mathlib.Data.List.Nodup
import Mathlib.Tactic.Common

namespace Lode

open Walk (Mirrors)

variable {σ τ α β : Type}

/-! ## 1. Attributes in order -/

namespace Fields

/-- Whether a name comes before the first of the attributes. -/
def after (name : String) : Fields → Bool
  | nil => true
  | cons first _ _ => compare name first == .lt

/-- Whether the names increase. -/
def ordered : Fields → Bool
  | nil => true
  | cons name _ rest => rest.after name && rest.ordered

/-- Another value in place of an attribute, or none. -/
def assign (fields : Fields) (name : String) : Option Value → Fields
  | some v => fields.set name v
  | none => fields.erase name

/-- What is left of a child in place of the attribute. -/
def put (fields : Fields) (name : String) (left : Option Node) : Fields :=
  fields.assign name (left.map .node)

/-- An attribute that may be missing. -/
def optional (name : String) (value : Option Value) (rest : Fields) : Fields :=
  match value with
  | some v => cons name v rest
  | none => rest

/-- Names further back are greater. -/
theorem lt_of_mem_names : ∀ {fields : Fields} {name : String}, fields.ordered = true →
    fields.after name = true → ∀ other ∈ fields.names, compare name other = .lt
  | nil, _, _, _, other, h => by simp [names, toList] at h
  | cons first value rest, name, hordered, hafter, other, h => by
    simp only [ordered, Bool.and_eq_true] at hordered
    have hfirst : compare name first = .lt := by simpa [after] using hafter
    simp only [names, toList, List.map_cons, List.mem_cons] at h
    rcases h with rfl | h
    · exact hfirst
    · exact Std.TransCmp.lt_trans hfirst (lt_of_mem_names hordered.2 hordered.1 other h)

theorem mem_names_of_mem_nodes : ∀ {fields : Fields} {name : String} {n : Node},
    (name, n) ∈ fields.nodes → name ∈ fields.names
  | nil, _, _, h => by simp [nodes] at h
  | cons first value rest, name, n, h => by
    have hrest : (name, n) ∈ rest.nodes → name ∈ names (cons first value rest) := fun h => by
      simp only [names, toList, List.map_cons, List.mem_cons]
      exact .inr (mem_names_of_mem_nodes h)
    cases value with
    | node m =>
      simp only [nodes, List.mem_cons, Prod.mk.injEq] at h
      rcases h with ⟨rfl, rfl⟩ | h
      · simp [names, toList]
      · exact hrest h
    | _ => exact hrest h

/-- No two children have the same name. -/
theorem nodup_nodes : ∀ {fields : Fields}, fields.ordered = true →
    (fields.nodes.map Prod.fst).Nodup
  | nil, _ => by simp [nodes]
  | cons first value rest, h => by
    simp only [ordered, Bool.and_eq_true] at h
    have ih := nodup_nodes h.2
    cases value with
    | node m =>
      simp only [nodes, List.map_cons, List.nodup_cons]
      refine ⟨fun hmem => ?_, ih⟩
      obtain ⟨entry, hentry, heq⟩ := List.mem_map.mp hmem
      have hlt := lt_of_mem_names h.2 h.1 first (heq ▸ mem_names_of_mem_nodes hentry)
      exact absurd (Std.ReflCmp.compare_self.symm.trans hlt) (by decide)
    | _ => exact ih

/-- Putting a child where it stands changes nothing. -/
theorem set_self : ∀ {fields : Fields} {name : String} {n : Node}, fields.ordered = true →
    (name, n) ∈ fields.nodes → fields.set name (.node n) = fields
  | nil, _, _, _, h => by simp [nodes] at h
  | cons first value rest, name, n, hordered, h => by
    simp only [ordered, Bool.and_eq_true] at hordered
    have hrest : (name, n) ∈ rest.nodes →
        (cons first value rest).set name (.node n) = cons first value rest := fun h => by
      have hlt := lt_of_mem_names hordered.2 hordered.1 name (mem_names_of_mem_nodes h)
      have hgt : compare name first = .gt := Std.OrientedCmp.gt_of_lt hlt
      rw [set, hgt]
      simp only
      rw [set_self hordered.2 h]
    cases value with
    | node m =>
      simp only [nodes, List.mem_cons, Prod.mk.injEq] at h
      rcases h with ⟨rfl, rfl⟩ | h
      · simp [set, Std.ReflCmp.compare_self]
      · exact hrest h
    | _ => exact hrest h

theorem after_set {key name : String} {v : Value} (h : compare key name = .lt) :
    ∀ {fields : Fields}, fields.after key = true → (fields.set name v).after key = true
  | nil, _ => by simp [set, after, h]
  | cons first value rest, hafter => by
    simp only [set]
    split <;> simp_all [after]

/-- Setting an attribute keeps the order. -/
theorem ordered_set {name : String} {v : Value} : ∀ {fields : Fields}, fields.ordered = true →
    (fields.set name v).ordered = true
  | nil, _ => by simp [set, ordered, after]
  | cons first value rest, h => by
    simp only [ordered, Bool.and_eq_true] at h
    simp only [set]
    split
    · rename_i hlt
      simp only [ordered, Bool.and_eq_true]
      exact ⟨by simp [after, hlt], h⟩
    · simp [ordered, h]
    · rename_i hgt
      simp only [ordered, Bool.and_eq_true]
      exact ⟨after_set (Std.OrientedCmp.lt_of_gt hgt) h.1, ordered_set h.2⟩

theorem after_erase {key name : String} : ∀ {fields : Fields}, fields.ordered = true →
    fields.after key = true → (fields.erase name).after key = true
  | nil, _, _ => by simp [erase, after]
  | cons first value rest, hordered, hafter => by
    simp only [erase]
    split
    · cases rest with
      | nil => rfl
      | cons second _ _ =>
        simp only [ordered, Bool.and_eq_true, after, beq_iff_eq] at hordered hafter ⊢
        exact Std.TransCmp.lt_trans hafter hordered.1
    · simpa [after] using hafter

/-- Erasing an attribute keeps the order. -/
theorem ordered_erase {name : String} : ∀ {fields : Fields}, fields.ordered = true →
    (fields.erase name).ordered = true
  | nil, _ => by simp [erase, ordered]
  | cons first value rest, h => by
    simp only [ordered, Bool.and_eq_true] at h
    simp only [erase]
    split
    · exact h.2
    · simp only [ordered, Bool.and_eq_true]
      exact ⟨after_erase h.2 h.1, ordered_erase h.2⟩

theorem ordered_put {fields : Fields} {name : String} (h : fields.ordered = true) :
    ∀ left : Option Node, (fields.put name left).ordered = true
  | some _ => ordered_set h
  | none => ordered_erase h

theorem mem_nodes_set {name other : String} {n : Node} {v : Value} (hne : other ≠ name) :
    ∀ {fields : Fields}, (other, n) ∈ fields.nodes → (other, n) ∈ (fields.set name v).nodes
  | nil, h => by simp [nodes] at h
  | cons first value rest, h => by
    simp only [set]
    split
    · cases v <;> simp [nodes, h]
    · rename_i heq
      obtain rfl : name = first := Std.LawfulEqCmp.eq_of_compare heq
      cases value <;> cases v <;> simp_all [nodes]
    · have ih : (other, n) ∈ rest.nodes → (other, n) ∈ (rest.set name v).nodes :=
        mem_nodes_set hne
      cases value <;> simp only [nodes, List.mem_cons] at h ⊢ <;> tauto

theorem mem_nodes_erase {name other : String} {n : Node} (hne : other ≠ name) :
    ∀ {fields : Fields}, (other, n) ∈ fields.nodes → (other, n) ∈ (fields.erase name).nodes
  | nil, h => by simp [nodes] at h
  | cons first value rest, h => by
    simp only [erase]
    split
    · rename_i heq
      obtain rfl : name = first := by simpa using heq
      cases value <;> simp_all [nodes]
    · have ih : (other, n) ∈ rest.nodes → (other, n) ∈ (rest.erase name).nodes :=
        mem_nodes_erase hne
      cases value <;> simp only [nodes, List.mem_cons] at h ⊢ <;> tauto

theorem mem_nodes_put {fields : Fields} {name other : String} {n : Node} (hne : other ≠ name)
    (h : (other, n) ∈ fields.nodes) : ∀ left : Option Node, (other, n) ∈ (fields.put name left).nodes
  | some _ => mem_nodes_set hne h
  | none => mem_nodes_erase hne h

/-- What is found once an attribute is set. -/
theorem get?_set (key name : String) (v : Value) : ∀ fields : Fields,
    (fields.set name v).get? key = if key = name then some v else fields.get? key
  | nil => by simp [set, get?]
  | cons first value rest => by
    have ih := get?_set key name v rest
    simp only [set]
    split
    · simp [get?]
    · rename_i heq
      obtain rfl : name = first := Std.LawfulEqCmp.eq_of_compare heq
      by_cases hkey : key = name <;> simp [get?, hkey]
    · rename_i hgt
      by_cases hfirst : key = first
      · have hne : key ≠ name := by
          rintro rfl
          subst hfirst
          exact absurd (Std.ReflCmp.compare_self.symm.trans hgt) (by decide)
        simp [get?, hfirst, hfirst ▸ hne]
      · simp [get?, hfirst, ih]

/-! ## 2. Attributes that may be missing -/

/-- Attributes that may stand behind a name. -/
def Follows (name : String) (fields : Fields) : Prop := fields.after name = true ∧ fields.ordered = true

section Optional

variable {name first : String} {rest : Fields} {value : Option Value} {left : Option Node}

theorem follows_nil : Follows name nil := ⟨rfl, rfl⟩

theorem follows_cons {v : Value} (h : compare name first = .lt) (hrest : Follows first rest) :
    Follows name (cons first v rest) := by
  refine ⟨by simp [after, h], ?_⟩
  simp only [ordered, Bool.and_eq_true]
  exact hrest

/-- An attribute that may be missing stands behind a smaller name. -/
theorem follows_optional (h : compare name first = .lt) (hrest : Follows first rest) :
    Follows name (optional first value rest) := by
  cases value with
  | some v => exact follows_cons h hrest
  | none =>
    refine ⟨?_, hrest.2⟩
    cases rest with
    | nil => rfl
    | cons second _ _ =>
      have hsecond : compare first second = .lt := by simpa [after] using hrest.1
      simpa [optional, after] using Std.TransCmp.lt_trans h hsecond

theorem ordered_optional (hrest : Follows first rest) : (optional first value rest).ordered = true := by
  cases value with
  | some v =>
    simp only [optional, ordered, Bool.and_eq_true]
    exact hrest
  | none => exact hrest.2

theorem assign_cons_of_gt {v : Value} {new : Option Value} (h : compare name first = .gt) :
    (cons first v rest).assign name new = cons first v (rest.assign name new) := by
  have hne : (name == first) = false := by
    rw [beq_eq_false_iff_ne]
    rintro rfl
    exact absurd (Std.ReflCmp.compare_self.symm.trans h) (by decide)
  cases new with
  | some n => simp [assign, set, h]
  | none => simp [assign, erase, hne]

theorem assign_optional_of_gt {new : Option Value} (h : compare name first = .gt) :
    (optional first value rest).assign name new = optional first value (rest.assign name new) := by
  cases value with
  | some v => exact assign_cons_of_gt h
  | none => rfl

theorem assign_cons_self {v new : Value} :
    (cons name v rest).assign name (some new) = cons name new rest := by
  simp [assign, set, Std.ReflCmp.compare_self]

theorem erase_eq_self : ∀ {fields : Fields}, Follows name fields → fields.erase name = fields
  | nil, _ => rfl
  | cons first v rest, h => by
    have hlt : compare name first = .lt := by simpa [after] using h.1
    have hrest : Follows name rest := by
      have hordered := h.2
      simp only [ordered, Bool.and_eq_true] at hordered
      refine ⟨?_, hordered.2⟩
      cases rest with
      | nil => rfl
      | cons second _ _ =>
        have hsecond : compare first second = .lt := by simpa [after] using hordered.1
        simpa [after] using Std.TransCmp.lt_trans hlt hsecond
    have hne : (name == first) = false := by
      rw [beq_eq_false_iff_ne]
      rintro rfl
      exact absurd (Std.ReflCmp.compare_self.symm.trans hlt) (by decide)
    simp [erase, hne, erase_eq_self hrest]

/-- Assigning an attribute that may be missing. -/
theorem assign_optional_self {new : Option Value} (h : Follows name rest) :
    (optional name value rest).assign name new = optional name new rest := by
  have hrest : rest.assign name new = optional name new rest := by
    cases new with
    | none => exact erase_eq_self h
    | some n =>
      cases rest with
      | nil => rfl
      | cons second _ _ =>
        have hlt : compare name second = .lt := by simpa [after] using h.1
        simp [assign, set, hlt, optional]
  cases value with
  | none => exact hrest
  | some v =>
    cases new with
    | none => simp [optional, assign, erase]
    | some n => exact assign_cons_self

theorem get?_optional (key : String) :
    (optional first value rest).get? key =
      if key = first then value.or (rest.get? key) else rest.get? key := by
  cases value with
  | some v => simp [optional, get?]
  | none => simp [optional]

theorem nodes_optional_node {o : Option Node} :
    (optional name (o.map .node) rest).nodes = (o.map (name, ·)).toList ++ rest.nodes := by
  cases o <;> rfl

theorem nodes_optional_plain (h : ∀ v ∈ value, v.node? = none) :
    (optional name value rest).nodes = rest.nodes := by
  cases value with
  | none => rfl
  | some v =>
    have hv := h v rfl
    cases v <;> first | rfl | simp [Value.node?] at hv

end Optional

end Fields

/-! ## 3. Visiting children -/

theorem mem_of_mem_visitOrder {entries : List (String × α)} {entry : String × α}
    (h : entry ∈ visitOrder entries) : entry ∈ entries := by
  simp only [visitOrder, List.mem_append, List.mem_filter] at h
  tauto

/-- No child is visited twice. -/
theorem nodup_visitOrder {entries : List (String × α)} (h : (entries.map Prod.fst).Nodup) :
    ((visitOrder entries).map Prod.fst).Nodup := by
  have hsub : ∀ p : String × α → Bool, ((entries.filter p).map Prod.fst).Nodup := fun p =>
    h.sublist ((List.filter_sublist).map Prod.fst)
  simp only [visitOrder, List.map_append]
  refine List.nodup_append.mpr ⟨List.nodup_append.mpr ⟨hsub _, hsub _, ?_⟩, hsub _, ?_⟩ <;>
  · intro a ha b hb heq
    simp only [List.mem_append, List.mem_map, List.mem_filter] at ha hb
    grind

/-- Visits children one after the other and puts what is left of each in its place. -/
def visitEach (visit : Node → Walk σ (Option Node)) : List (String × Node) → Fields → Walk σ Fields
  | [], fields => return fields
  | entry :: rest, fields => do
    let left ← visit entry.2
    visitEach visit rest (fields.put entry.1 left)

theorem visitEach_append (visit : Node → Walk σ (Option Node)) (back : List (String × Node)) :
    ∀ (front : List (String × Node)) (fields : Fields),
      visitEach visit (front ++ back) fields = visitEach visit front fields >>= visitEach visit back
  | [], fields => by simp [visitEach]
  | entry :: front, fields => by simp [visitEach, visitEach_append visit back front]

/-- Visiting a child that may be missing. -/
theorem visitEach_option {raw : τ → σ} {visit : Node → Walk σ (Option Node)} {name : String}
    {child : Option Node} {w : Walk τ α} {left : α → Option Node} {fields : Fields}
    (hsome : ∀ n, child = some n → Mirrors raw (visit n) (left <$> w))
    (hnone : child = none → ∃ a, w = pure a ∧ fields.put name (left a) = fields) :
    Mirrors raw (visitEach visit (child.map (name, ·)).toList fields)
      ((fun a => fields.put name (left a)) <$> w) := by
  cases child with
  | none =>
    obtain ⟨a, rfl, ha⟩ := hnone rfl
    rw [map_pure, ha]
    exact .pure fields
  | some n =>
    rw [map_eq_pure_bind]
    exact (hsome n rfl).bind_map fun a => .pure _

@[simp] theorem Verdict.apply_keep (n : Node) : Verdict.keep.apply n = some n := rfl

@[simp] theorem Verdict.apply_replace (m n : Node) : (Verdict.replace m).apply n = some m := rfl

@[simp] theorem Verdict.apply_remove (n : Node) : Verdict.remove.apply n = none := rfl

/-- What a hook leaves of a node. -/
def settle (hook : Node → Walk σ Verdict) (n : Node) : Walk σ (Option Node) := (·.apply n) <$> hook n

/-- Visiting with verdicts, and going on with whether anything changed, is visiting each child. -/
theorem visitChildren_bind (visit : Node → Walk σ Verdict) {original : Fields}
    {next : Fields × Bool → Walk σ β} {next' : Fields → Walk σ β}
    (hchanged : ∀ fields, next (fields, true) = next' fields)
    (hsame : next (original, false) = next' original) :
    ∀ (entries : List (String × Node)) (fields : Fields) (changed : Bool),
      fields.ordered = true → (∀ entry ∈ entries, entry ∈ fields.nodes) →
      (entries.map Prod.fst).Nodup → (changed = false → fields = original) →
      visitChildren visit entries fields changed >>= next =
        visitEach (settle visit) entries fields >>= next'
  | [], fields, changed, _, _, _, horiginal => by
    cases changed with
    | true => simp [visitChildren, visitEach, hchanged]
    | false => simp [visitChildren, visitEach, horiginal rfl, hsame]
  | entry :: rest, fields, changed, hordered, hmem, hnodup, horiginal => by
    obtain ⟨name, child⟩ := entry
    simp only [List.map_cons, List.nodup_cons] at hnodup
    have hself : fields.put name (some child) = fields :=
      Fields.set_self hordered (hmem _ List.mem_cons_self)
    have hkeep : ∀ left, ∀ entry ∈ rest, entry ∈ (fields.put name left).nodes := fun left e he =>
      have hne : e.1 ≠ name := fun heq => hnodup.1 (List.mem_map.mpr ⟨e, he, heq⟩)
      Fields.mem_nodes_put hne (hmem e (List.mem_cons_of_mem _ he)) left
    simp only [visitChildren, visitEach, settle, bind_assoc, map_eq_pure_bind, pure_bind]
    refine bind_congr fun verdict => ?_
    cases verdict with
    | keep =>
      simp only [Verdict.apply, hself]
      exact visitChildren_bind visit hchanged hsame rest _ _ hordered
        (hself ▸ hkeep (some child)) hnodup.2 horiginal
    | replace n =>
      exact visitChildren_bind visit hchanged hsame rest _ _ (Fields.ordered_put hordered (some n))
        (hkeep (some n)) hnodup.2 (by simp)
    | remove =>
      exact visitChildren_bind visit hchanged hsame rest _ _ (Fields.ordered_put hordered none)
        (hkeep none) hnodup.2 (by simp)

/-! ## 4. Walks -/

/-- What a walk leaves of a tree, at most `fuel` nodes deep. -/
def walkWithin (hooks : Hooks σ) (fuel : Nat) (n : Node) : Walk σ (Option Node) :=
  settle (transformWithin hooks fuel) n

/-- Walks over the children of a node and leaves it. -/
def walkInside (hooks : Hooks σ) (fuel : Nat) (n : Node) : Walk σ (Option Node) := do
  let fields ← visitEach (walkWithin hooks fuel) (visitOrder n.fields.nodes) n.fields
  if lostElement n.tag fields then return (collapse fields).apply n
  else settle hooks.exit (.mk n.tag fields n.span)

/-- Whether a node is put together as trees are: its attributes are in order, and if it is a cell of a
sequence it has its element. -/
def Node.framed (n : Node) : Bool := n.fields.ordered && !lostElement n.tag n.fields

/-- Goes inside what was put in the place of a node on the way in. -/
def walkEntered (hooks : Hooks σ) (fuel : Nat) (n : Node) (entered : Verdict) :
    Walk σ (Option Node) :=
  match entered.apply n with
  | none => pure none
  | some node => do
    let (fields, changed) ←
      visitChildren (transformWithin hooks fuel) (visitOrder node.fields.nodes) node.fields false
    if changed then
      if lostElement node.tag fields then return (collapse fields).apply n
      match ← hooks.exit (.mk node.tag fields node.span) with
      | .keep => return some (.mk node.tag fields node.span)
      | verdict => return verdict.apply n
    else
      match ← hooks.exit node with
      | .keep => return entered.apply n
      | verdict => return verdict.apply n

/-- A walk enters a node and goes on with the verdict. -/
theorem walkWithin_succ (hooks : Hooks σ) (fuel : Nat) (n : Node) :
    walkWithin hooks (fuel + 1) n = hooks.enter n >>= walkEntered hooks fuel n := by
  simp only [walkWithin, settle, transformWithin, map_bind]
  refine bind_congr fun entered => ?_
  unfold walkEntered
  cases hentered : entered.apply n with
  | none => simp
  | some node =>
    simp only [map_bind]
    refine bind_congr fun result => ?_
    cases result.2 with
    | true =>
      simp only [if_true]
      cases lostElement node.tag result.1 with
      | true => simp
      | false =>
        simp only [Bool.false_eq_true, if_false, map_bind]
        refine bind_congr fun verdict => ?_
        cases verdict <;> simp
    | false =>
      simp only [Bool.false_eq_true, if_false, map_bind]
      refine bind_congr fun verdict => ?_
      cases verdict <;> simp [hentered]

/-- The walk goes inside what was put in the place of the node. -/
theorem walkEntered_eq {hooks : Hooks σ} {fuel : Nat} {n m : Node} {entered : Verdict}
    (hentered : entered.apply n = some m) (hframed : m.framed = true) :
    walkEntered hooks fuel n entered = walkInside hooks fuel m := by
  simp only [Node.framed, Bool.and_eq_true, Bool.not_eq_true'] at hframed
  simp only [walkEntered, hentered, walkInside]
  refine visitChildren_bind _ (fun fields => ?_) ?_ _ _ _ hframed.1
    (fun _ => mem_of_mem_visitOrder) (nodup_visitOrder (Fields.nodup_nodes hframed.1)) (fun _ => rfl)
  · cases hlost : lostElement m.tag fields with
    | true =>
      simp only [if_true]
      unfold collapse
      split <;> rfl
    | false =>
      simp only [if_true, if_false, Bool.false_eq_true, settle, map_eq_pure_bind]
      refine bind_congr fun verdict => ?_
      cases verdict <;> simp [Verdict.apply]
  · simp only [hframed.2, Bool.false_eq_true, if_false, settle, map_eq_pure_bind]
    have hm : Node.mk m.tag m.fields m.span = m := by cases m; rfl
    rw [hm]
    refine bind_congr fun verdict => ?_
    cases verdict <;> simp

section Mirrors

variable {raw : τ → σ} {hooks : Hooks σ} {n : Node} {fuel : Nat}

/-- A walk enters a node, and then goes inside what was put in its place. -/
theorem walkWithin_enter {enter : Walk τ α} {entered : α → Node} {next : α → Walk τ (Option Node)}
    (henter : Mirrors raw (settle hooks.enter n) ((fun a => some (entered a)) <$> enter))
    (hframed : ∀ a, (entered a).framed = true)
    (hinside : ∀ a t t', enter.outcome t = (.ok a, t') →
      Mirrors raw (walkInside hooks fuel (entered a)) (next a)) :
    Mirrors raw (walkWithin hooks (fuel + 1) n) (enter >>= next) := by
  intro t
  rw [walkWithin_succ]
  have hsettle := henter t
  simp only [settle, Walk.outcome_map] at hsettle
  cases henter' : enter.outcome t with
  | mk x t1 =>
    rw [henter'] at hsettle
    cases hhook : Walk.outcome (hooks.enter n) (raw t) with
    | mk y s1 =>
      rw [hhook] at hsettle
      obtain ⟨hresult, rfl⟩ := Prod.mk.inj hsettle
      cases x with
      | error e =>
        cases y with
        | ok verdict => simp [Functor.map, Except.map] at hresult
        | error e' =>
          obtain rfl : e' = e := by simpa [Functor.map, Except.map] using hresult
          rw [Walk.outcome_bind_of_error hhook, Walk.outcome_bind_of_error henter']
      | ok a =>
        cases y with
        | error e' => simp [Functor.map, Except.map] at hresult
        | ok verdict =>
          have hverdict : verdict.apply n = some (entered a) := by
            simpa [Functor.map, Except.map] using hresult
          rw [Walk.outcome_bind_of_ok hhook, Walk.outcome_bind_of_ok henter',
            walkEntered_eq hverdict (hframed a), hinside a t t1 henter' t1]

/-- A walk that keeps a node on the way in. -/
theorem walkWithin_keep {enter : Walk τ Unit} {next : Walk τ (Option Node)}
    (henter : Mirrors raw (settle hooks.enter n) ((fun _ => some n) <$> enter))
    (hframed : n.framed = true) (hinside : Mirrors raw (walkInside hooks fuel n) next) :
    Mirrors raw (walkWithin hooks (fuel + 1) n) (enter >>= fun _ => next) :=
  walkWithin_enter henter (fun _ => hframed) fun _ _ _ _ => hinside

theorem mirrors_keep {hook : Node → Walk σ Verdict} (h : hook n = pure .keep) :
    Mirrors raw (settle hook n) (pure (some n)) := by
  rw [settle, h, map_pure]
  exact .pure _

/-- A hook that has nothing to do with the state. -/
theorem mirrors_lift {hook : Node → Walk σ Verdict} {x : Except Error Verdict} {α : Type}
    {left : α → Option Node} {y : Except Error α} (hhook : hook n = liftM x)
    (h : (·.apply n) <$> x = left <$> y) : Mirrors raw (settle hook n) (left <$> (liftM y : Walk τ α)) := by
  intro t
  rw [settle, hhook, Walk.outcome_map, Walk.outcome_map, Walk.outcome_lift, Walk.outcome_lift, h]

/-- A walk that does nothing on the way into a node. -/
theorem walkWithin_pass {next : Walk τ (Option Node)} (henter : hooks.enter n = pure .keep)
    (hframed : n.framed = true) (hinside : Mirrors raw (walkInside hooks fuel n) next) :
    Mirrors raw (walkWithin hooks (fuel + 1) n) next := by
  have hkeep : Mirrors raw (settle hooks.enter n) ((fun _ => some n) <$> (pure () : Walk τ Unit)) := by
    rw [map_pure]
    exact mirrors_keep henter
  have h := walkWithin_keep hkeep hframed hinside
  rwa [pure_bind] at h

end Mirrors

/-! ## 5. Nodes with few children -/

theorem Fields.size_le_nodeCount : ∀ {fields : Fields} {name : String} {n : Node},
    (name, n) ∈ fields.nodes → n.size ≤ fields.nodeCount
  | nil, _, _, h => by simp [nodes] at h
  | cons first value rest, name, n, h => by
    have ih : (name, n) ∈ rest.nodes → n.size ≤ rest.nodeCount := size_le_nodeCount
    cases value with
    | node m =>
      simp only [nodes, List.mem_cons, Prod.mk.injEq] at h
      simp only [nodeCount]
      rcases h with ⟨_, rfl⟩ | h
      · omega
      · have := ih h
        omega
    | _ => exact ih h

theorem Node.size_child_lt {n child : Node} {name : String} (h : (name, child) ∈ n.fields.nodes) :
    child.size < n.size := by
  cases n with
  | mk tag fields span => exact Nat.lt_succ_of_le (Fields.size_le_nodeCount h)

/-- A budget for a node is one more than a budget for its children. -/
theorem Node.size_child_le {tag : Tag} {fields : Fields} {span : Span} {fuel : Nat} {name : String}
    {n : Node} (hfuel : (Node.mk tag fields span).size ≤ fuel + 1) (h : (name, n) ∈ fields.nodes) :
    n.size ≤ fuel := by
  have := Fields.size_le_nodeCount h
  simp only [Node.size] at hfuel
  omega

theorem Node.size_pos : ∀ n : Node, 0 < n.size
  | .mk _ _ _ => by simp [Node.size]

theorem Node.size_le_walkBudget (n : Node) : n.size ≤ n.walkBudget := by
  rw [walkBudget]
  omega

section Children

variable {raw : τ → σ} {hooks : Hooks σ} {tag : Tag} {fields : Fields} {span : Span} {fuel : Nat}
  {name name' name'' : String} {child child' child'' : Node} {γ : Type} {w : Walk τ α}
  {w' : Walk τ β} {w'' : Walk τ γ} {left : α → Option Node} {left' : β → Option Node}
  {left'' : γ → Option Node}

theorem walkInside_leaf {next : Walk τ (Option Node)} (hnodes : visitOrder fields.nodes = [])
    (hkept : lostElement tag fields = false)
    (hexit : Mirrors raw (settle hooks.exit (.mk tag fields span)) next) :
    Mirrors raw (walkInside hooks fuel (.mk tag fields span)) next := by
  simpa [walkInside, Node.fields, Node.tag, Node.span, hnodes, visitEach, hkept] using hexit

/-- **A node with one child**: the child, then the node. -/
theorem walkInside_one {next : α → Walk τ (Option Node)}
    (hchild : Mirrors raw (walkWithin hooks fuel child) (left <$> w))
    (hnodes : visitOrder fields.nodes = [(name, child)])
    (hkept : ∀ a, lostElement tag (fields.put name (left a)) = false)
    (hexit : ∀ a, Mirrors raw (settle hooks.exit (.mk tag (fields.put name (left a)) span)) (next a)) :
    Mirrors raw (walkInside hooks fuel (.mk tag fields span)) (w >>= next) := by
  simp only [walkInside, Node.fields, Node.tag, Node.span, hnodes, visitEach, bind_assoc, pure_bind]
  refine hchild.bind_map fun a => ?_
  simpa [hkept a] using hexit a

/-- **A node with two children**: both in the order of visiting, then the node. -/
theorem walkInside_two {next : α → β → Walk τ (Option Node)}
    (hchild : Mirrors raw (walkWithin hooks fuel child) (left <$> w))
    (hchild' : Mirrors raw (walkWithin hooks fuel child') (left' <$> w'))
    (hnodes : visitOrder fields.nodes = [(name, child), (name', child')])
    (hkept : ∀ a b, lostElement tag ((fields.put name (left a)).put name' (left' b)) = false)
    (hexit : ∀ a b, Mirrors raw (settle hooks.exit
      (.mk tag ((fields.put name (left a)).put name' (left' b)) span)) (next a b)) :
    Mirrors raw (walkInside hooks fuel (.mk tag fields span))
      (w >>= fun a => w' >>= fun b => next a b) := by
  simp only [walkInside, Node.fields, Node.tag, Node.span, hnodes, visitEach, bind_assoc, pure_bind]
  refine hchild.bind_map fun a => hchild'.bind_map fun b => ?_
  simpa [hkept a b] using hexit a b

/-- **A node with three children**: all in the order of visiting, then the node. -/
theorem walkInside_three {next : α → β → γ → Walk τ (Option Node)}
    (hchild : Mirrors raw (walkWithin hooks fuel child) (left <$> w))
    (hchild' : Mirrors raw (walkWithin hooks fuel child') (left' <$> w'))
    (hchild'' : Mirrors raw (walkWithin hooks fuel child'') (left'' <$> w''))
    (hnodes : visitOrder fields.nodes = [(name, child), (name', child'), (name'', child'')])
    (hkept : ∀ a b c, lostElement tag
      (((fields.put name (left a)).put name' (left' b)).put name'' (left'' c)) = false)
    (hexit : ∀ a b c, Mirrors raw (settle hooks.exit
      (.mk tag (((fields.put name (left a)).put name' (left' b)).put name'' (left'' c)) span))
      (next a b c)) :
    Mirrors raw (walkInside hooks fuel (.mk tag fields span))
      (w >>= fun a => w' >>= fun b => w'' >>= fun c => next a b c) := by
  simp only [walkInside, Node.fields, Node.tag, Node.span, hnodes, visitEach, bind_assoc, pure_bind]
  refine hchild.bind_map fun a => hchild'.bind_map fun b => hchild''.bind_map fun c => ?_
  simpa [hkept a b c] using hexit a b c

variable (henter : hooks.enter (.mk tag fields span) = pure .keep)
  (hframed : (Node.mk tag fields span).framed = true)
include henter hframed

theorem walkWithin_leaf {next : Walk τ (Option Node)} (hnodes : visitOrder fields.nodes = [])
    (hexit : Mirrors raw (settle hooks.exit (.mk tag fields span)) next) :
    Mirrors raw (walkWithin hooks (fuel + 1) (.mk tag fields span)) next := by
  have hkept := hframed
  simp only [Node.framed, Node.fields, Node.tag, Bool.and_eq_true, Bool.not_eq_true'] at hkept
  exact walkWithin_pass henter hframed (walkInside_leaf hnodes hkept.2 hexit)

theorem walkWithin_one {next : α → Walk τ (Option Node)}
    (hchild : Mirrors raw (walkWithin hooks fuel child) (left <$> w))
    (hnodes : visitOrder fields.nodes = [(name, child)])
    (hkept : ∀ a, lostElement tag (fields.put name (left a)) = false)
    (hexit : ∀ a, Mirrors raw (settle hooks.exit (.mk tag (fields.put name (left a)) span)) (next a)) :
    Mirrors raw (walkWithin hooks (fuel + 1) (.mk tag fields span)) (w >>= next) :=
  walkWithin_pass henter hframed (walkInside_one hchild hnodes hkept hexit)

theorem walkWithin_two {next : α → β → Walk τ (Option Node)}
    (hchild : Mirrors raw (walkWithin hooks fuel child) (left <$> w))
    (hchild' : Mirrors raw (walkWithin hooks fuel child') (left' <$> w'))
    (hnodes : visitOrder fields.nodes = [(name, child), (name', child')])
    (hkept : ∀ a b, lostElement tag ((fields.put name (left a)).put name' (left' b)) = false)
    (hexit : ∀ a b, Mirrors raw (settle hooks.exit
      (.mk tag ((fields.put name (left a)).put name' (left' b)) span)) (next a b)) :
    Mirrors raw (walkWithin hooks (fuel + 1) (.mk tag fields span))
      (w >>= fun a => w' >>= fun b => next a b) :=
  walkWithin_pass henter hframed (walkInside_two hchild hchild' hnodes hkept hexit)

theorem walkWithin_three {next : α → β → γ → Walk τ (Option Node)}
    (hchild : Mirrors raw (walkWithin hooks fuel child) (left <$> w))
    (hchild' : Mirrors raw (walkWithin hooks fuel child') (left' <$> w'))
    (hchild'' : Mirrors raw (walkWithin hooks fuel child'') (left'' <$> w''))
    (hnodes : visitOrder fields.nodes = [(name, child), (name', child'), (name'', child'')])
    (hkept : ∀ a b c, lostElement tag
      (((fields.put name (left a)).put name' (left' b)).put name'' (left'' c)) = false)
    (hexit : ∀ a b c, Mirrors raw (settle hooks.exit
      (.mk tag (((fields.put name (left a)).put name' (left' b)).put name'' (left'' c)) span))
      (next a b c)) :
    Mirrors raw (walkWithin hooks (fuel + 1) (.mk tag fields span))
      (w >>= fun a => w' >>= fun b => w'' >>= fun c => next a b c) :=
  walkWithin_pass henter hframed (walkInside_three hchild hchild' hchild'' hnodes hkept hexit)

end Children

/-! ## 6. Walks that succeed -/

section Succeeds

variable {hooks : Hooks σ} {n : Node} {fuel : Nat} {left : Option Node} {s s' : σ}

/-- A walk that succeeds went inside what was put in the place of the node. -/
theorem walkInside_of_entered {s1 : σ} {entered : Verdict} {m : Node}
    (henter : (hooks.enter n).outcome s = (.ok entered, s1)) (hentered : entered.apply n = some m)
    (hframed : m.framed = true) (h : (walkWithin hooks (fuel + 1) n).outcome s = (.ok left, s')) :
    (walkInside hooks fuel m).outcome s1 = (.ok left, s') := by
  rw [walkWithin_succ, Walk.outcome_bind_of_ok henter, walkEntered_eq hentered hframed] at h
  exact h

theorem not_walkWithin_zero : (walkWithin hooks 0 n).outcome s ≠ (.ok left, s') := by
  intro h
  cases (Prod.mk.inj h).1

/-- A walk that succeeds went inside the node, if it did nothing on the way in. -/
theorem walkInside_of_pass (henter : hooks.enter n = pure .keep) (hframed : n.framed = true)
    (h : (walkWithin hooks fuel n).outcome s = (.ok left, s')) :
    ∃ fuel', fuel = fuel' + 1 ∧ (walkInside hooks fuel' n).outcome s = (.ok left, s') := by
  cases fuel with
  | zero => exact absurd h not_walkWithin_zero
  | succ fuel => exact ⟨fuel, rfl, walkInside_of_entered (by rw [henter]; rfl) rfl hframed h⟩

/-- A node in which a walk changes nothing, if it succeeds. -/
inductive Still (hooks : Hooks σ) : Node → Prop
  | mk {n : Node} : n.framed = true → hooks.enter n = pure .keep →
      (∀ {verdict : Verdict} {s s' : σ}, (hooks.exit n).outcome s = (.ok verdict, s') →
        verdict = .keep ∧ s' = s) →
      (∀ entry ∈ n.fields.nodes, Still hooks entry.2) → Still hooks n

theorem visitEach_still {visit : Node → Walk σ (Option Node)} {fields : Fields}
    (hordered : fields.ordered = true) : ∀ {entries : List (String × Node)} {left : Fields} {s s' : σ},
    (∀ entry ∈ entries, entry ∈ fields.nodes ∧ ∀ {left : Option Node} {s s' : σ},
      (visit entry.2).outcome s = (.ok left, s') → left = some entry.2 ∧ s' = s) →
    (visitEach visit entries fields).outcome s = (.ok left, s') → left = fields ∧ s' = s
  | [], _, _, _, _, h => by
    obtain ⟨rfl, rfl⟩ := Walk.outcome_pure_eq_ok.mp h
    exact ⟨rfl, rfl⟩
  | entry :: rest, _, _, _, hentries, h => by
    obtain ⟨⟨hmem, hstill⟩, hrest⟩ := List.forall_mem_cons.mp hentries
    obtain ⟨child, s1, hchild, hmore⟩ := Walk.outcome_bind_eq_ok.mp h
    obtain ⟨rfl, rfl⟩ := hstill hchild
    have hself : fields.put entry.1 (some entry.2) = fields := Fields.set_self hordered hmem
    rw [hself] at hmore
    exact visitEach_still hordered hrest hmore

/-- **A walk that succeeds in a still subtree** leaves it, and the state. -/
theorem Still.kept (h : Still hooks n) : ∀ {fuel : Nat} {left : Option Node} {s s' : σ},
    (walkWithin hooks fuel n).outcome s = (.ok left, s') → left = some n ∧ s' = s := by
  induction h with
  | @mk n hframed henter hexit _ ih =>
    intro fuel left s s' hrun
    obtain ⟨fuel, rfl, hinside⟩ := walkInside_of_pass henter hframed hrun
    obtain ⟨fields, s1, hfields, hleave⟩ := Walk.outcome_bind_eq_ok.mp hinside
    simp only [Node.framed, Bool.and_eq_true, Bool.not_eq_true'] at hframed
    obtain ⟨rfl, rfl⟩ := visitEach_still hframed.1 (fun entry hentry =>
      ⟨mem_of_mem_visitOrder hentry, ih entry (mem_of_mem_visitOrder hentry)⟩) hfields
    have hn : Node.mk n.tag n.fields n.span = n := by cases n; rfl
    rw [if_neg (by rw [hframed.2]; exact Bool.false_ne_true), hn, settle, Walk.outcome_map,
      Prod.mk.injEq] at hleave
    obtain ⟨verdict, hverdict, rfl⟩ := map_eq_ok.mp hleave.1
    obtain ⟨rfl, hs⟩ := hexit (Prod.ext hverdict hleave.2)
    exact ⟨rfl, hs⟩

/-- What is left of a node that a walk does nothing to on the way out: the node with what is left of
its children. -/
theorem walkInside_ok (hexit : ∀ m : Node, m.tag = n.tag → hooks.exit m = pure .keep)
    (h : (walkInside hooks fuel n).outcome s = (.ok left, s')) : ∃ fields,
      (visitEach (walkWithin hooks fuel) (visitOrder n.fields.nodes) n.fields).outcome s =
        (.ok fields, s') ∧ (lostElement n.tag fields = false → left = some (.mk n.tag fields n.span)) := by
  obtain ⟨fields, s1, hfields, hleave⟩ := Walk.outcome_bind_eq_ok.mp h
  cases hlost : lostElement n.tag fields with
  | true =>
    rw [hlost, if_pos rfl] at hleave
    obtain ⟨-, rfl⟩ := Walk.outcome_pure_eq_ok.mp hleave
    exact ⟨fields, hfields, by simp [hlost]⟩
  | false =>
    rw [hlost, if_neg Bool.false_ne_true, settle, hexit (.mk n.tag fields n.span) rfl,
      map_pure] at hleave
    obtain ⟨rfl, rfl⟩ := Walk.outcome_pure_eq_ok.mp hleave
    exact ⟨fields, hfields, fun _ => rfl⟩

end Succeeds

end Lode
