/-
# Passing nodes

A walk that succeeds passes a node in one of three ways.  The enter hook removes the node; or it leaves a
cell of a sequence that then loses its element, so that the successor takes the cell's place and the exit
hook does not run; or the exit hook says what is left (`Passes`).  This holds for all trees, however they
are put together, and everything a walk does to a tree follows from it.

A walk over a tree is made of the walks over the nodes that it comes to, from the states in which it comes
to them (`Comes`).  The children of a node are visited in their order, each with the attributes that the
verdicts on those before it have left, so what a visit finds is not what the node was built with; but an
attribute is changed by the verdict on it alone (`get?_judged`), and the walk over a child begins with that
child (`visitChildren_append_eq_ok`).

If the enter hook keeps every node, what is left of a tree has a property everywhere that the exit hook
gives to nodes whose children have it (`everywhere_of_exit`).  What such a walk leaves of a node before the
exit hook runs is the node with other children in the place of its own (`Node.Refills`), and the exit hook
is the only one that has to be looked at.
-/
import Lode.Proofs.Pattern.Matching
import Lode.Proofs.Tree.Walk

namespace Lode

variable {σ : Type}

/-! ## 1. Children -/

/-- Every child is visited. -/
theorem mem_visitOrder_of_mem {entries : List (String × Node)} {entry : String × Node}
    (h : entry ∈ entries) : entry ∈ visitOrder entries := by
  simp only [visitOrder, List.mem_append, List.mem_filter, h, true_and, Bool.and_eq_true, bne_iff_ne,
    beq_iff_eq]
  tauto

/-- Whether a verdict changes a node. -/
def Verdict.changes : Verdict → Bool
  | .keep => false
  | _ => true

/-- The attributes of a parent after a verdict on one of its children. -/
def Fields.judged (fields : Fields) (name : String) : Verdict → Fields
  | .keep => fields
  | .replace n => fields.set name (.node n)
  | .remove => fields.erase name

/-- The children are visited one after the other, each with the attributes that are left so far. -/
theorem visitChildren_cons (visit : Node → Walk σ Verdict) (name : String) (child : Node)
    (rest : List (String × Node)) (fields : Fields) (changed : Bool) :
    visitChildren visit ((name, child) :: rest) fields changed =
      visit child >>= fun verdict =>
        visitChildren visit rest (fields.judged name verdict) (changed || verdict.changes) := by
  rw [visitChildren]
  refine bind_congr fun verdict => ?_
  cases verdict with
  | keep => simp [Fields.judged, Verdict.changes]
  | replace n => simp [Fields.judged, Verdict.changes]
  | remove => simp [Fields.judged, Verdict.changes]

/-- Visiting the children one after the other. -/
theorem visitChildren_cons_eq_ok {visit : Node → Walk σ Verdict} {name : String} {child : Node}
    {rest : List (String × Node)} {fields : Fields} {changed : Bool} {left : Fields × Bool} {s s' : σ} :
    (visitChildren visit ((name, child) :: rest) fields changed).outcome s = (.ok left, s') ↔
      ∃ verdict s1, (visit child).outcome s = (.ok verdict, s1) ∧
        (visitChildren visit rest (fields.judged name verdict) (changed || verdict.changes)).outcome s1 =
          (.ok left, s') := by
  rw [visitChildren_cons, Walk.outcome_bind_eq_ok]

theorem visitChildren_nil_eq_ok {visit : Node → Walk σ Verdict} {fields : Fields} {changed : Bool}
    {left : Fields × Bool} {s s' : σ} :
    (visitChildren visit [] fields changed).outcome s = (.ok left, s') ↔
      (fields, changed) = left ∧ s = s' :=
  Walk.outcome_pure_eq_ok

/-- Children that are all kept leave the attributes as they are. -/
theorem visitChildren_unchanged {visit : Node → Walk σ Verdict} :
    ∀ {entries : List (String × Node)} {fields fields' : Fields} {changed : Bool} {s s' : σ},
      (visitChildren visit entries fields changed).outcome s = (.ok (fields', false), s') →
      fields' = fields ∧ changed = false
  | [], _, _, _, _, _, h => by
    obtain ⟨heq, -⟩ := visitChildren_nil_eq_ok.mp h
    obtain ⟨rfl, rfl⟩ := Prod.mk.inj heq
    exact ⟨rfl, rfl⟩
  | (name, child) :: rest, fields, _, changed, _, _, h => by
    obtain ⟨verdict, s1, -, hrest⟩ := visitChildren_cons_eq_ok.mp h
    obtain ⟨hfields, hchanged⟩ := visitChildren_unchanged hrest
    obtain ⟨rfl, hkept⟩ := Bool.or_eq_false_iff.mp hchanged
    cases verdict with
    | keep => exact ⟨hfields, rfl⟩
    | _ => cases hkept

/-- What every visit keeps is kept by visiting the children. -/
theorem visitChildren_keeps (Kept : σ → σ → Prop) (hrefl : ∀ s, Kept s s)
    (htrans : ∀ {a b c : σ}, Kept a b → Kept b c → Kept a c) {visit : Node → Walk σ Verdict}
    (hvisit : ∀ {child : Node} {verdict : Verdict} {s s' : σ},
      (visit child).outcome s = (.ok verdict, s') → Kept s s') :
    ∀ {entries : List (String × Node)} {fields : Fields} {changed : Bool} {left : Fields × Bool}
      {s s' : σ},
      (visitChildren visit entries fields changed).outcome s = (.ok left, s') → Kept s s'
  | [], _, _, _, _, _, h => by
    obtain ⟨-, rfl⟩ := visitChildren_nil_eq_ok.mp h
    exact hrefl _
  | (_, _) :: _, _, _, _, _, _, h => by
    obtain ⟨verdict, s1, hchild, hrest⟩ := visitChildren_cons_eq_ok.mp h
    exact htrans (hvisit hchild) (visitChildren_keeps Kept hrefl htrans hvisit hrest)

/-- The walk over the children before one of them, and the walk over that one. -/
theorem visitChildren_append_eq_ok {visit : Node → Walk σ Verdict} {back : List (String × Node)}
    {left : Fields × Bool} {s' : σ} : ∀ {front : List (String × Node)} {fields : Fields} {changed : Bool}
      {s : σ},
      (visitChildren visit (front ++ back) fields changed).outcome s = (.ok left, s') ↔
        ∃ middle s1, (visitChildren visit front fields changed).outcome s = (.ok middle, s1) ∧
          (visitChildren visit back middle.1 middle.2).outcome s1 = (.ok left, s')
  | [], fields, changed, s => by
    constructor
    · exact fun h => ⟨(fields, changed), s, rfl, h⟩
    · rintro ⟨_, _, hfront, hback⟩
      obtain ⟨rfl, rfl⟩ := visitChildren_nil_eq_ok.mp hfront
      exact hback
  | (name, child) :: front, fields, changed, s => by
    rw [List.cons_append, visitChildren_cons_eq_ok]
    constructor
    · rintro ⟨verdict, s1, hchild, hrest⟩
      obtain ⟨middle, s2, hfront, hback⟩ := visitChildren_append_eq_ok.mp hrest
      exact ⟨middle, s2, visitChildren_cons_eq_ok.mpr ⟨verdict, s1, hchild, hfront⟩, hback⟩
    · rintro ⟨middle, s2, hfront, hback⟩
      obtain ⟨verdict, s1, hchild, hrest⟩ := visitChildren_cons_eq_ok.mp hfront
      exact ⟨verdict, s1, hchild, visitChildren_append_eq_ok.mpr ⟨middle, s2, hrest, hback⟩⟩

/-! ## 2. Passing a node -/

/-- The walk over the children of a node. -/
def walkChildren (hooks : Hooks σ) (fuel : Nat) (m : Node) : Walk σ (Fields × Bool) :=
  visitChildren (transformWithin hooks fuel) (visitOrder m.fields.nodes) m.fields false

/-- The ways in which a walk that succeeds passes a node. -/
inductive Passes (hooks : Hooks σ) (fuel : Nat) (n : Node) (s : σ) : Verdict → σ → Prop
  /-- The enter hook removed the node. -/
  | removed {entered : Verdict} {s' : σ} :
      (hooks.enter n).outcome s = (.ok entered, s') → entered.apply n = none →
      Passes hooks fuel n s .remove s'
  /-- A cell lost its element and gave way to its successor. -/
  | collapsed {entered : Verdict} {m : Node} {fields : Fields} {s1 s' : σ} :
      (hooks.enter n).outcome s = (.ok entered, s1) → entered.apply n = some m →
      (walkChildren hooks fuel m).outcome s1 = (.ok (fields, true), s') →
      lostElement m.tag fields = true → Passes hooks fuel n s (collapse fields) s'
  /-- The exit hook said what is left. -/
  | left {entered verdict left : Verdict} {m : Node} {fields : Fields} {changed : Bool} {s1 s2 s' : σ} :
      (hooks.enter n).outcome s = (.ok entered, s1) → entered.apply n = some m →
      (walkChildren hooks fuel m).outcome s1 = (.ok (fields, changed), s2) →
      (hooks.exit (.mk m.tag fields m.span)).outcome s2 = (.ok verdict, s') →
      left.apply n = verdict.apply (.mk m.tag fields m.span) → Passes hooks fuel n s left s'

/-- **A walk that succeeds passes the node.** -/
theorem passes_of_ok {hooks : Hooks σ} {fuel : Nat} {n : Node} {left : Verdict} {s s' : σ}
    (h : (transformWithin hooks (fuel + 1) n).outcome s = (.ok left, s')) :
    Passes hooks fuel n s left s' := by
  obtain ⟨entered, s1, henter, h⟩ := Walk.outcome_bind_eq_ok.mp h
  cases hentered : entered.apply n with
  | none =>
    simp only [hentered] at h
    obtain ⟨rfl, rfl⟩ := Walk.outcome_pure_eq_ok.mp h
    exact .removed henter hentered
  | some m =>
    simp only [hentered] at h
    obtain ⟨⟨fields, changed⟩, s2, hchildren, h⟩ := Walk.outcome_bind_eq_ok.mp h
    cases changed with
    | true =>
      simp only [if_true] at h
      cases hlost : lostElement m.tag fields with
      | true =>
        rw [hlost, if_pos rfl] at h
        obtain ⟨rfl, rfl⟩ := Walk.outcome_pure_eq_ok.mp h
        exact .collapsed henter hentered hchildren hlost
      | false =>
        rw [hlost, if_neg Bool.false_ne_true] at h
        obtain ⟨verdict, s3, hexit, h⟩ := Walk.outcome_bind_eq_ok.mp h
        cases verdict with
        | keep =>
          obtain ⟨rfl, rfl⟩ := Walk.outcome_pure_eq_ok.mp h
          exact .left henter hentered hchildren hexit rfl
        | _ =>
          obtain ⟨rfl, rfl⟩ := Walk.outcome_pure_eq_ok.mp h
          exact .left henter hentered hchildren hexit rfl
    | false =>
      simp only [Bool.false_eq_true, if_false] at h
      obtain ⟨verdict, s3, hexit, h⟩ := Walk.outcome_bind_eq_ok.mp h
      -- nothing changed below, so the node that is left is the one that was entered
      obtain ⟨rfl, -⟩ := visitChildren_unchanged hchildren
      have hm : Node.mk m.tag m.fields m.span = m := by cases m; rfl
      rw [← hm] at hexit
      cases verdict with
      | keep =>
        obtain ⟨rfl, rfl⟩ := Walk.outcome_pure_eq_ok.mp h
        exact .left henter hentered hchildren hexit (hentered.trans (congrArg some hm.symm))
      | _ =>
        obtain ⟨rfl, rfl⟩ := Walk.outcome_pure_eq_ok.mp h
        exact .left henter hentered hchildren hexit rfl

theorem not_transformWithin_zero {hooks : Hooks σ} {n : Node} {left : Verdict} {s s' : σ} :
    (transformWithin hooks 0 n).outcome s ≠ (.ok left, s') := by
  intro h
  cases (Prod.mk.inj h).1

/-! ## 3. The nodes of a walk -/

/-- A walk over a node comes to a node of the tree below, with what is left of its budget, and in a
state. -/
inductive Comes (hooks : Hooks σ) : Nat → Node → σ → Nat → Node → σ → Prop
  /-- The node with which the walk begins. -/
  | here {fuel : Nat} {n : Node} {s : σ} : Comes hooks fuel n s fuel n s
  /-- The children before one of those that stand where the node stood are walked over, and then the
  walk is that over the child. -/
  | inside {fuel fuel' : Nat} {n n' m child : Node} {name : String} {entered : Verdict}
      {front back : List (String × Node)} {middle : Fields × Bool} {s s1 s2 s' : σ} :
      (hooks.enter n).outcome s = (.ok entered, s1) → entered.apply n = some m →
      visitOrder m.fields.nodes = front ++ (name, child) :: back →
      (visitChildren (transformWithin hooks fuel) front m.fields false).outcome s1 = (.ok middle, s2) →
      Comes hooks fuel child s2 fuel' n' s' → Comes hooks (fuel + 1) n s fuel' n' s'

/-- A walk that succeeds has succeeded at every node to which it came. -/
theorem Comes.ok {hooks : Hooks σ} {fuel fuel' : Nat} {n n' : Node} {s t : σ}
    (hcomes : Comes hooks fuel n s fuel' n' t) : ∀ {left : Verdict} {s' : σ},
      (transformWithin hooks fuel n).outcome s = (.ok left, s') →
      ∃ left' t', (transformWithin hooks fuel' n').outcome t = (.ok left', t') := by
  induction hcomes with
  | here => exact fun h => ⟨_, _, h⟩
  | @inside fuel fuel' n n' m child name entered front back middle s s1 s2 t henter hentered hsplit
      hfront _ ih =>
    intro left s' h
    have hchildren : ∃ result s3,
        (walkChildren hooks fuel m).outcome s1 = (.ok result, s3) := by
      cases passes_of_ok h with
      | removed henter' hentered' =>
        obtain ⟨⟨⟩, rfl⟩ := Prod.mk.inj (henter.symm.trans henter')
        cases hentered.symm.trans hentered'
      | collapsed henter' hentered' hchildren _ =>
        obtain ⟨⟨⟩, rfl⟩ := Prod.mk.inj (henter.symm.trans henter')
        obtain rfl := Option.some.inj (hentered.symm.trans hentered')
        exact ⟨_, _, hchildren⟩
      | left henter' hentered' hchildren _ _ =>
        obtain ⟨⟨⟩, rfl⟩ := Prod.mk.inj (henter.symm.trans henter')
        obtain rfl := Option.some.inj (hentered.symm.trans hentered')
        exact ⟨_, _, hchildren⟩
    obtain ⟨result, s3, hchildren⟩ := hchildren
    rw [walkChildren, hsplit] at hchildren
    obtain ⟨middle', s2', hfront', hback⟩ := visitChildren_append_eq_ok.mp hchildren
    obtain ⟨⟨⟩, rfl⟩ := Prod.mk.inj (hfront.symm.trans hfront')
    obtain ⟨verdict, s4, hchild, -⟩ := visitChildren_cons_eq_ok.mp hback
    exact ih hchild

/-! ## 4. What is left everywhere -/

namespace Fields

/-- A child is found by its name. -/
theorem get?_of_mem_nodes {name : String} {n : Node} : ∀ {fields : Fields}, fields.ordered = true →
    (name, n) ∈ fields.nodes → fields.get? name = some (.node n)
  | cons first v rest, hordered, h => by
    simp only [ordered, Bool.and_eq_true] at hordered
    have hrest : (name, n) ∈ rest.nodes → (cons first v rest).get? name = some (.node n) := fun h => by
      have hlt := lt_of_mem_names hordered.2 hordered.1 name (mem_names_of_mem_nodes h)
      have hne : name ≠ first := by
        rintro rfl
        exact absurd (Std.ReflCmp.compare_self.symm.trans hlt) (by decide)
      rw [get?, if_neg (by simpa using hne)]
      exact get?_of_mem_nodes hordered.2 h
    cases v with
    | node m =>
      rcases List.mem_cons.mp h with heq | h
      · obtain ⟨rfl, rfl⟩ := Prod.mk.inj heq
        simp [get?]
      · exact hrest h
    | _ => exact hrest h

/-- A name in front of all others is not there. -/
theorem get?_eq_none_of_after {name : String} : ∀ {fields : Fields}, fields.ordered = true →
    fields.after name = true → fields.get? name = none
  | nil, _, _ => rfl
  | cons first v rest, hordered, hafter => by
    simp only [ordered, Bool.and_eq_true] at hordered
    have hlt : compare name first = .lt := by simpa [after] using hafter
    have hne : name ≠ first := by
      rintro rfl
      exact absurd (Std.ReflCmp.compare_self.symm.trans hlt) (by decide)
    have hrest : rest.after name = true := by
      cases rest with
      | nil => rfl
      | cons second _ _ =>
        have hsecond : compare first second = .lt := by simpa [after] using hordered.1
        simpa [after] using Std.TransCmp.lt_trans hlt hsecond
    rw [get?, if_neg (by simpa using hne)]
    exact get?_eq_none_of_after hordered.2 hrest

/-- What is found once an attribute is erased. -/
theorem get?_erase {name : String} (key : String) : ∀ {fields : Fields}, fields.ordered = true →
    (fields.erase name).get? key = if key = name then none else fields.get? key
  | nil, _ => by simp [erase, get?]
  | cons first v rest, hordered => by
    simp only [ordered, Bool.and_eq_true] at hordered
    have ih : (rest.erase name).get? key = if key = name then none else rest.get? key :=
      get?_erase key hordered.2
    simp only [erase, get?]
    split
    · rename_i heq
      obtain rfl : name = first := by simpa using heq
      by_cases hkey : key = name
      · rw [if_pos hkey, hkey]
        exact get?_eq_none_of_after hordered.2 hordered.1
      · simp [hkey]
    · rename_i hne
      have hne : name ≠ first := by simpa using hne
      by_cases hkey : key = first
      · subst hkey
        simp [get?, Ne.symm hne]
      · simp [get?, hkey, ih]

theorem get?_cons_self (name : String) (v : Value) (rest : Fields) : (cons name v rest).get? name = some v := by
  simp [get?]

/-- Attributes in order are known by their values. -/
theorem eq_of_get? : ∀ {fields fields' : Fields}, fields.ordered = true → fields'.ordered = true →
    (∀ key, fields.get? key = fields'.get? key) → fields = fields'
  | nil, nil, _, _, _ => rfl
  | nil, cons name v rest, _, _, h => by simpa [get?] using h name
  | cons name v rest, nil, _, _, h => by simpa [get?] using h name
  | cons name v rest, cons name' v' rest', hordered, hordered', h => by
    have hname : name = name' := by
      have hhere := h name
      have hthere := h name'
      rw [get?_cons_self] at hhere hthere
      cases hcompare : compare name name' with
      | lt => cases hhere.trans (get?_eq_none_of_after hordered' (by simp [after, hcompare]))
      | eq => exact Std.LawfulEqCmp.eq_of_compare hcompare
      | gt =>
        have hlt : compare name' name = .lt := Std.OrientedCmp.gt_iff_lt.mp hcompare
        cases hthere.symm.trans (get?_eq_none_of_after hordered (by simp [after, hlt]))
    subst hname
    simp only [ordered, Bool.and_eq_true] at hordered hordered'
    have hvalue := h name
    rw [get?_cons_self, get?_cons_self] at hvalue
    obtain rfl := Option.some.inj hvalue
    have hrest : rest = rest' := eq_of_get? hordered.2 hordered'.2 fun key => by
      by_cases hkey : key = name
      · rw [hkey, get?_eq_none_of_after hordered.2 hordered.1, get?_eq_none_of_after hordered'.2 hordered'.1]
      · have hsame := h key
        simpa [get?, hkey] using hsame
    rw [hrest]

/-- A verdict on a child changes that attribute only. -/
theorem get?_judged {name key : String} {n : Node} {verdict : Verdict} {fields : Fields}
    (hordered : fields.ordered = true) (h : (fields.judged name verdict).get? key = some (.node n)) :
    (key = name ∧ verdict = .replace n) ∨
      ((key = name → verdict = .keep) ∧ fields.get? key = some (.node n)) := by
  cases verdict with
  | keep => exact .inr ⟨fun _ => rfl, h⟩
  | replace m =>
    rw [judged, get?_set] at h
    split at h
    · rename_i hkey
      obtain rfl := Value.node.inj (Option.some.inj h)
      exact .inl ⟨hkey, rfl⟩
    · rename_i hkey
      exact .inr ⟨fun heq => absurd heq hkey, h⟩
  | remove =>
    rw [judged, get?_erase key hordered] at h
    split at h
    · cases h
    · rename_i hkey
      exact .inr ⟨fun heq => absurd heq hkey, h⟩

theorem ordered_judged {name : String} {fields : Fields} (h : fields.ordered = true) :
    ∀ verdict : Verdict, (fields.judged name verdict).ordered = true
  | .keep => h
  | .replace _ => ordered_set h
  | .remove => ordered_erase h

end Fields

/-- Visits that all succeed put what they leave in the place of each child. -/
theorem visitEach_eq_pure {visit : Node → Walk σ (Option Node)} {f : Node → Node} :
    ∀ {entries : List (String × Node)} {fields : Fields},
      (∀ entry ∈ entries, visit entry.2 = pure (some (f entry.2))) → fields.ordered = true →
      (entries.map Prod.fst).Nodup →
      ∃ left : Fields, visitEach visit entries fields = pure left ∧ left.ordered = true ∧
        (∀ entry ∈ entries, left.get? entry.1 = some (.node (f entry.2))) ∧
        ∀ key, key ∉ entries.map Prod.fst → left.get? key = fields.get? key
  | [], fields, _, hordered, _ => ⟨fields, rfl, hordered, by simp, fun _ _ => rfl⟩
  | (name, child) :: rest, fields, hvisit, hordered, hnodup => by
    obtain ⟨hhere, hrest⟩ := List.forall_mem_cons.mp hvisit
    obtain ⟨hnew, hnodup⟩ := List.nodup_cons.mp hnodup
    obtain ⟨left, hleft, hin, hchildren, hothers⟩ := visitEach_eq_pure hrest
      (Fields.ordered_put hordered (some (f child)) : (fields.put name (some (f child))).ordered = true) hnodup
    have hset : ∀ key, (fields.put name (some (f child))).get? key =
        if key = name then some (.node (f child)) else fields.get? key :=
      fun key => Fields.get?_set key name _ fields
    refine ⟨left, ?_, hin, List.forall_mem_cons.mpr ⟨?_, hchildren⟩, fun key hkey => ?_⟩
    · rw [visitEach, hhere, pure_bind, hleft]
    · rw [hothers name hnew, hset, if_pos rfl]
    · obtain ⟨hne, hkey⟩ := not_or.mp (mt List.mem_cons.mpr hkey)
      rw [hothers key hkey, hset, if_neg hne]

/-- A node with other children in the place of its own. -/
structure Node.Refills (n origin : Node) : Prop where
  tag : n.tag = origin.tag
  ordered : n.fields.ordered = true
  plain : ∀ {key : String} {v : Value}, v.node? = none → origin.get? key = some v → n.get? key = some v

section Everywhere

variable {P Q : Node → Prop}

/-- What visits leave of the children of a node, where every child is visited. -/
theorem visitChildren_left {visit : Node → Walk σ Verdict}
    (hvisit : ∀ {child : Node} {verdict : Verdict} {s s' : σ}, Q child →
      (visit child).outcome s = (.ok verdict, s') → ∀ left ∈ verdict.apply child, P left) :
    ∀ {entries : List (String × Node)} {fields : Fields} {changed : Bool} {left : Fields × Bool}
      {s s' : σ},
      fields.ordered = true → (∀ entry ∈ entries, Q entry.2) →
      (∀ name n, fields.get? name = some (.node n) → P n ∨ (name, n) ∈ entries) →
      (visitChildren visit entries fields changed).outcome s = (.ok left, s') →
      left.1.ordered = true ∧ ∀ name n, left.1.get? name = some (.node n) → P n
  | [], fields, changed, left, _, _, hordered, _, hfields, h => by
    obtain ⟨rfl, -⟩ := visitChildren_nil_eq_ok.mp h
    exact ⟨hordered, fun name n hn => (hfields name n hn).resolve_right List.not_mem_nil⟩
  | (name, child) :: rest, fields, changed, left, _, _, hordered, hentries, hfields, h => by
    obtain ⟨hchild, hrest⟩ := List.forall_mem_cons.mp hentries
    obtain ⟨verdict, s1, hrun, hmore⟩ := visitChildren_cons_eq_ok.mp h
    have hleft := hvisit hchild hrun
    refine visitChildren_left hvisit (Fields.ordered_judged hordered verdict) hrest (fun key n hn => ?_) hmore
    rcases Fields.get?_judged hordered hn with ⟨-, rfl⟩ | ⟨hkeep, hold⟩
    · exact .inl (hleft n rfl)
    · rcases hfields key n hold with hn | hmem
      · exact .inl hn
      · rcases List.mem_cons.mp hmem with heq | hmem
        · obtain ⟨rfl, rfl⟩ := Prod.mk.inj heq
          exact .inl (hleft _ (by rw [hkeep rfl]; rfl))
        · exact .inr hmem

/-- Attributes that are no children stay. -/
theorem visitChildren_plain {visit : Node → Walk σ Verdict} {key : String} {v : Value} :
    ∀ {entries : List (String × Node)} {fields : Fields} {changed : Bool} {left : Fields × Bool}
      {s s' : σ},
      fields.ordered = true → (∀ entry ∈ entries, entry.1 ≠ key) → fields.get? key = some v →
      (visitChildren visit entries fields changed).outcome s = (.ok left, s') → left.1.get? key = some v
  | [], fields, changed, left, _, _, _, _, hv, h => by
    obtain ⟨rfl, -⟩ := visitChildren_nil_eq_ok.mp h
    exact hv
  | (name, child) :: rest, fields, changed, left, _, _, hordered, hentries, hv, h => by
    obtain ⟨hname, hrest⟩ := List.forall_mem_cons.mp hentries
    obtain ⟨verdict, s1, -, hmore⟩ := visitChildren_cons_eq_ok.mp h
    refine visitChildren_plain (Fields.ordered_judged hordered verdict) hrest ?_ hmore
    cases verdict with
    | keep => exact hv
    | replace n => rw [Fields.judged, Fields.get?_set, if_neg hname.symm, hv]
    | remove => rw [Fields.judged, Fields.get?_erase key hordered, if_neg hname.symm, hv]

/-- **What is left of a tree**, if only the exit hook does something to it: what this hook leaves of nodes
whose children were left before. -/
theorem everywhere_of_exit {hooks : Hooks σ} (henter : ∀ n, hooks.enter n = pure .keep)
    (hexit : ∀ {origin n : Node} {verdict : Verdict} {s s' : σ}, Q origin → n.Refills origin →
      (∀ entry ∈ n.fields.nodes, entry.2.Everywhere P) → (hooks.exit n).outcome s = (.ok verdict, s') →
      ∀ left ∈ verdict.apply n, left.Everywhere P) :
    ∀ {fuel : Nat} {n : Node} {verdict : Verdict} {s s' : σ},
      n.Everywhere (fun m => m.fields.ordered = true ∧ Q m) →
      (transformWithin hooks fuel n).outcome s = (.ok verdict, s') →
      ∀ left ∈ verdict.apply n, left.Everywhere P := by
  intro fuel
  induction fuel with
  | zero => exact fun _ h => absurd h not_transformWithin_zero
  | succ fuel ih =>
    intro n verdict s s' hn h
    obtain ⟨⟨hordered, hQ⟩, hbelow⟩ := hn
    have hchildren : ∀ {result : Fields × Bool} {s1 s2 : σ},
        (walkChildren hooks fuel n).outcome s1 = (.ok result, s2) →
        result.1.ordered = true ∧ ∀ name m, result.1.get? name = some (.node m) → m.Everywhere P :=
      visitChildren_left ih hordered (fun entry hentry => hbelow entry (mem_of_mem_visitOrder hentry))
        fun name m hm => .inr (mem_visitOrder_of_mem (Fields.mem_nodes_of_get? hm))
    cases passes_of_ok h with
    | removed hrunEnter hgone =>
      rw [henter] at hrunEnter
      obtain ⟨rfl, -⟩ := Walk.outcome_pure_eq_ok.mp hrunEnter
      cases hgone
    | collapsed hrunEnter hleft hrun _ =>
      rw [henter] at hrunEnter
      obtain ⟨rfl, rfl⟩ := Walk.outcome_pure_eq_ok.mp hrunEnter
      obtain rfl := Option.some.inj hleft
      -- what takes the place of a cell without its element is the next cell, which was left of a child
      intro left hmem
      unfold collapse at hmem
      split at hmem
      · rename_i next hnext
        obtain ⟨value, hvalue, hnode⟩ := Option.bind_eq_some_iff.mp hnext
        obtain rfl := Option.some.inj hmem
        cases value with
        | node m =>
          obtain rfl := Option.some.inj hnode
          exact (hchildren hrun).2 _ _ hvalue
        | _ => cases hnode
      · cases hmem
    | @left _ _ _ _ fields _ _ _ _ hrunEnter hleft hrun hrunExit hsame =>
      rw [henter] at hrunEnter
      obtain ⟨rfl, rfl⟩ := Walk.outcome_pure_eq_ok.mp hrunEnter
      obtain rfl := Option.some.inj hleft
      obtain ⟨hfields, hall⟩ := hchildren hrun
      -- the exit hook sees the node with other children in the place of its own
      have hrefills : (Node.mk n.tag fields n.span).Refills n := by
        refine ⟨rfl, hfields, fun {key v} hplain hv => visitChildren_plain hordered ?_ hv hrun⟩
        rintro ⟨name, child⟩ hentry rfl
        have hchild := Fields.get?_of_mem_nodes hordered (mem_of_mem_visitOrder hentry)
        obtain rfl := Option.some.inj (hv.symm.trans hchild)
        cases hplain
      rw [hsame]
      exact hexit hQ hrefills
        (fun entry hentry => hall _ _ (Fields.get?_of_mem_nodes hfields hentry)) hrunExit

end Everywhere

end Lode
