/-
# Frames and the nodes they belong to

A frame is opened for a node because of its tag, and closed because of the tag that the node has when the
walk leaves it.  In between hooks may have changed tags, removed nodes and put others in their place, and
a cell of a sequence may have given way to its successor without being left at all.  Frames and nodes
still match (`frames_balanced`): the frame that is written back to a node is the one that was opened for
it, with what hooks have done to it since.

That the number of open frames is right again at the end does not say this, since a frame too few and
one too many would cancel out.  The invariant is about heights.  A hook that opens and closes no frames of
its own leaves every frame at its height, related to what it was (`InPlace`); entering a node puts at
most one frame on top of those (`enter_ok`), leaving it takes that one off again (`exit_ok`), and so a
whole walk leaves the frames in their places (`transformWithin_inPlace`).  The relation is arbitrary, as
long as it is reflexive and transitive: with `Evolves`, which is what hooks make of a frame, it says that
a frame found later is the same frame.

A walk has a budget for its depth, because an enter hook may return a tree that is deeper than the one it
was given.  Nothing here depends on the budget: all of it holds for walks with any budget that succeed,
those over trees that grow on the way included.
-/
import Lode.Proofs.Tree.Passing
import Mathlib.Data.List.Forall2
import Mathlib.Logic.Relation

namespace Lode.Scoped

variable {σ : Type} {R : ScopeFrame → ScopeFrame → Prop}

/-! ## 1. Hooks that leave the frames in their places -/

/-- A hook leaves as many frames open as it finds. -/
def KeepsFrames (hook : Node → Walk (Scoped σ) Verdict) : Prop :=
  ∀ {n : Node} {verdict : Verdict} {s s' : Scoped σ}, (hook n).outcome s = (.ok verdict, s') →
    s'.scopes.length = s.scopes.length

/-- Every frame that a hook finds is still there afterwards, and is related to what it was. -/
def InPlace (R : ScopeFrame → ScopeFrame → Prop) (hook : Node → Walk (Scoped σ) Verdict) : Prop :=
  ∀ {n : Node} {verdict : Verdict} {s s' : Scoped σ}, (hook n).outcome s = (.ok verdict, s') →
    List.Forall₂ R s.scopes s'.scopes

/-- A hook makes one frame out of another: the one it finds at a height, and the one it leaves there. -/
inductive Makes (hook : Node → Walk (Scoped σ) Verdict) : ScopeFrame → ScopeFrame → Prop
  | intro {n : Node} {verdict : Verdict} {s s' : Scoped σ} {i : Nat} {frame frame' : ScopeFrame} :
      (hook n).outcome s = (.ok verdict, s') → s.scopes[i]? = some frame →
      s'.scopes[i]? = some frame' → Makes hook frame frame'

/-- A frame after hooks have worked on it, any number of times. -/
def Evolves (h : Hooks (Scoped σ)) : ScopeFrame → ScopeFrame → Prop :=
  Relation.ReflTransGen fun frame frame' => Makes h.enter frame frame' ∨ Makes h.exit frame frame'

/-- What hooks leave as it is has not changed after any number of them. -/
theorem Evolves.related (hrefl : ∀ frame, R frame frame)
    (htrans : ∀ {a b c : ScopeFrame}, R a b → R b c → R a c) {h : Hooks (Scoped σ)}
    (henter : InPlace R h.enter) (hexit : InPlace R h.exit) {frame frame' : ScopeFrame}
    (hevolves : Evolves h frame frame') : R frame frame' := by
  have hmakes : ∀ {hook : Node → Walk (Scoped σ) Verdict} {a b : ScopeFrame}, InPlace R hook →
      Makes hook a b → R a b := by
    rintro hook a b hplace ⟨hrun, ha, hb⟩
    obtain ⟨hlt, rfl⟩ := List.getElem?_eq_some_iff.mp ha
    obtain ⟨hlt', rfl⟩ := List.getElem?_eq_some_iff.mp hb
    exact (hplace hrun).get hlt hlt'
  induction hevolves with
  | refl => exact hrefl _
  | tail _ hlast ih =>
    rcases hlast with hlast | hlast
    · exact htrans ih (hmakes henter hlast)
    · exact htrans ih (hmakes hexit hlast)

theorem KeepsFrames.inPlace {hook : Node → Walk (Scoped σ) Verdict} (hkeeps : KeepsFrames hook)
    (hmakes : ∀ {frame frame' : ScopeFrame}, Makes hook frame frame' → R frame frame') :
    InPlace R hook := by
  intro n verdict s s' hrun
  refine List.forall₂_iff_get.mpr ⟨(hkeeps hrun).symm, fun i hi hi' => hmakes ?_⟩
  exact .intro hrun (List.getElem?_eq_getElem hi) (List.getElem?_eq_getElem hi')

/-! ## 2. Entering and leaving -/

/-- The frame for a node in whose place the enter hook puts another one: its own, or, if it has none, that
of the other. -/
def opening (n m : Node) : ScopeFrame :=
  if Scopes.opens n.tag then .ofNode n else .ofNode m

/-- The frames once a node is entered: those around it, and one of its own if what was put in its place
opens one. -/
def Inside (R : ScopeFrame → ScopeFrame → Prop) (n : Node) (left : Option Node) (around inside : Scopes) :
    Prop :=
  match left with
  | some m =>
    if Scopes.opens m.tag then
      ∃ frame outer, inside = frame :: outer ∧ R (opening n m) frame ∧ List.Forall₂ R around outer
    else List.Forall₂ R around inside
  | none => List.Forall₂ R around inside

theorem inside_of_opens {n m : Node} {around inside : Scopes} (h : Scopes.opens m.tag = true) :
    Inside R n (some m) around inside ↔
      ∃ frame outer, inside = frame :: outer ∧ R (opening n m) frame ∧ List.Forall₂ R around outer := by
  rw [Inside, if_pos h]

theorem inside_of_plain {n m : Node} {around inside : Scopes} (h : Scopes.opens m.tag = false) :
    Inside R n (some m) around inside ↔ List.Forall₂ R around inside := by
  rw [Inside, h, if_neg Bool.false_ne_true]

section Hook

variable {hook : Node → Walk (Scoped σ) Verdict} {n m : Node} {verdict : Verdict} {s s' : Scoped σ}

theorem outcome_push : (push n).outcome s = (.ok ⟨⟩, { s with scopes := .ofNode n :: s.scopes }) := rfl

theorem outcome_pop {frame : ScopeFrame} {outer : Scopes} (h : s.scopes = frame :: outer) :
    (pop : Walk (Scoped σ) ScopeFrame).outcome s = (.ok frame, { s with scopes := outer }) := by
  rw [pop, Walk.outcome_modifyGet, h]

/-- **Entering a node** opens a frame for it if what is left of it has one, and otherwise none. -/
theorem enter_ok (hrefl : ∀ frame, R frame frame) (hplace : InPlace R hook)
    (h : (enter hook n).outcome s = (.ok verdict, s')) :
    Inside R n (verdict.apply n) s.scopes s'.scopes := by
  cases hopens : Scopes.opens n.tag with
  | true =>
    simp only [enter, hopens, if_true] at h
    obtain ⟨⟨⟩, s1, hpush, h⟩ := Walk.outcome_bind_eq_ok.mp h
    obtain ⟨-, rfl⟩ := Prod.mk.inj (outcome_push.symm.trans hpush)
    obtain ⟨entered, s2, hhook, h⟩ := Walk.outcome_bind_eq_ok.mp h
    obtain ⟨frame, outer, hframe, houter, hs2⟩ := List.forall₂_cons_left_iff.mp (hplace hhook)
    -- the frame stays open only if what is left of the node has one as well
    cases hentered : entered.apply n with
    | none =>
      simp only [hentered, Walk.outcome_bind_of_ok (outcome_pop hs2)] at h
      obtain ⟨rfl, rfl⟩ := Walk.outcome_pure_eq_ok.mp h
      rw [hentered]
      exact houter
    | some m =>
      cases hm : Scopes.opens m.tag with
      | true =>
        simp only [hentered, hm] at h
        obtain ⟨rfl, rfl⟩ := Walk.outcome_pure_eq_ok.mp h
        rw [hentered, inside_of_opens hm, opening, if_pos hopens]
        exact ⟨frame, outer, hs2, hframe, houter⟩
      | false =>
        simp only [hentered, hm, Walk.outcome_bind_of_ok (outcome_pop hs2)] at h
        obtain ⟨rfl, rfl⟩ := Walk.outcome_pure_eq_ok.mp h
        rw [hentered, inside_of_plain hm]
        exact houter
  | false =>
    simp only [enter, hopens, Bool.false_eq_true, if_false] at h
    obtain ⟨entered, s2, hhook, h⟩ := Walk.outcome_bind_eq_ok.mp h
    have hscopes := hplace hhook
    cases hentered : entered.apply n with
    | none =>
      simp only [hentered] at h
      obtain ⟨rfl, rfl⟩ := Walk.outcome_pure_eq_ok.mp h
      rw [hentered]
      exact hscopes
    | some m =>
      cases hm : Scopes.opens m.tag with
      | true =>
        -- a frame is opened for what is left of the node
        simp only [hentered, hm, Walk.outcome_bind_of_ok outcome_push] at h
        obtain ⟨rfl, rfl⟩ := Walk.outcome_pure_eq_ok.mp h
        rw [hentered, inside_of_opens hm, opening, hopens, if_neg Bool.false_ne_true]
        exact ⟨.ofNode m, s2.scopes, rfl, hrefl _, hscopes⟩
      | false =>
        simp only [hentered, hm] at h
        obtain ⟨rfl, rfl⟩ := Walk.outcome_pure_eq_ok.mp h
        rw [hentered, inside_of_plain hm]
        exact hscopes

/-- What is left of a node when a frame is written back to what a hook left of it. -/
def writtenBack (frame : ScopeFrame) (left : Option Node) : Option Node :=
  left.bind fun node => (frame.writeBack node).apply node

theorem exit_plain (hook : Node → Walk (Scoped σ) Verdict) (h : Scopes.opens n.tag = false) :
    exit hook n = hook n := by
  rw [exit, h]
  rfl

/-- **Leaving a node** that has a frame closes it, after the hook, and writes it back. -/
theorem exit_ok (hopens : Scopes.opens n.tag = true) (hplace : InPlace R hook) {frame : ScopeFrame}
    {outer : Scopes} (hscopes : s.scopes = frame :: outer)
    (h : (exit hook n).outcome s = (.ok verdict, s')) :
    ∃ left s1 frame', (hook n).outcome s = (.ok left, s1) ∧ s1.scopes = frame' :: s'.scopes ∧
      s1.own = s'.own ∧ R frame frame' ∧ List.Forall₂ R outer s'.scopes ∧
      verdict.apply n = writtenBack frame' (left.apply n) := by
  rw [exit, hopens] at h
  obtain ⟨left, s1, hhook, h⟩ := Walk.outcome_bind_eq_ok.mp h
  have hplaced := hplace hhook
  rw [hscopes] at hplaced
  obtain ⟨frame', outer', hframe, houter, hs1⟩ := List.forall₂_cons_left_iff.mp hplaced
  rw [Walk.outcome_bind_of_ok (outcome_pop hs1)] at h
  refine ⟨left, s1, frame', hhook, ?_⟩
  cases hleft : left.apply n with
  | none =>
    simp only [hleft] at h
    obtain ⟨rfl, rfl⟩ := Walk.outcome_pure_eq_ok.mp h
    exact ⟨hs1, rfl, hframe, houter, rfl⟩
  | some node =>
    simp only [hleft] at h
    cases hwritten : frame'.writeBack node with
    | keep =>
      simp only [hwritten] at h
      obtain ⟨rfl, rfl⟩ := Walk.outcome_pure_eq_ok.mp h
      refine ⟨hs1, rfl, hframe, houter, ?_⟩
      rw [hleft, writtenBack, Option.bind_some, hwritten]
      rfl
    | _ =>
      simp only [hwritten] at h
      obtain ⟨rfl, rfl⟩ := Walk.outcome_pure_eq_ok.mp h
      refine ⟨hs1, rfl, hframe, houter, ?_⟩
      rw [writtenBack, Option.bind_some, hwritten]
      rfl

end Hook

/-! ## 3. Walks -/

/-- Cells of sequences open no frames. -/
theorem opens_of_lostElement {tag : Tag} {fields : Fields} (h : lostElement tag fields = true) :
    Scopes.opens tag = false := by
  cases tag <;> first | rfl | cases h

section Walks

variable (hrefl : ∀ frame, R frame frame) (htrans : ∀ {a b c : ScopeFrame}, R a b → R b c → R a c)
include hrefl htrans

/-- Visiting children leaves the frames in their places if every visit does. -/
theorem visitChildren_inPlace {visit : Node → Walk (Scoped σ) Verdict} (hvisit : InPlace R visit)
    {entries : List (String × Node)} {fields : Fields} {changed : Bool} {left : Fields × Bool}
    {s s' : Scoped σ} (hrun : (visitChildren visit entries fields changed).outcome s = (.ok left, s')) :
    List.Forall₂ R s.scopes s'.scopes :=
  visitChildren_keeps (fun s s' : Scoped σ => List.Forall₂ R s.scopes s'.scopes)
    (fun _ => List.forall₂_same.mpr fun frame _ => hrefl frame) (forall₂_trans @htrans) hvisit hrun

variable {h : Hooks (Scoped σ)} (henter : InPlace R h.enter) (hexit : InPlace R h.exit)
include henter hexit

/-- **A walk leaves the frames in their places**, if its hooks do. -/
theorem transformWithin_inPlace (fuel : Nat) : InPlace R (transformWithin (hooks h) fuel) := by
  induction fuel with
  | zero => exact fun hrun => absurd hrun not_transformWithin_zero
  | succ fuel ih =>
    intro n left s s' hrun
    cases passes_of_ok hrun with
    | removed hrunEnter hgone =>
      have hinside := enter_ok hrefl henter hrunEnter
      rwa [hgone] at hinside
    | collapsed hrunEnter hleft hrunChildren hlost =>
      -- a cell that lost its element has no frame, so none is left open
      have hinside := enter_ok hrefl henter hrunEnter
      rw [hleft, inside_of_plain (opens_of_lostElement hlost)] at hinside
      exact forall₂_trans @htrans hinside (visitChildren_inPlace hrefl @htrans ih hrunChildren)
    | @left entered verdict _ m fields changed s1 s2 _ hrunEnter hleft hrunChildren hrunExit _ =>
      have hinside := enter_ok hrefl henter hrunEnter
      have hbelow := visitChildren_inPlace hrefl @htrans ih hrunChildren
      rw [hleft] at hinside
      cases hopens : Scopes.opens m.tag with
      | false =>
        rw [inside_of_plain hopens] at hinside
        have hrunHook : (h.exit (.mk m.tag fields m.span)).outcome s2 = (.ok verdict, s') := by
          rw [← exit_plain h.exit (n := .mk m.tag fields m.span) hopens]
          exact hrunExit
        exact forall₂_trans @htrans (forall₂_trans @htrans hinside hbelow) (hexit hrunHook)
      | true =>
        -- the exit hook closes the frame of the node again, so those around it are left
        obtain ⟨frame, outer, hs1, -, houter⟩ := (inside_of_opens hopens).mp hinside
        rw [hs1] at hbelow
        obtain ⟨frame', outer', -, houter', hs2⟩ := List.forall₂_cons_left_iff.mp hbelow
        obtain ⟨_, _, _, -, -, -, -, hrest, -⟩ :=
          exit_ok (n := .mk m.tag fields m.span) hopens hexit hs2 hrunExit
        exact forall₂_trans @htrans (forall₂_trans @htrans houter houter') hrest

/-- Where a walk comes to a node, the frames around the whole tree are still under the others. -/
theorem exists_frames_of_comes {fuel fuel' : Nat} {n n' : Node} {s t : Scoped σ}
    (hcomes : Comes (hooks h) fuel n s fuel' n' t) :
    ∃ inner outer, t.scopes = inner ++ outer ∧ List.Forall₂ R s.scopes outer := by
  induction hcomes with
  | here => exact ⟨[], _, rfl, List.forall₂_same.mpr fun frame _ => hrefl frame⟩
  | @inside fuel fuel' n n' m child name entered front back middle s s1 s2 t hrunEnter hleft _ hfront _ ih =>
    obtain ⟨inner, outer, ht, houter⟩ := ih
    have hinside := enter_ok hrefl henter hrunEnter
    have hbelow := visitChildren_inPlace hrefl @htrans
      (transformWithin_inPlace hrefl @htrans henter hexit fuel) hfront
    have hstill := forall₂_trans @htrans hbelow houter
    rw [hleft] at hinside
    cases hopens : Scopes.opens m.tag with
    | false =>
      rw [inside_of_plain hopens] at hinside
      exact ⟨inner, outer, ht, forall₂_trans @htrans hinside hstill⟩
    | true =>
      obtain ⟨frame, around, hs1, -, haround⟩ := (inside_of_opens hopens).mp hinside
      rw [hs1] at hstill
      obtain ⟨frame', outer', -, houter', rfl⟩ := List.forall₂_cons_left_iff.mp hstill
      exact ⟨inner ++ [frame'], outer', by rw [ht, List.append_assoc]; rfl,
        forall₂_trans @htrans haround houter'⟩

/-- The frame of a node that has one.  It is opened when the enter hook puts `m` in the place of `n`, which
leaves the walk in the state `s`; the exit hook finds it, and it is closed and written back to what that
hook leaves. -/
inductive Bracketed (R : ScopeFrame → ScopeFrame → Prop) (hook : Node → Walk (Scoped σ) Verdict)
    (n m : Node) (s : Scoped σ) (left : Verdict) (s' : Scoped σ) : Prop
  | intro {opened found closed : ScopeFrame} {outer outer' : Scopes} {node : Node} {verdict : Verdict}
      {s1 s2 : Scoped σ} : s.scopes = opened :: outer → R (opening n m) opened →
      node.tag = m.tag → s1.scopes = found :: outer' → R opened found →
      (hook node).outcome s1 = (.ok verdict, s2) → s2.scopes = closed :: s'.scopes → R found closed →
      left.apply n = writtenBack closed (verdict.apply node) → Bracketed R hook n m s left s'

/-- The frame that is opened for a node is the one that is closed for it. -/
theorem bracketed {fuel : Nat} {n m : Node} {entered left : Verdict} {s s1 s' : Scoped σ}
    (hrun : (transformWithin (hooks h) fuel n).outcome s = (.ok left, s'))
    (hrunEnter : ((hooks h).enter n).outcome s = (.ok entered, s1)) (hleft : entered.apply n = some m)
    (hopens : Scopes.opens m.tag = true) : Bracketed R h.exit n m s1 left s' := by
  obtain ⟨frame, outer, hs1, hframe, -⟩ :=
    (inside_of_opens hopens).mp (hleft ▸ enter_ok hrefl henter hrunEnter)
  cases fuel with
  | zero => exact absurd hrun not_transformWithin_zero
  | succ fuel =>
    cases passes_of_ok hrun with
    | removed hrunEnter' hgone =>
      obtain ⟨⟨⟩, rfl⟩ := Prod.mk.inj (hrunEnter.symm.trans hrunEnter')
      cases hleft.symm.trans hgone
    | collapsed hrunEnter' hleft' _ hlost =>
      obtain ⟨⟨⟩, rfl⟩ := Prod.mk.inj (hrunEnter.symm.trans hrunEnter')
      obtain rfl := Option.some.inj (hleft.symm.trans hleft')
      cases hopens.symm.trans (opens_of_lostElement hlost)
    | @left _ verdict _ m' fields changed _ s2 _ hrunEnter' hleft' hrunChildren hrunExit hsame =>
      obtain ⟨⟨⟩, rfl⟩ := Prod.mk.inj (hrunEnter.symm.trans hrunEnter')
      obtain rfl := Option.some.inj (hleft.symm.trans hleft')
      have hbelow := visitChildren_inPlace hrefl @htrans
        (transformWithin_inPlace hrefl @htrans henter hexit fuel) hrunChildren
      rw [hs1] at hbelow
      obtain ⟨found, outer', hfound, -, hs2⟩ := List.forall₂_cons_left_iff.mp hbelow
      obtain ⟨kept, s3, closed, hrunHook, hs3, -, hclosed, -, hwritten⟩ :=
        exit_ok (n := .mk m.tag fields m.span) hopens hexit hs2 hrunExit
      have htag : (Node.mk m.tag fields m.span).tag = m.tag := rfl
      exact .intro hs1 hframe htag hs2 hfound hrunHook hs3 hclosed (hsame.trans hwritten)

end Walks

/-- **Frames and nodes match.**  If no hook changes the number of open frames, a walk that succeeds,
whatever its budget, leaves as many open as there were.  At every node it comes to, the frames of the
nodes around that one are open, over those with which the walk began; and if what the enter hook leaves of
the node has a frame, the frame that is written back in the end is the one that was opened, after what
hooks did to it in between. -/
theorem frames_balanced {h : Hooks (Scoped σ)} (henter : KeepsFrames h.enter) (hexit : KeepsFrames h.exit)
    {depth : Nat} {tree : Node} {left : Verdict} {s s' : Scoped σ}
    (hrun : (transformWithin (hooks h) depth tree).outcome s = (.ok left, s')) :
    s'.scopes.length = s.scopes.length ∧ List.Forall₂ (Evolves h) s.scopes s'.scopes ∧
      ∀ {fuel : Nat} {n : Node} {t : Scoped σ}, Comes (hooks h) depth tree s fuel n t →
        (∃ inner outer, t.scopes = inner ++ outer ∧ List.Forall₂ (Evolves h) s.scopes outer) ∧
        ∃ left' t', (transformWithin (hooks h) fuel n).outcome t = (.ok left', t') ∧
          List.Forall₂ (Evolves h) t.scopes t'.scopes ∧
          ∀ {entered : Verdict} {m : Node} {t1 : Scoped σ},
            ((hooks h).enter n).outcome t = (.ok entered, t1) → entered.apply n = some m →
            Scopes.opens m.tag = true → Bracketed (Evolves h) h.exit n m t1 left' t' := by
  have hrefl : ∀ frame, Evolves h frame frame := fun _ => .refl
  have htrans : ∀ {a b c : ScopeFrame}, Evolves h a b → Evolves h b c → Evolves h a c := .trans
  have hplace : InPlace (Evolves h) h.enter := henter.inPlace fun hmakes => .single (.inl hmakes)
  have hplace' : InPlace (Evolves h) h.exit := hexit.inPlace fun hmakes => .single (.inr hmakes)
  have hwalk := transformWithin_inPlace hrefl @htrans hplace hplace'
  have hframes := hwalk _ hrun
  refine ⟨hframes.length_eq.symm, hframes, fun hcomes => ⟨?_, ?_⟩⟩
  · exact exists_frames_of_comes hrefl @htrans hplace hplace' hcomes
  · obtain ⟨left', t', hrun'⟩ := hcomes.ok hrun
    exact ⟨left', t', hrun', hwalk _ hrun', bracketed hrefl @htrans hplace hplace' hrun'⟩

/-- Hooks that define constants, bind names, remove declarations, and make scopes of brackets and units of
scopes. -/
def retagging : Hooks (Scoped Unit) where
  enter n :=
    match n.tag with
    | .letDecl => do
      modify fun s => { s with scopes := s.scopes.define "x" n }
      return .remove
    | .paren => return .replace (n.withTag .scope)
    | _ => return .keep
  exit n :=
    match n.tag with
    | .scope => do
      modify fun s => { s with scopes := (s.scopes.bind? "y" (.int 0)).getD s.scopes }
      return .replace (n.withTag .unit)
    | _ => return .keep

/-- A unit whose first statement is a declaration, and whose second one is a declaration in brackets. -/
def bracketedUnit : Node :=
  let declaration := Node.build .letDecl .nowhere []
  let brackets := Node.build .paren .nowhere [("expr", .node declaration)]
  let inner := Node.build .stmts .nowhere [("stmt", .node brackets)]
  .build .unit .nowhere [("body", .node (.build .stmts .nowhere
    [("stmt", .node declaration), ("next", .node inner)]))]

theorem frames_balanced_retagging : KeepsFrames retagging.enter ∧ KeepsFrames retagging.exit ∧
    ∃ left s', (transformWithin (hooks retagging) 9 bracketedUnit).outcome ⟨[{}], ()⟩ = (.ok left, s') ∧
      s'.scopes.length = 1 := by
  have henter : KeepsFrames retagging.enter := by
    intro n verdict s s' hrun
    simp only [retagging] at hrun
    split at hrun
    · rw [Walk.outcome_bind_of_ok (Walk.outcome_modify _)] at hrun
      obtain ⟨-, rfl⟩ := Walk.outcome_pure_eq_ok.mp hrun
      cases s.scopes <;> simp [Scopes.define]
    · obtain ⟨-, rfl⟩ := Walk.outcome_pure_eq_ok.mp hrun
      rfl
    · obtain ⟨-, rfl⟩ := Walk.outcome_pure_eq_ok.mp hrun
      rfl
  have hexit : KeepsFrames retagging.exit := by
    intro n verdict s s' hrun
    simp only [retagging] at hrun
    split at hrun
    · rw [Walk.outcome_bind_of_ok (Walk.outcome_modify _)] at hrun
      obtain ⟨-, rfl⟩ := Walk.outcome_pure_eq_ok.mp hrun
      cases s.scopes with
      | nil => simp [Scopes.bind?]
      | cons frame outer => cases hhas : frame.names.has "y" <;> simp [Scopes.bind?, hhas]
    · obtain ⟨-, rfl⟩ := Walk.outcome_pure_eq_ok.mp hrun
      rfl
  obtain ⟨left, s', hrun⟩ : ∃ left s',
      (transformWithin (hooks retagging) 9 bracketedUnit).outcome ⟨[{}], ()⟩ = (.ok left, s') :=
    ⟨_, _, rfl⟩
  exact ⟨henter, hexit, left, s', hrun, (frames_balanced henter hexit hrun).1⟩

end Lode.Scoped
