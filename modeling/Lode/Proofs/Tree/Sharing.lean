/-
# Sharing is invisible

A walk keeps what did not change and rebuilds the rest.  The plain traversal always rebuilds (`Rebuilds`):
it enters a node, goes through the children that stand there, puts what is left of each in its place, and
hands what it has built to the exit hook, unless a cell lost its element and its successor takes its place.
It has no budget, and no notion of a node that is kept.

On trees that are put together as trees are, both call the same hooks with the same nodes in the same order,
end in the same state, and leave the same tree or fail with the same error (`sharing_invisible`).  The calls
are made visible by hooks that write down what they are asked and what they answer (`Hooks.logged`).

A walk has a budget for its depth because hooks may put deeper and deeper trees in the place of a node.  A
walk that is not stopped by its budget comes to the same with every greater one, which is what it comes to
at all (`ComesTo`).

Several of these facts are about all computations that are put together from calls of hooks: that a greater
budget gives the same, that writing calls down changes nothing else, that no call is struck out.  A relation
of computations that holds of a sequence if it holds of its parts (`Walk.Composes`) holds of walks if it
holds of hooks (`Composes.transformWithin`), and so each of them is shown for binds and for single calls
only.
-/
import Lode.Proofs.Tree.Passing

namespace Lode

open Walk (Mirrors)

variable {σ τ α β : Type}

/-- The failure of a walk that went deeper than its budget. -/
def exhausted : Error := InternalProblem.outOfFuel.error

/-! ## 1. Steps of a walk -/

/-- Leaves the node that stands where a node was, once its children were walked over. -/
def walkOut (hooks : Hooks σ) (entered : Verdict) (m : Node) (result : Fields × Bool) : Walk σ Verdict := do
  if result.2 then
    if lostElement m.tag result.1 then return collapse result.1
    match ← hooks.exit (.mk m.tag result.1 m.span) with
    | .keep => return .replace (.mk m.tag result.1 m.span)
    | verdict => return verdict
  else
    match ← hooks.exit m with
    | .keep => return entered
    | verdict => return verdict

/-- Goes on with what the enter hook put in the place of a node. -/
def walkOn (hooks : Hooks σ) (fuel : Nat) (n : Node) (entered : Verdict) : Walk σ Verdict :=
  match entered.apply n with
  | none => pure .remove
  | some m => walkChildren hooks fuel m >>= walkOut hooks entered m

/-- A walk with a budget enters the node and goes on. -/
theorem transformWithin_succ (hooks : Hooks σ) (fuel : Nat) (n : Node) :
    transformWithin hooks (fuel + 1) n = hooks.enter n >>= walkOn hooks fuel n := by
  rw [transformWithin]
  refine bind_congr fun entered => ?_
  unfold walkOn
  cases entered.apply n with
  | none => rfl
  | some m => rfl

/-- A relation of computations that holds of sequences of them if it holds of their parts. -/
structure Walk.Composes (R : ∀ {α : Type}, Walk σ α → Walk τ α → Prop) : Prop where
  pure : ∀ {α : Type} (a : α), R (Pure.pure a) (Pure.pure a)
  bind : ∀ {α β : Type} {w : Walk σ α} {w' : Walk τ α} {f : α → Walk σ β} {f' : α → Walk τ β},
    R w w' → (∀ a, R (f a) (f' a)) → R (w >>= f) (w' >>= f')

namespace Walk.Composes

variable {R : ∀ {α : Type}, Walk σ α → Walk τ α → Prop} {hooks : Hooks σ} {hooks' : Hooks τ}

/-- Visiting children is a sequence of visits. -/
theorem visitChildren (hR : Composes R) {visit : Node → Walk σ Verdict} {visit' : Node → Walk τ Verdict}
    (h : ∀ n, R (visit n) (visit' n)) :
    ∀ (entries : List (String × Node)) (fields : Fields) (changed : Bool),
      R (Lode.visitChildren visit entries fields changed) (Lode.visitChildren visit' entries fields changed) := by
  intro entries
  induction entries with
  | nil => exact fun fields changed => hR.pure (fields, changed)
  | cons entry rest ih =>
    intro fields changed
    rw [visitChildren_cons, visitChildren_cons]
    exact hR.bind (h entry.2) fun verdict => ih _ _

theorem walkOut (hR : Composes R) (hexit : ∀ n, R (hooks.exit n) (hooks'.exit n)) (entered : Verdict) (m : Node)
    (result : Fields × Bool) : R (Lode.walkOut hooks entered m result) (Lode.walkOut hooks' entered m result) := by
  have hsettle : ∀ (left : Node) (kept : Verdict), R
      (hooks.exit left >>= fun | .keep => Pure.pure kept | verdict => Pure.pure verdict)
      (hooks'.exit left >>= fun | .keep => Pure.pure kept | verdict => Pure.pure verdict) := by
    intro left kept
    refine hR.bind (hexit left) fun verdict => ?_
    cases verdict <;> exact hR.pure _
  unfold Lode.walkOut
  split
  · split
    · exact hR.pure _
    · exact hsettle _ _
  · exact hsettle _ _

theorem walkOn (hR : Composes R) (hexit : ∀ n, R (hooks.exit n) (hooks'.exit n)) {fuel fuel' : Nat}
    (h : ∀ n, R (transformWithin hooks fuel n) (transformWithin hooks' fuel' n)) (n : Node) (entered : Verdict) :
    R (Lode.walkOn hooks fuel n entered) (Lode.walkOn hooks' fuel' n entered) := by
  unfold Lode.walkOn
  cases entered.apply n with
  | none => exact hR.pure _
  | some m => exact hR.bind (hR.visitChildren h _ _ _) (hR.walkOut hexit entered m)

/-- **Walks are sequences of calls**: what holds of the hooks holds of the walk. -/
theorem transformWithin (hR : Composes R) (hstopped : R (α := Verdict) (throw exhausted) (throw exhausted))
    (henter : ∀ n, R (hooks.enter n) (hooks'.enter n)) (hexit : ∀ n, R (hooks.exit n) (hooks'.exit n)) :
    ∀ (fuel : Nat) (n : Node), R (Lode.transformWithin hooks fuel n) (Lode.transformWithin hooks' fuel n) := by
  intro fuel
  induction fuel with
  | zero => exact fun n => hstopped
  | succ fuel ih =>
    intro n
    rw [transformWithin_succ, transformWithin_succ]
    exact hR.bind (henter n) (hR.walkOn hexit ih n)

end Walk.Composes

/-! ## 2. Budgets -/

namespace Walk

variable {w w' : Walk σ α} {f f' : α → Walk σ β}

/-- The first walk comes to the same as the second one, unless that one was stopped by its budget. -/
def Outlasts (w' w : Walk σ α) : Prop :=
  ∀ s, (w.outcome s).1 = .error exhausted ∨ w'.outcome s = w.outcome s

theorem Outlasts.refl (w : Walk σ α) : Outlasts w w := fun _ => .inr rfl

/-- A walk that is outlasted twice is outlasted. -/
theorem Outlasts.trans {w'' : Walk σ α} (h' : Outlasts w'' w') (h : Outlasts w' w) : Outlasts w'' w := by
  intro s
  rcases h s with hstopped | hsame
  · exact .inl hstopped
  · rw [← hsame]
    exact h' s

/-- A bind is outlasted if its parts are. -/
theorem Outlasts.bind (h : Outlasts w' w) (hf : ∀ a, Outlasts (f' a) (f a)) :
    Outlasts (w' >>= f') (w >>= f) := by
  intro s
  rcases hw : w.outcome s with ⟨x, s1⟩
  rcases h s with hstopped | hsame
  · rw [hw] at hstopped
    obtain rfl : x = .error exhausted := hstopped
    exact .inl (by rw [outcome_bind_of_error hw])
  · rw [hw] at hsame
    cases x with
    | ok a =>
      rw [outcome_bind_of_ok hw, outcome_bind_of_ok hsame]
      exact hf a s1
    | error e => exact .inr (by rw [outcome_bind_of_error hw, outcome_bind_of_error hsame])

theorem outlasts_composes : Composes (σ := σ) Outlasts := ⟨fun _ => .refl _, .bind⟩

theorem Outlasts.map (h : Outlasts w' w) (g : α → β) : Outlasts (g <$> w') (g <$> w) := by
  rw [map_eq_pure_bind, map_eq_pure_bind]
  exact h.bind fun a => .refl (pure (g a))

end Walk

/-- **Budgets** do not matter as long as they suffice. -/
theorem transformWithin_outlasts (hooks : Hooks σ) : ∀ (fuel : Nat) (n : Node),
    Walk.Outlasts (transformWithin hooks (fuel + 1) n) (transformWithin hooks fuel n) := by
  intro fuel
  induction fuel with
  | zero => exact fun n s => .inl rfl
  | succ fuel ih =>
    intro n
    rw [transformWithin_succ, transformWithin_succ]
    exact (Walk.Outlasts.refl _).bind (Walk.outlasts_composes.walkOn (fun n => .refl _) ih n)

theorem walkWithin_outlasts (hooks : Hooks σ) (n : Node) {fuel fuel' : Nat} (h : fuel ≤ fuel') :
    Walk.Outlasts (walkWithin hooks fuel' n) (walkWithin hooks fuel n) := by
  induction h with
  | refl => exact .refl _
  | step _ ih => exact ((transformWithin_outlasts hooks _ n).map _).trans ih

/-- What a walk over a tree comes to: what it leaves, or the error with which it ends, and the state
after it, for every budget from some depth on. -/
def ComesTo (hooks : Hooks σ) (n : Node) (s : σ) (left : Except Error (Option Node)) (s' : σ) : Prop :=
  ∃ depth, ∀ fuel, depth ≤ fuel → (walkWithin hooks fuel n).outcome s = (left, s')

/-- A walk that is not stopped by its budget comes to its outcome. -/
theorem comesTo_of_outcome {hooks : Hooks σ} {n : Node} {fuel : Nat} {s s' : σ}
    {left : Except Error (Option Node)} (h : (walkWithin hooks fuel n).outcome s = (left, s'))
    (hleft : left ≠ .error exhausted) : ComesTo hooks n s left s' := by
  refine ⟨fuel, fun fuel' hle => ?_⟩
  rcases walkWithin_outlasts hooks n hle s with hstopped | hsame
  · rw [h] at hstopped
    exact absurd hstopped hleft
  · rw [hsame, h]

/-! ## 3. Calls of hooks -/

/-- One call of a hook: on the way in or out, the node it is asked about, and what it answers. -/
structure Call where
  entering : Bool
  node : Node
  answer : Except Error Verdict

/-- A hook that writes down its calls. -/
def logged (entering : Bool) (hook : Node → Walk σ Verdict) (n : Node) :
    Walk (σ × List Call) Verdict := fun t =>
  let (answer, s) := (hook n).outcome t.1
  (answer, s, t.2 ++ [⟨entering, n, answer⟩])

/-- The hooks, writing down their calls in the order in which they are made. -/
def Hooks.logged (hooks : Hooks σ) : Hooks (σ × List Call) where
  enter := Lode.logged true hooks.enter
  exit := Lode.logged false hooks.exit

theorem outcome_logged {entering : Bool} {hook : Node → Walk σ Verdict} {n : Node} {s s' : σ} {log : List Call}
    {answer : Except Error Verdict} (h : (hook n).outcome s = (answer, s')) :
    (logged entering hook n).outcome (s, log) = (answer, s', log ++ [⟨entering, n, answer⟩]) := by
  have hcall : (logged entering hook n).outcome (s, log) = (((hook n).outcome s).1,
      ((hook n).outcome s).2, log ++ [⟨entering, n, ((hook n).outcome s).1⟩]) := rfl
  rw [hcall, h]

theorem outcome_enter_logged {hooks : Hooks σ} {n : Node} {s s' : σ} {log : List Call}
    {answer : Except Error Verdict} (h : (hooks.enter n).outcome s = (answer, s')) :
    (hooks.logged.enter n).outcome (s, log) = (answer, s', log ++ [⟨true, n, answer⟩]) :=
  outcome_logged h

theorem outcome_exit_logged {hooks : Hooks σ} {n : Node} {s s' : σ} {log : List Call}
    {answer : Except Error Verdict} (h : (hooks.exit n).outcome s = (answer, s')) :
    (hooks.logged.exit n).outcome (s, log) = (answer, s', log ++ [⟨false, n, answer⟩]) :=
  outcome_logged h

theorem mirrors_logged (entering : Bool) (hook : Node → Walk σ Verdict) (n : Node) :
    Mirrors Prod.fst (hook n) (logged entering hook n) := by
  rintro ⟨s, log⟩
  exact Prod.ext rfl rfl

/-- Writing calls down changes nothing else. -/
theorem transformWithin_logged (hooks : Hooks σ) (fuel : Nat) (n : Node) :
    Mirrors Prod.fst (transformWithin hooks fuel n) (transformWithin hooks.logged fuel n) := by
  have hcomposes : Walk.Composes (σ := σ) (τ := σ × List Call) (Mirrors Prod.fst) :=
    ⟨fun a => .pure a, fun hw hf => hw.bind hf⟩
  exact hcomposes.transformWithin (fun t => rfl) (mirrors_logged true hooks.enter)
    (mirrors_logged false hooks.exit) fuel n

/-! ## 4. Walks that keep everything -/

/-- Every call was answered by keeping the node. -/
def AllKept (log : List Call) : Prop := ∀ call ∈ log, call.answer = .ok .keep

theorem AllKept.of_prefix {log log' : List Call} (hlog : log <+: log') (h : AllKept log') : AllKept log :=
  fun call hcall => h call (hlog.subset hcall)

/-- A computation that strikes no call out. -/
def Walk.Grows (w : Walk (σ × List Call) α) : Prop := ∀ t, t.2 <+: (w.outcome t).2.2

theorem Walk.Grows.bind {w : Walk (σ × List Call) α} {f : α → Walk (σ × List Call) β} (hw : w.Grows)
    (hf : ∀ a, (f a).Grows) : (w >>= f).Grows := by
  intro t
  have hhere := hw t
  rcases h : w.outcome t with ⟨x, t1⟩
  rw [h] at hhere
  cases x with
  | error e => rwa [Walk.outcome_bind_of_error h]
  | ok a =>
    rw [Walk.outcome_bind_of_ok h]
    exact hhere.trans (hf a t1)

theorem Walk.grows_composes :
    Composes (σ := σ × List Call) (τ := σ × List Call) (fun w _ => w.Grows) :=
  ⟨fun _ _ => List.prefix_rfl, .bind⟩

theorem logged_grows (entering : Bool) (hook : Node → Walk σ Verdict) (n : Node) :
    (logged entering hook n).Grows :=
  fun _ => List.prefix_append _ _

section Grows

variable {hooks : Hooks σ} {fuel : Nat}

theorem visitChildren_grows {visit : Node → Walk (σ × List Call) Verdict} (h : ∀ n, (visit n).Grows)
    (entries : List (String × Node)) (fields : Fields) (changed : Bool) :
    (visitChildren visit entries fields changed).Grows :=
  @Walk.Composes.visitChildren _ _ _ Walk.grows_composes visit visit h entries fields changed

theorem walkOut_grows (entered : Verdict) (m : Node) (result : Fields × Bool) :
    (walkOut hooks.logged entered m result).Grows :=
  @Walk.Composes.walkOut _ _ _ hooks.logged hooks.logged Walk.grows_composes (logged_grows false hooks.exit)
    entered m result

theorem walkOn_grows (h : ∀ n, (transformWithin hooks.logged fuel n).Grows) (n : Node) (entered : Verdict) :
    (walkOn hooks.logged fuel n entered).Grows :=
  @Walk.Composes.walkOn _ _ _ hooks.logged hooks.logged Walk.grows_composes (logged_grows false hooks.exit)
    fuel fuel h n entered

theorem transformWithin_grows (hooks : Hooks σ) (fuel : Nat) (n : Node) :
    (transformWithin hooks.logged fuel n).Grows :=
  @Walk.Composes.transformWithin _ _ _ hooks.logged hooks.logged Walk.grows_composes (fun _ => List.prefix_rfl)
    (logged_grows true hooks.enter) (logged_grows false hooks.exit) fuel n

end Grows

/-- What a computation comes to if every call that it made was answered by keeping the node. -/
def Walk.KeptAs (w : Walk (σ × List Call) α) (a : α) : Prop :=
  ∀ t, AllKept (w.outcome t).2.2 → (w.outcome t).1 = .ok a

theorem Walk.KeptAs.bind {w : Walk (σ × List Call) α} {f : α → Walk (σ × List Call) β} {a : α} {b : β}
    (hw : w.KeptAs a) (hgrows : ∀ a, (f a).Grows) (hf : (f a).KeptAs b) : (w >>= f).KeptAs b := by
  intro t hkept
  have hhere := hw t
  rcases h : w.outcome t with ⟨x, t1⟩
  rw [h] at hhere
  cases x with
  | error e =>
    rw [Walk.outcome_bind_of_error h] at hkept
    cases hhere hkept
  | ok a' =>
    rw [Walk.outcome_bind_of_ok h] at hkept ⊢
    obtain rfl := Except.ok.inj (hhere (hkept.of_prefix (hgrows a' t1)))
    exact hf t1 hkept

theorem logged_keptAs (entering : Bool) (hook : Node → Walk σ Verdict) (n : Node) :
    (logged entering hook n).KeptAs .keep :=
  fun _ hkept => hkept _ (List.mem_append_right _ List.mem_cons_self)

/-- Visiting children that are all kept keeps the attributes. -/
theorem visitChildren_keptAs {visit : Node → Walk (σ × List Call) Verdict} (hgrows : ∀ n, (visit n).Grows)
    {entries : List (String × Node)} (h : ∀ entry ∈ entries, (visit entry.2).KeptAs .keep) :
    ∀ (fields : Fields) (changed : Bool),
      (visitChildren visit entries fields changed).KeptAs (fields, changed) := by
  induction entries with
  | nil => exact fun _ _ _ _ => rfl
  | cons entry rest ih =>
    intro fields changed
    obtain ⟨hentry, hrest⟩ := List.forall_mem_cons.mp h
    rw [visitChildren_cons]
    refine hentry.bind (fun verdict => visitChildren_grows hgrows _ _ _) ?_
    have hsame : (changed || Verdict.keep.changes) = changed := Bool.or_false changed
    rw [hsame]
    exact ih hrest fields changed

/-- **A walk in which every call is answered by keeping the node** keeps the tree. -/
theorem transformWithin_keptAs (hooks : Hooks σ) : ∀ {fuel : Nat} {n : Node}, n.size ≤ fuel →
    (transformWithin hooks.logged fuel n).KeptAs .keep := by
  intro fuel
  induction fuel with
  | zero => exact fun hsize => absurd hsize (Nat.not_le_of_lt (Node.size_pos _))
  | succ fuel ih =>
    intro n hsize
    rw [transformWithin_succ]
    refine (logged_keptAs true hooks.enter n).bind (walkOn_grows (transformWithin_grows hooks fuel) n) ?_
    obtain ⟨tag, fields, span⟩ := n
    have hchildren : (walkChildren hooks.logged fuel (.mk tag fields span)).KeptAs (fields, false) :=
      visitChildren_keptAs (transformWithin_grows hooks fuel) (fun entry hentry =>
        ih (Node.size_child_le hsize (mem_of_mem_visitOrder hentry))) fields false
    refine hchildren.bind (walkOut_grows .keep _) ?_
    refine (logged_keptAs false hooks.exit _).bind (fun verdict => ?_) (fun _ _ => rfl)
    cases verdict <;> exact fun _ => List.prefix_rfl

/-! ## 5. The traversal that always rebuilds -/

/-- Where the traversal stands. -/
inductive Standing where
  /-- Before a node. -/
  | before (n : Node)
  /-- Inside what was put in the place of a node: the children still to come, and the attributes with
  what is left of the others. -/
  | inside (m : Node) (entries : List (String × Node)) (fields : Fields)

/-- The traversal that always rebuilds: the calls it makes from a state, what it leaves or the error it
ends with, and the state after it. -/
inductive Rebuilds (hooks : Hooks σ) :
    Standing → σ → List Call → Except Error (Option Node) → σ → Prop
  /-- The enter hook fails. -/
  | refused {n : Node} {e : Error} {s s' : σ} : (hooks.enter n).outcome s = (.error e, s') →
      Rebuilds hooks (.before n) s [⟨true, n, .error e⟩] (.error e) s'
  /-- The enter hook removes the node. -/
  | removed {n : Node} {entered : Verdict} {s s' : σ} :
      (hooks.enter n).outcome s = (.ok entered, s') → entered.apply n = none →
      Rebuilds hooks (.before n) s [⟨true, n, .ok entered⟩] (.ok none) s'
  /-- The enter hook leaves a node, and its children come in the order of visits. -/
  | entered {n m : Node} {entered : Verdict} {calls : List Call} {left : Except Error (Option Node)}
      {s s1 s' : σ} :
      (hooks.enter n).outcome s = (.ok entered, s1) → entered.apply n = some m →
      Rebuilds hooks (.inside m (visitOrder m.fields.nodes) m.fields) s1 calls left s' →
      Rebuilds hooks (.before n) s (⟨true, n, .ok entered⟩ :: calls) left s'
  /-- The traversal fails at a child. -/
  | failed {m child : Node} {name : String} {rest : List (String × Node)} {fields : Fields}
      {calls : List Call} {e : Error} {s s' : σ} : Rebuilds hooks (.before child) s calls (.error e) s' →
      Rebuilds hooks (.inside m ((name, child) :: rest) fields) s calls (.error e) s'
  /-- What is left of a child stands in its place, or nothing if it was removed. -/
  | child {m child : Node} {name : String} {rest : List (String × Node)} {fields : Fields}
      {calls calls' : List Call} {left : Option Node} {left' : Except Error (Option Node)} {s s1 s' : σ} :
      Rebuilds hooks (.before child) s calls (.ok left) s1 →
      Rebuilds hooks (.inside m rest (fields.put name left)) s1 calls' left' s' →
      Rebuilds hooks (.inside m ((name, child) :: rest) fields) s (calls ++ calls') left' s'
  /-- A cell that lost its element gives way to its successor, and is not left. -/
  | collapsed {m : Node} {fields : Fields} {s : σ} : lostElement m.tag fields = true →
      Rebuilds hooks (.inside m [] fields) s [] (.ok ((fields.get? "next").bind Value.node?)) s
  /-- The exit hook says what is left of the rebuilt node. -/
  | exited {m : Node} {fields : Fields} {answer : Except Error Verdict} {s s' : σ} :
      lostElement m.tag fields = false → (hooks.exit (.mk m.tag fields m.span)).outcome s = (answer, s') →
      Rebuilds hooks (.inside m [] fields) s [⟨false, .mk m.tag fields m.span, answer⟩]
        ((·.apply (.mk m.tag fields m.span)) <$> answer) s'

/-- The nodes of a tree are put together as trees are. -/
def Node.Framed (n : Node) : Prop := n.Everywhere fun m => m.framed = true

/-- The enter hook puts only such trees in the place of such trees. -/
def Hooks.KeepsFramed (hooks : Hooks σ) : Prop :=
  ∀ {n m : Node} {entered : Verdict} {s s' : σ}, n.Framed →
    (hooks.enter n).outcome s = (.ok entered, s') → entered.apply n = some m → m.Framed

/-- The trees that are still to come are put together as trees are. -/
def Standing.Framed : Standing → Prop
  | before n => n.Framed
  | inside _ entries _ => ∀ entry ∈ entries, entry.2.Framed

theorem Node.Framed.here {n : Node} (h : n.Framed) : n.framed = true := by
  cases h with
  | intro hroot _ => exact hroot

theorem Node.Framed.children {n : Node} (h : n.Framed) :
    ∀ entry ∈ visitOrder n.fields.nodes, entry.2.Framed := by
  cases h with
  | intro _ hbelow => exact fun entry hentry => hbelow entry (mem_of_mem_visitOrder hentry)

/-- Leaves a node of whose children is left what stands in the attributes. -/
def leaveRebuilt (hooks : Hooks σ) (m : Node) (fields : Fields) : Walk σ (Option Node) :=
  if lostElement m.tag fields then pure ((fields.get? "next").bind Value.node?)
  else settle hooks.exit (.mk m.tag fields m.span)

/-- The walk that goes on from here. -/
def Standing.walk (hooks : Hooks σ) (fuel : Nat) : Standing → Walk σ (Option Node)
  | before n => walkWithin hooks fuel n
  | inside m entries fields => visitEach (walkWithin hooks fuel) entries fields >>= leaveRebuilt hooks m

theorem collapse_apply (fields : Fields) (n : Node) :
    (collapse fields).apply n = (fields.get? "next").bind Value.node? := by
  unfold collapse
  split
  · rename_i next hnext
    rw [hnext]
    rfl
  · rename_i hnext
    rw [hnext]
    rfl

/-- A node that is put together as trees are is entered, and then the walk goes inside. -/
theorem walkWithin_framed {hooks : Hooks σ} {fuel : Nat} {n : Node} {entered : Verdict} {s s1 : σ}
    (h : (hooks.enter n).outcome s = (.ok entered, s1)) :
    (walkWithin hooks (fuel + 1) n).outcome s = (walkEntered hooks fuel n entered).outcome s1 := by
  rw [walkWithin_succ, Walk.outcome_bind_of_ok h]

theorem walkEntered_none {hooks : Hooks σ} {fuel : Nat} {n : Node} {entered : Verdict}
    (h : entered.apply n = none) : walkEntered hooks fuel n entered = pure none := by
  rw [walkEntered, h]

theorem walkEntered_some {hooks : Hooks σ} {fuel : Nat} {n m : Node} {entered : Verdict}
    (h : entered.apply n = some m) (hm : m.Framed) : walkEntered hooks fuel n entered =
      (Standing.inside m (visitOrder m.fields.nodes) m.fields).walk hooks fuel := by
  rw [walkEntered_eq h hm.here, walkInside, Standing.walk]
  refine bind_congr fun fields => ?_
  rw [leaveRebuilt, collapse_apply]

/-- A walk that goes on from here makes the calls of the traversal that always rebuilds, and comes to the
same. -/
def Standing.Sound (hooks : Hooks σ) (fuel : Nat) (place : Standing) : Prop :=
  ∀ {s s' : σ} {log log' : List Call} {left : Except Error (Option Node)},
    (place.walk hooks.logged fuel).outcome (s, log) = (left, s', log') → left ≠ .error exhausted →
    ∃ calls, log' = log ++ calls ∧ Rebuilds hooks place s calls left s'

/-- From inside a node, if it is so from each of its children. -/
theorem sound_inside {hooks : Hooks σ} {fuel : Nat}
    (hbefore : ∀ n : Node, n.Framed → (Standing.before n).Sound hooks fuel) (m : Node) :
    ∀ {entries : List (String × Node)} {fields : Fields}, (∀ entry ∈ entries, entry.2.Framed) →
      (Standing.inside m entries fields).Sound hooks fuel := by
  intro entries
  induction entries with
  | nil =>
    intro fields _ s s' log log' left h hleft
    have hout : (leaveRebuilt hooks.logged m fields).outcome (s, log) = (left, s', log') := by
      rwa [Standing.walk, visitEach, pure_bind] at h
    cases hlost : lostElement m.tag fields with
    | true =>
      rw [leaveRebuilt, hlost, if_pos rfl, Walk.outcome_pure] at hout
      obtain ⟨rfl, hstate⟩ := Prod.mk.inj hout
      obtain ⟨rfl, rfl⟩ := Prod.mk.inj hstate
      exact ⟨[], (List.append_nil log).symm, .collapsed hlost⟩
    | false =>
      rcases hexit : (hooks.exit (.mk m.tag fields m.span)).outcome s with ⟨answer, s1⟩
      rw [leaveRebuilt, hlost, if_neg Bool.false_ne_true, settle, Walk.outcome_map,
        outcome_exit_logged hexit] at hout
      obtain ⟨rfl, hstate⟩ := Prod.mk.inj hout
      obtain ⟨rfl, rfl⟩ := Prod.mk.inj hstate
      exact ⟨_, rfl, .exited hlost hexit⟩
  | cons entry rest ih =>
    intro fields hframed s s' log log' left h hleft
    obtain ⟨hentry, hrest⟩ := List.forall_mem_cons.mp hframed
    rw [Standing.walk, visitEach, bind_assoc] at h
    rcases hchild : (walkWithin hooks.logged fuel entry.2).outcome (s, log) with ⟨x, s1, log1⟩
    cases x with
    | error e =>
      -- a failure of a child is one of the whole, and nothing behind it is visited
      rw [Walk.outcome_bind_of_error hchild] at h
      obtain ⟨rfl, hstate⟩ := Prod.mk.inj h
      obtain ⟨rfl, rfl⟩ := Prod.mk.inj hstate
      obtain ⟨calls, rfl, hcalls⟩ := hbefore entry.2 hentry hchild hleft
      exact ⟨calls, rfl, .failed hcalls⟩
    | ok child =>
      rw [Walk.outcome_bind_of_ok hchild] at h
      obtain ⟨calls, rfl, hcalls⟩ := hbefore entry.2 hentry hchild (by simp)
      obtain ⟨calls', rfl, hcalls'⟩ := ih hrest h hleft
      exact ⟨calls ++ calls', List.append_assoc .., .child hcalls hcalls'⟩

/-- **Each step of a walk is one of the traversal**, by induction on the budget. -/
theorem sound_before {hooks : Hooks σ} (hhooks : hooks.KeepsFramed) : ∀ (fuel : Nat) (n : Node),
    n.Framed → (Standing.before n).Sound hooks fuel := by
  intro fuel
  induction fuel with
  | zero =>
    intro n _ s s' log log' left h hleft
    exact absurd (Prod.mk.inj h).1.symm hleft
  | succ fuel ih =>
    intro n hn s s' log log' left h hleft
    rcases henter : (hooks.enter n).outcome s with ⟨answer, s1⟩
    have hlogged := @outcome_enter_logged _ hooks n s s1 log _ henter
    rw [Standing.walk, walkWithin_succ] at h
    cases answer with
    | error e =>
      rw [Walk.outcome_bind_of_error hlogged] at h
      obtain ⟨rfl, hstate⟩ := Prod.mk.inj h
      obtain ⟨rfl, rfl⟩ := Prod.mk.inj hstate
      exact ⟨_, rfl, .refused henter⟩
    | ok entered =>
      rw [Walk.outcome_bind_of_ok hlogged] at h
      cases hm : entered.apply n with
      | none =>
        rw [walkEntered_none hm, Walk.outcome_pure] at h
        obtain ⟨rfl, hstate⟩ := Prod.mk.inj h
        obtain ⟨rfl, rfl⟩ := Prod.mk.inj hstate
        exact ⟨_, rfl, .removed henter hm⟩
      | some m =>
        have hframed := hhooks hn henter hm
        rw [walkEntered_some hm hframed] at h
        obtain ⟨calls, rfl, hcalls⟩ := sound_inside ih m hframed.children h hleft
        exact ⟨_, List.append_assoc .., .entered henter hm hcalls⟩

/-- The traversal that always rebuilds is what a walk comes to, if its budget goes deep enough. -/
theorem walk_of_rebuilds {hooks : Hooks σ} (hhooks : hooks.KeepsFramed) {place : Standing} {s s' : σ}
    {calls : List Call} {left : Except Error (Option Node)} (h : Rebuilds hooks place s calls left s') :
    place.Framed → ∃ depth, ∀ fuel, depth ≤ fuel → ∀ log,
      (place.walk hooks.logged fuel).outcome (s, log) = (left, s', log ++ calls) := by
  induction h with
  | @refused n e s s' henter =>
    refine fun _ => ⟨1, fun fuel hfuel log => ?_⟩
    obtain ⟨fuel, rfl⟩ := Nat.exists_eq_add_of_le' hfuel
    rw [Standing.walk, walkWithin_succ]
    exact Walk.outcome_bind_of_error (outcome_enter_logged henter)
  | @removed n entered s s' henter hgone =>
    refine fun _ => ⟨1, fun fuel hfuel log => ?_⟩
    obtain ⟨fuel, rfl⟩ := Nat.exists_eq_add_of_le' hfuel
    rw [Standing.walk, walkWithin_framed (outcome_enter_logged henter), walkEntered_none hgone,
      Walk.outcome_pure]
  | @entered n m entered calls left s s1 s' henter hm _ ih =>
    intro hn
    have hframed := hhooks hn henter hm
    obtain ⟨depth, hdepth⟩ := ih hframed.children
    refine ⟨depth + 1, fun fuel hfuel log => ?_⟩
    obtain ⟨fuel, rfl⟩ := Nat.exists_eq_add_of_le' (Nat.le_trans (Nat.le_add_left 1 depth) hfuel)
    rw [Standing.walk, walkWithin_framed (outcome_enter_logged henter), walkEntered_some hm hframed,
      hdepth fuel (Nat.le_of_succ_le_succ hfuel), List.append_assoc]
    rfl
  | @failed m child name rest fields calls e s s' _ ih =>
    intro hframed
    obtain ⟨hchild, -⟩ := List.forall_mem_cons.mp hframed
    obtain ⟨depth, hdepth⟩ := ih hchild
    refine ⟨depth, fun fuel hfuel log => ?_⟩
    rw [Standing.walk, visitEach, bind_assoc]
    exact Walk.outcome_bind_of_error (hdepth fuel hfuel log)
  | @child m child name rest fields calls calls' left left' s s1 s' _ _ ih ih' =>
    intro hframed
    obtain ⟨hchild, hrest⟩ := List.forall_mem_cons.mp hframed
    obtain ⟨depth, hdepth⟩ := ih hchild
    obtain ⟨depth', hdepth'⟩ := ih' hrest
    -- a budget that goes deep enough for both
    refine ⟨max depth depth', fun fuel hfuel log => ?_⟩
    have hrun : (walkWithin hooks.logged fuel child).outcome (s, log) = (.ok left, s1, log ++ calls) :=
      hdepth fuel (Nat.le_trans (Nat.le_max_left ..) hfuel) log
    rw [Standing.walk, visitEach, bind_assoc, Walk.outcome_bind_of_ok hrun, ← List.append_assoc]
    exact hdepth' fuel (Nat.le_trans (Nat.le_max_right ..) hfuel) (log ++ calls)
  | @collapsed m fields s hlost =>
    refine fun _ => ⟨0, fun fuel _ log => ?_⟩
    rw [Standing.walk, visitEach, pure_bind, leaveRebuilt, hlost, if_pos rfl, Walk.outcome_pure, List.append_nil]
  | @exited m fields answer s s' hlost hexit =>
    refine fun _ => ⟨0, fun fuel _ log => ?_⟩
    rw [Standing.walk, visitEach, pure_bind, leaveRebuilt, hlost, if_neg Bool.false_ne_true, settle,
      Walk.outcome_map, outcome_exit_logged hexit]

/-- **Sharing is invisible.**  On a tree that is put together as trees are, and under hooks that keep it so,
a walk (as `Node.transform` is one, with a budget for its depth) that is not stopped by its budget is the
traversal that always rebuilds: it makes the same calls in the same order, ends in the same state, and
leaves the same tree or fails with the same error.  Writing the calls down changes none of this.  Every
traversal is what a walk comes to, and if all calls are answered by keeping the node, then the tree is
kept. -/
theorem sharing_invisible {hooks : Hooks σ} (hhooks : hooks.KeepsFramed) {tree : Node} (htree : tree.Framed)
    (s : σ) :
    (∀ {fuel : Nat} {left : Except Error (Option Node)} {s' : σ} {calls : List Call},
      (walkWithin hooks.logged fuel tree).outcome (s, []) = (left, s', calls) →
        (walkWithin hooks fuel tree).outcome s = (left, s') ∧
        (left ≠ .error exhausted → Rebuilds hooks (.before tree) s calls left s')) ∧
    (∀ {calls : List Call} {left : Except Error (Option Node)} {s' : σ},
      Rebuilds hooks (.before tree) s calls left s' → ComesTo hooks.logged tree (s, []) left (s', calls)) ∧
    ∀ {answer : Except Error Verdict} {s' : σ} {calls : List Call},
      (tree.transform hooks.logged).outcome (s, []) = (answer, s', calls) →
      (∀ call ∈ calls, call.answer = .ok .keep) → answer = .ok .keep := by
  refine ⟨fun h => ⟨?_, fun hleft => ?_⟩, fun h => ?_, fun h hkept => ?_⟩
  · exact ((transformWithin_logged hooks _ tree).map _).outcome_eq h
  · obtain ⟨calls, rfl, hcalls⟩ := sound_before hhooks _ tree htree h hleft
    exact hcalls
  · obtain ⟨depth, hdepth⟩ := walk_of_rebuilds hhooks h htree
    exact ⟨depth, fun fuel hfuel => hdepth fuel hfuel []⟩
  · have hsize : tree.size ≤ tree.walkBudget := by
      rw [Node.walkBudget]
      omega
    have hrun := transformWithin_keptAs hooks hsize (s, [])
    rw [Node.transform] at h
    rw [h] at hrun
    exact hrun hkept

/-- Hooks that put a number in the place of every name, and on the way out count the nodes and remove odd
numbers. -/
def droppingOdd : Hooks Nat where
  enter n :=
    match n.tag with
    | .ident => return .replace (.build .number n.span [("value", .int 3)])
    | _ => return .keep
  exit n := do
    modify (· + 1)
    return if n.tag == .number && (n.int? "value").any (· % 2 = 1) then .remove else .keep

/-- A number that stands nowhere. -/
def numberNode (v : Int) : Node := .build .number .nowhere [("value", .int v)]

/-- Statements that are the numbers one and four, with a name between them. -/
def mixedNumbers : Node :=
  let last := Node.build .stmts .nowhere [("stmt", .node (numberNode 4))]
  let middle := Node.build .stmts .nowhere [("stmt", .node (.build .ident .nowhere [])), ("next", .node last)]
  .build .stmts .nowhere [("stmt", .node (numberNode 1)), ("next", .node middle)]

theorem sharing_invisible_mixedNumbers : droppingOdd.KeepsFramed ∧ mixedNumbers.Framed ∧
    ∃ calls, calls.length = 10 ∧ Rebuilds droppingOdd (.before mixedNumbers) 0 calls
      (.ok (some (.build .stmts .nowhere [("stmt", .node (numberNode 4))]))) 4 := by
  have hhooks : droppingOdd.KeepsFramed := by
    intro n m entered s s' hn h hm
    simp only [droppingOdd] at h
    split at h
    · obtain ⟨rfl, -⟩ := Walk.outcome_pure_eq_ok.mp h
      obtain rfl := Option.some.inj hm
      exact .intro rfl nofun
    · obtain ⟨rfl, -⟩ := Walk.outcome_pure_eq_ok.mp h
      obtain rfl := Option.some.inj hm
      exact hn
  have htree : mixedNumbers.Framed := by
    have hnumber : ∀ v, (numberNode v).Framed :=
      fun v => .intro rfl nofun
    have hname : (Node.build .ident .nowhere []).Framed := .intro rfl nofun
    have hlast : (Node.build .stmts .nowhere [("stmt", .node (numberNode 4))]).Framed :=
      .intro rfl (List.forall_mem_cons.mpr ⟨hnumber 4, nofun⟩)
    exact .intro rfl (List.forall_mem_cons.mpr ⟨.intro rfl (List.forall_mem_cons.mpr
      ⟨hlast, List.forall_mem_cons.mpr ⟨hname, nofun⟩⟩), List.forall_mem_cons.mpr ⟨hnumber 1, nofun⟩⟩)
  obtain ⟨calls, hrun, hlength⟩ : ∃ calls : List Call,
      (walkWithin droppingOdd.logged 9 mixedNumbers).outcome (0, []) = (.ok (some (.build .stmts .nowhere
        [("stmt", .node (numberNode 4))])), 4, calls) ∧ calls.length = 10 :=
    ⟨_, rfl, rfl⟩
  exact ⟨hhooks, htree, calls, hlength,
    ((sharing_invisible hhooks htree 0).1 hrun).2 (by simp)⟩

end Lode
