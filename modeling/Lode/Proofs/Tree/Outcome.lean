/-
# Outcomes of walks

A walk from a state ends in a result, which may be a failure, and in a state.  This file says what the
outcomes of the building blocks of hooks are, and how an outcome of a bind came about.  The first are
equations for `simp`; a hook is run forward by rewriting with them, and a run that succeeded is taken apart
by the second (`outcome_bind_eq_ok`).

A walk may mirror another one whose states say more: every state of the latter is read as one of the former,
and from such states both have the same result and end in the same state (`Mirrors`).  The states of a hook
are tables of values; those of a visitor are frames of bindings, or tables of variables, and reading them
forgets the types.  A failure leaves a state behind as well, and it is compared too: an error may be caught,
and what was done before it remains.
-/
import Lode.Proofs.Except
import Lode.Scope

namespace Lode.Walk

variable {σ τ α β : Type}

/-! ## 1. Outcomes -/

/-- The result of a walk from a state, and the state after it. -/
def outcome (w : Walk σ α) (s : σ) : Except Error α × σ := w.run.run s

variable {s s' : σ}

@[simp] theorem outcome_pure (a : α) : outcome (pure a : Walk σ α) s = (.ok a, s) := rfl

@[simp] theorem outcome_throw (e : Error) : outcome (throw e : Walk σ α) s = (.error e, s) := rfl

@[simp] theorem outcome_lift (x : Except Error α) : outcome (liftM x : Walk σ α) s = (x, s) := rfl

@[simp] theorem outcome_mk (x : Except Error α) :
    outcome (ExceptT.mk (pure x) : Walk σ α) s = (x, s) := rfl

@[simp] theorem outcome_get : outcome (get : Walk σ σ) s = (.ok s, s) := rfl

@[simp] theorem outcome_set : outcome (set s' : Walk σ PUnit) s = (.ok ⟨⟩, s') := rfl

@[simp] theorem outcome_modify (f : σ → σ) : outcome (modify f : Walk σ PUnit) s = (.ok ⟨⟩, f s) := rfl

@[simp] theorem outcome_modifyGet (f : σ → α × σ) :
    outcome (modifyGet f : Walk σ α) s = (.ok (f s).1, (f s).2) := rfl

theorem outcome_bind_of_ok {w : Walk σ α} {f : α → Walk σ β} {a : α}
    (h : outcome w s = (.ok a, s')) : outcome (w >>= f) s = outcome (f a) s' := by
  have hw : w s = (.ok a, s') := h
  change (ExceptT.bind w f) s = _
  simp only [ExceptT.bind, ExceptT.mk, bind, StateT.bind, hw, ExceptT.bindCont]
  rfl

theorem outcome_bind_of_error {w : Walk σ α} {f : α → Walk σ β} {e : Error}
    (h : outcome w s = (.error e, s')) : outcome (w >>= f) s = (.error e, s') := by
  have hw : w s = (.error e, s') := h
  change (ExceptT.bind w f) s = _
  simp only [ExceptT.bind, ExceptT.mk, bind, StateT.bind, hw, ExceptT.bindCont]
  rfl

/-- What follows an outcome. -/
def andThen (f : α → Walk σ β) : Except Error α × σ → Except Error β × σ
  | (.ok a, s) => outcome (f a) s
  | (.error e, s) => (.error e, s)

@[simp] theorem andThen_ok (f : α → Walk σ β) (a : α) : andThen f (.ok a, s) = outcome (f a) s := rfl

@[simp] theorem andThen_error (f : α → Walk σ β) (e : Error) :
    andThen f (.error e, s) = (.error e, s) := rfl

/-- The outcome of a bind is what follows the outcome of its first part. -/
theorem outcome_bind (w : Walk σ α) (f : α → Walk σ β) :
    outcome (w >>= f) s = andThen f (outcome w s) := by
  cases hw : outcome w s with
  | mk x s1 =>
    cases x with
    | ok a => exact outcome_bind_of_ok hw
    | error e => exact outcome_bind_of_error hw

/-- Computations with the same outcomes are the same. -/
theorem ext {w w' : Walk σ α} (h : ∀ s, outcome w s = outcome w' s) : w = w' := funext h

theorem lift_ok (a : α) : (liftM (Except.ok a : Except Error α) : Walk σ α) = pure a := rfl

/-- A computation that reads the state and does not change it. -/
def reading (f : σ → Except Error α) : Walk σ α := do
  let s ← get
  liftM (f s)

@[simp] theorem outcome_reading (f : σ → Except Error α) : outcome (reading f) s = (f s, s) := rfl

/-- A bind of computations that leave the state as it is. -/
theorem outcome_bind_steady {w : Walk σ α} {f : α → Walk σ β} {x : Except Error α}
    {y : α → Except Error β} (hw : outcome w s = (x, s)) (hf : ∀ a, outcome (f a) s = (y a, s)) :
    outcome (w >>= f) s = (x >>= y, s) := by
  cases x with
  | ok a => exact (outcome_bind_of_ok hw).trans (hf a)
  | error e => exact outcome_bind_of_error hw

/-- A bind succeeds if both parts do, one after the other. -/
theorem outcome_bind_eq_ok {w : Walk σ α} {f : α → Walk σ β} {b : β} {s'' : σ} :
    outcome (w >>= f) s = (.ok b, s'') ↔
      ∃ a s', outcome w s = (.ok a, s') ∧ outcome (f a) s' = (.ok b, s'') := by
  cases hw : outcome w s with
  | mk result s1 =>
    cases result with
    | ok a =>
      rw [outcome_bind_of_ok hw]
      constructor
      · exact fun h => ⟨a, s1, rfl, h⟩
      · rintro ⟨_, _, ⟨⟩, h⟩
        exact h
    | error e =>
      rw [outcome_bind_of_error hw]
      simp

/-- A bind behind a computation that has nothing to do with the state. -/
theorem outcome_lift_bind_eq_ok {x : Except Error α} {f : α → Walk σ β} {b : β} {s' : σ} :
    outcome (liftM x >>= f) s = (.ok b, s') ↔ ∃ a, x = .ok a ∧ outcome (f a) s = (.ok b, s') := by
  rw [outcome_bind_eq_ok]
  constructor
  · rintro ⟨a, s1, hx, hf⟩
    rw [outcome_lift, Prod.mk.injEq] at hx
    exact ⟨a, hx.1, hx.2 ▸ hf⟩
  · rintro ⟨a, rfl, hf⟩
    exact ⟨a, s, rfl, hf⟩

theorem outcome_pure_eq_ok {a b : α} {s' : σ} :
    outcome (pure a : Walk σ α) s = (.ok b, s') ↔ a = b ∧ s = s' := by
  rw [outcome_pure, Prod.mk.injEq, Except.ok.injEq]

/-- Mapping the result leaves the state. -/
theorem outcome_map (f : α → β) (w : Walk σ α) :
    outcome (f <$> w) s = (f <$> (outcome w s).1, (outcome w s).2) := by
  rw [map_eq_pure_bind]
  cases hw : outcome w s with
  | mk result s1 =>
    cases result with
    | ok a => exact outcome_bind_of_ok hw
    | error e => exact outcome_bind_of_error hw

theorem lift_map (f : α → β) (x : Except Error α) :
    (liftM (f <$> x) : Walk σ β) = f <$> (liftM x : Walk σ α) :=
  ext fun s => by rw [outcome_map, outcome_lift, outcome_lift]

/-! ## 2. Walks that mirror each other -/

/-- From the states that are read by `raw`, a walk has the results of another one. -/
def Mirrors (raw : τ → σ) (w : Walk σ α) (w' : Walk τ α) : Prop :=
  ∀ t, outcome w (raw t) = ((outcome w' t).1, raw (outcome w' t).2)

namespace Mirrors

variable {raw : τ → σ} {w : Walk σ α} {w' : Walk τ α}

theorem of_eq {w w' : Walk σ α} (h : w = w') : Mirrors id w w' := fun _ => by rw [h]; rfl

theorem pure (a : α) : Mirrors raw (Pure.pure a) (Pure.pure a) := fun _ => rfl

theorem lift (x : Except Error α) : Mirrors raw (liftM x) (liftM x) := fun _ => rfl

/-- How a result of the mirrored walk is one of the walk. -/
theorem outcome_eq (h : Mirrors raw w w') {t t' : τ} {x : Except Error α}
    (hx : outcome w' t = (x, t')) : outcome w (raw t) = (x, raw t') := by
  rw [h t, hx]

/-- Steps mirror steps. -/
theorem bind (h : Mirrors raw w w') {f : α → Walk σ β} {f' : α → Walk τ β}
    (hf : ∀ a, Mirrors raw (f a) (f' a)) : Mirrors raw (w >>= f) (w' >>= f') := by
  intro t
  cases hw' : outcome w' t with
  | mk x t1 =>
    have hw := h.outcome_eq hw'
    cases x with
    | error e => rw [outcome_bind_of_error hw, outcome_bind_of_error hw']
    | ok a => rw [outcome_bind_of_ok hw, outcome_bind_of_ok hw', hf a t1]

/-- Steps mirror steps, where the first of them leaves what another one computes. -/
theorem bind_map {γ : Type} {w : Walk σ β} {left : α → β} (h : Mirrors raw w (left <$> w'))
    {f : β → Walk σ γ} {f' : α → Walk τ γ} (hf : ∀ a, Mirrors raw (f (left a)) (f' a)) :
    Mirrors raw (w >>= f) (w' >>= f') := by
  intro t
  cases hw' : outcome w' t with
  | mk x t1 =>
    have hmap : outcome (left <$> w') t = (left <$> x, t1) := by rw [outcome_map, hw']
    have hw := h.outcome_eq hmap
    cases x with
    | error e => rw [outcome_bind_of_error (e := e) hw, outcome_bind_of_error hw']
    | ok a => rw [outcome_bind_of_ok (a := left a) hw, outcome_bind_of_ok hw', hf a t1]

theorem map (h : Mirrors raw w w') (f : α → β) : Mirrors raw (f <$> w) (f <$> w') := by
  rw [map_eq_pure_bind, map_eq_pure_bind]
  exact h.bind fun a => .pure (f a)

end Mirrors

end Lode.Walk
