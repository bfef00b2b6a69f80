/-
# Computations that may fail

How a bind, a map, and a pass over a list came to its result.  A computation is taken apart by saying that
it succeeded: `bind_eq_ok` turns the success of a bind into that of its two halves, and the others do the
same for the forms that the program is written in, so that most proofs about a computation begin with a row
of these equivalences and never unfold it.

A pass over a list is related to its members one by one (`forall₂_of_mapM`).  What is true of each of its
results is then a matter of the related member, in either direction (`exists_of_mem_mapM`,
`exists_mem_mapM`).
-/
import Lode.Error
import Mathlib.Data.List.Forall2

namespace Lode

variable {ε α β : Type}

theorem ok_bind (a : α) (f : α → Except ε β) : (Except.ok a >>= f) = f a := rfl

theorem error_bind (e : ε) (f : α → Except ε β) : (Except.error e >>= f) = .error e := rfl

theorem map_ok (f : α → β) (a : α) : f <$> (Except.ok a : Except ε α) = .ok (f a) := rfl

/-- **A bind** succeeds if both halves do. -/
theorem bind_eq_ok {x : Except ε α} {f : α → Except ε β} {b : β} :
    x >>= f = .ok b ↔ ∃ a, x = .ok a ∧ f a = .ok b := by
  cases x with
  | error e => simp [bind, Except.bind]
  | ok a => simp [bind, Except.bind]

theorem bind_eq_error {x : Except ε α} {f : α → Except ε β} {e : ε} :
    x >>= f = .error e ↔ x = .error e ∨ ∃ a, x = .ok a ∧ f a = .error e := by
  cases x with
  | error e => simp [bind, Except.bind]
  | ok a => simp [bind, Except.bind]

theorem map_eq_ok {x : Except ε α} {f : α → β} {b : β} :
    f <$> x = .ok b ↔ ∃ a, x = .ok a ∧ f a = b := by
  cases x with
  | error e => simp [Functor.map, Except.map]
  | ok a => simp [Functor.map, Except.map]

theorem mapError_eq_ok {ε' : Type} {f : ε → ε'} {x : Except ε α} {a : α} :
    x.mapError f = .ok a ↔ x = .ok a := by
  cases x <;> simp [Except.mapError]

theorem ite_error_eq_ok {p : Prop} [Decidable p] {e : ε} {x : Except ε α} {a : α} :
    (if p then .error e else x) = .ok a ↔ ¬ p ∧ x = .ok a := by
  split <;> simp [*]

theorem ite_else_error_eq_ok {p : Prop} [Decidable p] {e : ε} {x : Except ε α} {a : α} :
    (if p then x else .error e) = .ok a ↔ p ∧ x = .ok a := by
  split <;> simp [*]

theorem eq_ok_of_toOption {x : Except ε α} {a : α} (h : x.toOption = some a) : x = .ok a := by
  cases x with
  | error e => simp [Except.toOption] at h
  | ok b => exact congrArg Except.ok (Option.some.inj h)

theorem exists_of_toOption_any {x : Except ε α} {P : α → Bool} (h : x.toOption.any P = true) :
    ∃ a, x = .ok a ∧ P a = true := by
  cases x with
  | error e => cases h
  | ok a => exact ⟨a, rfl, h⟩

theorem eq_ok_of_bind_toOption {x : Except ε α} {f : α → Except ε β} {a : α} {b : β}
    (hx : x = .ok a) (h : (x.bind f).toOption = some b) : f a = .ok b := by
  subst hx
  exact eq_ok_of_toOption h

theorem exists_eq_ok {γ : Type} {x : Except ε α × β × γ} {a : α}
    (h : x.1.toOption = some a) : ∃ b c, x = (.ok a, b, c) :=
  ⟨x.2.1, x.2.2, Prod.ext (eq_ok_of_toOption h) rfl⟩

/-- A pass succeeds if it does on the first member and on the others. -/
theorem mapM_cons_eq_ok {f : α → Except ε β} {a : α} {as : List α} {bs : List β} :
    (a :: as).mapM f = .ok bs ↔ ∃ b bs', f a = .ok b ∧ as.mapM f = .ok bs' ∧ bs = b :: bs' := by
  simp only [List.mapM_cons, bind_eq_ok, pure, Except.pure, Except.ok.injEq]
  constructor
  · rintro ⟨b, hb, bs', hbs', rfl⟩
    exact ⟨b, bs', hb, hbs', rfl⟩
  · rintro ⟨b, bs', hb, hbs', rfl⟩
    exact ⟨b, hb, bs', hbs', rfl⟩

/-- The results of a pass are those of its members, in order. -/
theorem forall₂_of_mapM {f : α → Except ε β} : ∀ {as : List α} {bs : List β},
    as.mapM f = .ok bs → List.Forall₂ (fun a b => f a = .ok b) as bs
  | [], bs, h => by
    simp only [List.mapM_nil, pure, Except.pure, Except.ok.injEq] at h
    exact h ▸ .nil
  | a :: as, bs, h => by
    obtain ⟨b, bs', hb, hbs', rfl⟩ := mapM_cons_eq_ok.mp h
    exact .cons hb (forall₂_of_mapM hbs')

/-- A pass fails only if one of its members does. -/
theorem mapM_eq_error {f : α → Except ε β} {e : ε} : ∀ {as : List α},
    as.mapM f = .error e → ∃ a ∈ as, f a = .error e
  | [], h => by simp [pure, Except.pure] at h
  | a :: as, h => by
    simp only [List.mapM_cons, bind_eq_error, pure, Except.pure, reduceCtorEq, and_false,
      exists_false, or_false] at h
    rcases h with h | ⟨b, _, h⟩
    · exact ⟨a, List.mem_cons_self, h⟩
    · obtain ⟨a', ha', he⟩ := mapM_eq_error h
      exact ⟨a', List.mem_cons_of_mem _ ha', he⟩

/-- A member on the right is related to one on the left. -/
theorem exists_of_mem_right {R : α → β → Prop} {as : List α} {bs : List β}
    (h : List.Forall₂ R as bs) {b : β} (hb : b ∈ bs) : ∃ a ∈ as, R a b := by
  induction h with
  | nil => simp at hb
  | cons hab _ ih =>
    rcases List.mem_cons.mp hb with rfl | hb
    · exact ⟨_, List.mem_cons_self, hab⟩
    · obtain ⟨a, ha, hab⟩ := ih hb
      exact ⟨a, List.mem_cons_of_mem _ ha, hab⟩

theorem exists_of_mem_mapM {f : α → Except ε β} {as : List α} {bs : List β}
    (h : as.mapM f = .ok bs) {b : β} (hb : b ∈ bs) : ∃ a ∈ as, f a = .ok b :=
  exists_of_mem_right (forall₂_of_mapM h) hb

theorem exists_mem_mapM {f : α → Except ε β} {as : List α} {bs : List β}
    (h : as.mapM f = .ok bs) {a : α} (ha : a ∈ as) : ∃ b ∈ bs, f a = .ok b :=
  exists_of_mem_right (forall₂_of_mapM h).flip ha

/-- Lists related one by one to lists that are related one by one to others. -/
theorem forall₂_trans {α β γ : Type} {R : α → β → Prop} {R' : β → γ → Prop} {R'' : α → γ → Prop}
    (hR : ∀ {a : α} {b : β} {c : γ}, R a b → R' b c → R'' a c) {as : List α} {bs : List β} {cs : List γ}
    (h : List.Forall₂ R as bs) (h' : List.Forall₂ R' bs cs) : List.Forall₂ R'' as cs := by
  induction h generalizing cs with
  | nil =>
    cases h'
    exact .nil
  | cons hab _ ih =>
    cases h' with
    | cons hbc hrest => exact .cons (hR hab hbc) (ih hrest)

/-- A pass gives results exactly if all its members do. -/
theorem mapM_ok_iff {f : α → Except ε β} {as : List α} :
    (∃ bs, as.mapM f = .ok bs) ↔ ∀ a ∈ as, ∃ b, f a = .ok b := by
  constructor
  · rintro ⟨bs, h⟩ a ha
    obtain ⟨b, -, hb⟩ := exists_mem_mapM h ha
    exact ⟨b, hb⟩
  · intro h
    cases hbs : as.mapM f with
    | ok bs => exact ⟨bs, rfl⟩
    | error e =>
      obtain ⟨a, ha, he⟩ := mapM_eq_error hbs
      obtain ⟨b, hb⟩ := h a ha
      rw [he] at hb
      cases hb

/-- The results of a pass hold nothing twice if those of its members do not and have nothing in common. -/
theorem nodup_flatten_of_mapM {f : α → Except ε (List β)} : ∀ {as : List α} {parts : List (List β)},
    as.mapM f = .ok parts → (∀ a ∈ as, ∀ part, f a = .ok part → part.Nodup) →
    as.Pairwise (fun a a' => ∀ part part', f a = .ok part → f a' = .ok part' → part.Disjoint part') →
    parts.flatten.Nodup
  | [], parts, h, _, _ => by
    simp only [List.mapM_nil, pure, Except.pure, Except.ok.injEq] at h
    subst h
    exact List.nodup_nil
  | a :: as, parts, h, hnodup, hapart => by
    obtain ⟨part, parts, hpart, hparts, rfl⟩ := mapM_cons_eq_ok.mp h
    obtain ⟨hhere, hrest⟩ := List.pairwise_cons.mp hapart
    rw [List.flatten_cons]
    refine List.nodup_append.mpr ⟨hnodup a List.mem_cons_self part hpart,
      nodup_flatten_of_mapM hparts (fun a' ha' => hnodup a' (List.mem_cons_of_mem _ ha')) hrest, ?_⟩
    rintro b hb _ hmem rfl
    obtain ⟨part', hpart', hb'⟩ := List.mem_flatten.mp hmem
    obtain ⟨a', ha', hok⟩ := exists_of_mem_mapM hparts hpart'
    exact hhere a' ha' part part' hpart hok hb hb'

end Lode
