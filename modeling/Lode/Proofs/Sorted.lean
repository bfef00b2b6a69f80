/-
# Sets and maps as increasing lists

What the operations of `Sorted` do to membership and to look-up.  Membership needs no order, but a key that
is changed is only found again if the keys increase, so that the place where `alter` stops is the place of
the key.

Two increasing lists with the same members are equal (`Increasing.eq_of_mem_iff`), and so are two maps with
the same keys and the same values at them (`eq_of_find?`).  This is what makes a set of items a state that
can be recognized, and a map something that can be read back from a document in whatever order its members
were found.

The order is given by a comparison that is lawful, and nothing else is asked of the members.  Sets and maps
are plain lists, so that what is written into an archive or walked over in order needs no conversion; that
they increase is a hypothesis where it is used, and kept by all operations.
-/
import Lode.Sorted
import Mathlib.Data.List.Sort

namespace Lode.Sorted

variable {α κ ν : Type}

/-! ## 1. Increasing lists -/

/-- Every member is smaller than the ones after it. -/
def Increasing [Ord α] (s : List α) : Prop := s.Pairwise fun a b => compare a b = .lt

/-- The keys of a map increase. -/
def IncreasingKeys [Ord κ] (entries : List (κ × ν)) : Prop := Increasing (entries.map Prod.fst)

theorem ne_of_lt [Ord α] [Std.ReflOrd α] {a b : α} (h : compare a b = .lt) : a ≠ b := by
  rintro rfl
  exact absurd (Std.ReflOrd.compare_self.symm.trans h) (by decide)

section Sets

variable [Ord α] [Std.LawfulEqOrd α]

/-- Inserting adds one member. -/
@[simp] theorem mem_insert {a b : α} : ∀ {s : List α}, b ∈ insert a s ↔ b = a ∨ b ∈ s
  | [] => by simp [insert]
  | c :: s => by
    simp only [insert]
    split
    · simp
    · rename_i h
      rw [Std.LawfulEqOrd.eq_of_compare h]
      simp
    · simp only [List.mem_cons, mem_insert (s := s)]
      tauto

/-- A union has the members of both. -/
@[simp] theorem mem_union {b : α} : ∀ {t s : List α}, b ∈ union s t ↔ b ∈ s ∨ b ∈ t
  | [], s => by simp [union]
  | a :: t, s => by
    have ih : b ∈ union (insert a s) t ↔ b ∈ insert a s ∨ b ∈ t := mem_union
    simp only [union, List.foldl_cons] at ih ⊢
    rw [ih, mem_insert, List.mem_cons]
    tauto

@[simp] theorem mem_ofList {b : α} {as : List α} : b ∈ ofList as ↔ b ∈ as := by
  simp [ofList]

theorem Increasing.nodup {s : List α} (h : Increasing s) : s.Nodup := h.imp ne_of_lt

variable [Std.TransOrd α]

/-- Inserting keeps the order. -/
theorem increasing_insert {a : α} : ∀ {s : List α}, Increasing s → Increasing (insert a s)
  | [], _ => by simp [insert, Increasing]
  | c :: s, h => by
    have hc := List.pairwise_cons.mp h
    simp only [insert]
    split
    · rename_i hlt
      refine List.pairwise_cons.mpr ⟨fun b hb => ?_, h⟩
      rcases List.mem_cons.mp hb with rfl | hb
      · exact hlt
      · exact Std.TransCmp.lt_trans hlt (hc.1 b hb)
    · exact h
    · rename_i hgt
      refine List.pairwise_cons.mpr ⟨fun b hb => ?_, increasing_insert hc.2⟩
      rcases mem_insert.mp hb with rfl | hb
      · exact Std.OrientedCmp.lt_of_gt hgt
      · exact hc.1 b hb

theorem increasing_union : ∀ {t s : List α}, Increasing s → Increasing (union s t)
  | [], _, h => h
  | a :: t, s, h => by
    have ih : Increasing (union (insert a s) t) := increasing_union (increasing_insert h)
    simpa only [union, List.foldl_cons] using ih

theorem increasing_ofList (as : List α) : Increasing (ofList as) :=
  increasing_union List.Pairwise.nil

/-- **A set has one representation.**  Increasing lists with the same members are equal. -/
theorem Increasing.eq_of_mem_iff {s t : List α} (hs : Increasing s) (ht : Increasing t)
    (h : ∀ a, a ∈ s ↔ a ∈ t) : s = t := by
  have hperm : s.Perm t := (List.perm_ext_iff_of_nodup hs.nodup ht.nodup).mpr h
  refine hperm.eq_of_pairwise (fun a b _ _ hab hba => ?_) hs ht
  exact absurd rfl (ne_of_lt (Std.TransCmp.lt_trans hab hba))

end Sets

/-! ## 2. Maps -/

section Maps

variable [Ord κ] [Std.LawfulEqOrd κ]

theorem find?_cons_self (key : κ) (value : ν) (rest : List (κ × ν)) :
    find? key ((key, value) :: rest) = some value := by
  simp [find?]

theorem find?_cons_ne {key other : κ} (h : key ≠ other) (value : ν) (rest : List (κ × ν)) :
    find? key ((other, value) :: rest) = find? key rest := by
  simp [find?, h]

/-- What is found is an entry. -/
theorem mem_of_find? {key : κ} {value : ν} :
    ∀ {entries : List (κ × ν)}, find? key entries = some value → (key, value) ∈ entries
  | [], h => by simp [find?] at h
  | (k, v) :: rest, h => by
    by_cases hk : key = k
    · subst hk
      rw [find?_cons_self, Option.some.injEq] at h
      simp [h]
    · rw [find?_cons_ne hk] at h
      exact List.mem_cons_of_mem _ (mem_of_find? h)

/-- Something is found exactly for the keys. -/
theorem find?_isSome_iff {key : κ} : ∀ {entries : List (κ × ν)},
    (find? key entries).isSome ↔ key ∈ entries.map Prod.fst
  | [] => by simp [find?]
  | (k, v) :: rest => by
    by_cases hk : key = k
    · subst hk
      simp [find?_cons_self]
    · rw [find?_cons_ne hk, find?_isSome_iff]
      simp [hk]

theorem find?_eq_none_iff {key : κ} {entries : List (κ × ν)} :
    find? key entries = none ↔ key ∉ entries.map Prod.fst := by
  rw [← find?_isSome_iff]
  cases find? key entries <;> simp

/-- Changing a key leaves the others. -/
theorem find?_alter_ne {key other : κ} (h : key ≠ other) (f : Option ν → ν) :
    ∀ entries : List (κ × ν), find? key (alter other f entries) = find? key entries
  | [] => by rw [alter, find?_cons_ne h]
  | (k, v) :: rest => by
    simp only [alter]
    split
    · rw [find?_cons_ne h]
    · rename_i hk
      have hk := Std.LawfulEqOrd.eq_of_compare hk
      rw [find?_cons_ne (hk ▸ h), find?_cons_ne (hk ▸ h)]
    · by_cases hk : key = k
      · subst hk
        rw [find?_cons_self, find?_cons_self]
      · rw [find?_cons_ne hk, find?_cons_ne hk, find?_alter_ne h f rest]

/-- Changing a key adds it at most. -/
theorem mem_keys_alter {key other : κ} (f : Option ν → ν) : ∀ {entries : List (κ × ν)},
    key ∈ (alter other f entries).map Prod.fst ↔ key = other ∨ key ∈ entries.map Prod.fst
  | [] => by simp [alter]
  | (k, v) :: rest => by
    simp only [alter]
    split
    · simp
    · rename_i hk
      rw [Std.LawfulEqOrd.eq_of_compare hk]
      simp
    · have ih : key ∈ (alter other f rest).map Prod.fst ↔ key = other ∨ key ∈ rest.map Prod.fst :=
        mem_keys_alter f
      simp only [List.map_cons, List.mem_cons, ih]
      tauto

/-- The entries after a change are the old ones and the changed one. -/
theorem mem_alter {key : κ} {f : Option ν → ν} {entry : κ × ν} : ∀ {entries : List (κ × ν)},
    entry ∈ alter key f entries → entry ∈ entries ∨
      ∃ old, (old = none ∨ ∃ v, old = some v ∧ (key, v) ∈ entries) ∧ entry.1 = key ∧
        entry.2 = f old
  | [], h => by
    obtain rfl : entry = (key, f none) := by simpa [alter] using h
    exact .inr ⟨none, .inl rfl, rfl, rfl⟩
  | (k, v) :: rest, h => by
    simp only [alter] at h
    split at h
    · rcases List.mem_cons.mp h with rfl | h
      · exact .inr ⟨none, .inl rfl, rfl, rfl⟩
      · exact .inl h
    · rename_i heq
      obtain rfl := Std.LawfulEqOrd.eq_of_compare heq
      rcases List.mem_cons.mp h with rfl | h
      · exact .inr ⟨some v, .inr ⟨v, rfl, List.mem_cons_self⟩, rfl, rfl⟩
      · exact .inl (List.mem_cons_of_mem _ h)
    · rcases List.mem_cons.mp h with rfl | h
      · exact .inl List.mem_cons_self
      · rcases mem_alter h with h | ⟨old, hold, hkey, hval⟩
        · exact .inl (List.mem_cons_of_mem _ h)
        · refine .inr ⟨old, hold.imp id ?_, hkey, hval⟩
          rintro ⟨v', hv', hmem⟩
          exact ⟨v', hv', List.mem_cons_of_mem _ hmem⟩

theorem mem_set {key : κ} {value : ν} {entry : κ × ν} {entries : List (κ × ν)}
    (h : entry ∈ set key value entries) : entry = (key, value) ∨ entry ∈ entries := by
  rcases mem_alter h with h | ⟨_, _, hkey, hvalue⟩
  · exact .inr h
  · exact .inl (Prod.ext hkey hvalue)

/-- A key that is set has its entry. -/
theorem mem_set_self {key : κ} {value : ν} : ∀ {entries : List (κ × ν)},
    (key, value) ∈ set key value entries
  | [] => List.mem_cons_self
  | (k, v) :: rest => by
    simp only [set, alter]
    split
    · exact List.mem_cons_self
    · rename_i heq
      rw [Std.LawfulEqOrd.eq_of_compare heq]
      exact List.mem_cons_self
    · exact List.mem_cons_of_mem _ mem_set_self

/-- A key that is set is found. -/
theorem find?_set_self (key : κ) (value : ν) : ∀ entries : List (κ × ν),
    find? key (set key value entries) = some value
  | [] => find?_cons_self key value []
  | (k, v) :: rest => by
    simp only [set, alter]
    split
    · exact find?_cons_self key value _
    · rename_i heq
      obtain rfl := Std.LawfulEqOrd.eq_of_compare heq
      exact find?_cons_self key value _
    · rename_i hgt
      have hne : key ≠ k := by
        rintro rfl
        simp at hgt
      rw [find?_cons_ne hne]
      exact find?_set_self key value rest

omit [Std.LawfulEqOrd κ] in
/-- Setting a key adds one entry at most. -/
theorem length_set_le (key : κ) (value : ν) : ∀ entries : List (κ × ν),
    (set key value entries).length ≤ entries.length + 1
  | [] => Nat.le_refl _
  | (k, v) :: rest => by
    simp only [set, alter]
    split
    · exact Nat.le_refl _
    · exact Nat.le_succ _
    · exact Nat.succ_le_succ (length_set_le key value rest)

/-- Setting a key leaves the entries of others. -/
theorem mem_set_of_ne {key : κ} {value : ν} {entry : κ × ν} (hne : entry.1 ≠ key) :
    ∀ {entries : List (κ × ν)}, entry ∈ entries → entry ∈ set key value entries
  | (k, v) :: rest, h => by
    simp only [set, alter]
    split
    · exact List.mem_cons_of_mem _ h
    · rename_i heq
      rcases List.mem_cons.mp h with rfl | h
      · exact absurd (Std.LawfulEqOrd.eq_of_compare heq).symm hne
      · exact List.mem_cons_of_mem _ h
    · rcases List.mem_cons.mp h with rfl | h
      · exact List.mem_cons_self
      · exact List.mem_cons_of_mem _ (mem_set_of_ne hne h)

/-- A new key adds an entry. -/
theorem set_perm {key : κ} (value : ν) : ∀ {entries : List (κ × ν)}, find? key entries = none →
    (set key value entries).Perm ((key, value) :: entries)
  | [], _ => .refl _
  | (k, v) :: rest, h => by
    have hne : key ≠ k := by
      rintro rfl
      rw [find?_cons_self] at h
      cases h
    rw [find?_cons_ne hne] at h
    simp only [set, alter]
    split
    · exact .refl _
    · rename_i heq
      exact absurd (Std.LawfulEqOrd.eq_of_compare heq) hne
    · exact ((set_perm value h).cons _).trans (.swap _ _ _)

/-- New keys add entries. -/
theorem foldl_set_perm : ∀ (added table : List (κ × ν)),
    (added.map Prod.fst ++ table.map Prod.fst).Nodup →
    (added.foldl (fun table entry => set entry.1 entry.2 table) table).Perm (added ++ table)
  | [], table, _ => .refl _
  | entry :: rest, table, h => by
    rw [List.map_cons, List.cons_append] at h
    have hnew : entry.1 ∉ table.map Prod.fst := fun hmem =>
      (List.nodup_cons.mp h).1 (List.mem_append_right _ hmem)
    have hset := set_perm entry.2 (find?_eq_none_iff.mpr hnew)
    have hnodup : (rest.map Prod.fst ++ (set entry.1 entry.2 table).map Prod.fst).Nodup :=
      (((hset.map Prod.fst).append_left _).trans List.perm_middle).nodup_iff.mpr h
    exact (foldl_set_perm rest _ hnodup).trans ((hset.append_left _).trans List.perm_middle)

theorem find?_eq_none_of_lt {key : κ} {entries : List (κ × ν)}
    (h : ∀ k ∈ entries.map Prod.fst, compare key k = .lt) : find? key entries = none := by
  rw [find?_eq_none_iff]
  intro hmem
  exact absurd rfl (ne_of_lt (h key hmem))

/-- An entry is found if the keys increase. -/
theorem find?_of_mem {key : κ} {value : ν} : ∀ {entries : List (κ × ν)},
    IncreasingKeys entries → (key, value) ∈ entries → find? key entries = some value
  | (k, v) :: rest, h, hmem => by
    have hk := List.pairwise_cons.mp h
    rcases List.mem_cons.mp hmem with heq | hmem
    · obtain ⟨rfl, rfl⟩ := Prod.mk.injEq .. ▸ heq
      exact find?_cons_self _ _ _
    · have hlt := hk.1 key (List.mem_map.mpr ⟨_, hmem, rfl⟩)
      rw [find?_cons_ne (ne_of_lt hlt).symm]
      exact find?_of_mem hk.2 hmem

/-- Maps with the same keys and the same values at them are equal. -/
theorem eq_of_find? : ∀ {a b : List (κ × ν)}, IncreasingKeys a → IncreasingKeys b →
    a.map Prod.fst = b.map Prod.fst →
    (∀ key va vb, find? key a = some va → find? key b = some vb → va = vb) → a = b
  | [], b, _, _, hkeys, _ => by
    rw [List.map_nil, eq_comm, List.map_eq_nil_iff] at hkeys
    exact hkeys.symm
  | (k, v) :: a, [], _, _, hkeys, _ => by simp at hkeys
  | (k, v) :: a, (k', v') :: b, ha, hb, hkeys, hvalues => by
    simp only [List.map_cons, List.cons.injEq] at hkeys
    obtain ⟨rfl, hkeys⟩ := hkeys
    have ha' := List.pairwise_cons.mp ha
    have hb' := List.pairwise_cons.mp hb
    obtain rfl := hvalues k v v' (find?_cons_self _ _ _) (find?_cons_self _ _ _)
    refine congrArg _ (eq_of_find? ha'.2 hb'.2 hkeys fun key va vb hva hvb => ?_)
    have hmem : key ∈ a.map Prod.fst := find?_isSome_iff.mp (by rw [hva]; rfl)
    have hne := (ne_of_lt (ha'.1 key hmem)).symm
    exact hvalues key va vb (by rwa [find?_cons_ne hne]) (by rwa [find?_cons_ne hne])

variable [Std.TransOrd κ]

/-- A key that is changed is found if the keys increase. -/
theorem find?_alter_self (key : κ) (f : Option ν → ν) : ∀ {entries : List (κ × ν)},
    IncreasingKeys entries → find? key (alter key f entries) = some (f (find? key entries))
  | [], _ => by simp [alter, find?]
  | (k, v) :: rest, h => by
    have hk := List.pairwise_cons.mp h
    simp only [alter]
    split
    · rename_i hlt
      have hnone : find? key ((k, v) :: rest) = none := by
        refine find?_eq_none_of_lt fun c hc => ?_
        rcases List.mem_cons.mp hc with rfl | hc
        · exact hlt
        · exact Std.TransCmp.lt_trans hlt (hk.1 c hc)
      rw [find?_cons_self, hnone]
    · rename_i heq
      rw [Std.LawfulEqOrd.eq_of_compare heq, find?_cons_self, find?_cons_self]
    · rename_i hgt
      have hne : key ≠ k := (ne_of_lt (Std.OrientedCmp.lt_of_gt hgt)).symm
      rw [find?_cons_ne hne, find?_cons_ne hne]
      exact find?_alter_self key f hk.2

/-- Changing a key keeps the order. -/
theorem increasingKeys_alter (key : κ) (f : Option ν → ν) : ∀ {entries : List (κ × ν)},
    IncreasingKeys entries → IncreasingKeys (alter key f entries)
  | [], _ => by simp [alter, IncreasingKeys, Increasing]
  | (k, v) :: rest, h => by
    have hk := List.pairwise_cons.mp h
    simp only [alter]
    split
    · rename_i hlt
      refine List.pairwise_cons.mpr ⟨fun c hc => ?_, h⟩
      rcases List.mem_cons.mp hc with rfl | hc
      · exact hlt
      · exact Std.TransCmp.lt_trans hlt (hk.1 c hc)
    · exact h
    · rename_i hgt
      refine List.pairwise_cons.mpr ⟨fun c hc => ?_, increasingKeys_alter key f hk.2⟩
      rcases (mem_keys_alter f).mp hc with rfl | hc
      · exact Std.OrientedCmp.lt_of_gt hgt
      · exact hk.1 c hc

end Maps

end Lode.Sorted
