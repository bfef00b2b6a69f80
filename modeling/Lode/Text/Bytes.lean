/-
# Texts measured in bytes

Columns and lengths are counted in bytes of the UTF-8 encoding, while the lexer works on lists of
characters.  This file measures character lists in bytes, cuts them at a byte count, and splits a
text into lines that keep their line break.

`splitBytes` is the only cut, and it fails where the count falls inside a character or past the
end, so a successful cut always lies between two characters.
-/

namespace Lode

/-! ## 1. Lengths -/

/-- Length of a list of characters in bytes. -/
def byteLength : List Char → Nat
  | [] => 0
  | c :: cs => c.utf8Size + byteLength cs

@[simp] theorem byteLength_nil : byteLength [] = 0 := rfl

@[simp] theorem byteLength_cons (c : Char) (cs : List Char) :
    byteLength (c :: cs) = c.utf8Size + byteLength cs := rfl

theorem byteLength_append (xs ys : List Char) :
    byteLength (xs ++ ys) = byteLength xs + byteLength ys := by
  induction xs with
  | nil => simp
  | cons c cs ih => simp [ih, Nat.add_assoc]

/-! ## 2. Cuts -/

/-- The first `count` bytes and the rest, if the cut falls between two characters of the list. -/
def splitBytes : Nat → List Char → Option (List Char × List Char)
  | 0, cs => some ([], cs)
  | _ + 1, [] => none
  | count + 1, c :: cs =>
    if c.utf8Size ≤ count + 1 then
      (splitBytes (count + 1 - c.utf8Size) cs).map fun (front, back) => (c :: front, back)
    else
      none

/-- A list is cut behind what it begins with. -/
theorem splitBytes_byteLength : ∀ read rest : List Char,
    splitBytes (byteLength read) (read ++ rest) = some (read, rest)
  | [], rest => by cases rest <;> rfl
  | c :: read, rest => by
    have hpos : 0 < c.utf8Size := Char.utf8Size_pos c
    obtain ⟨k, hk⟩ : ∃ k, byteLength (c :: read) = k + 1 :=
      ⟨c.utf8Size + byteLength read - 1, by rw [byteLength_cons]; omega⟩
    have hrest : k + 1 - c.utf8Size = byteLength read := by rw [← hk, byteLength_cons]; omega
    rw [hk, List.cons_append, splitBytes, if_pos (by rw [← hk, byteLength_cons]; omega), hrest,
      splitBytes_byteLength read rest]
    rfl

/-- What a successful cut takes. -/
theorem eq_append_of_splitBytes : ∀ {count : Nat} {cs front back : List Char},
    splitBytes count cs = some (front, back) → cs = front ++ back ∧ byteLength front = count
  | 0, _, _, _, h => by
    rw [splitBytes] at h
    cases h
    exact ⟨rfl, rfl⟩
  | _ + 1, [], _, _, h => by cases h
  | count + 1, c :: cs, front, back, h => by
    rw [splitBytes] at h
    obtain ⟨hsize, hcut⟩ := Option.ite_none_right_eq_some.mp h
    obtain ⟨⟨first, rest⟩, hfirst, hcut⟩ := Option.map_eq_some_iff.mp hcut
    obtain ⟨rfl, rfl⟩ := Prod.mk.inj hcut
    obtain ⟨rfl, hlength⟩ := eq_append_of_splitBytes hfirst
    refine ⟨rfl, ?_⟩
    rw [byteLength_cons, hlength]
    omega

/-- Rows of the same length with something behind them are the same rows. -/
theorem append_inj_byteLength {front front' back back' : List Char} (h : front ++ back = front' ++ back')
    (hlength : byteLength front = byteLength front') : front = front' ∧ back = back' := by
  have hsplit := splitBytes_byteLength front back
  rw [h, hlength, splitBytes_byteLength] at hsplit
  obtain ⟨rfl, rfl⟩ := Prod.mk.inj (Option.some.inj hsplit)
  exact ⟨rfl, rfl⟩

/-! ## 3. Lines -/

/-- The lines of a text, each with its line break; the last one may have none.  `current` holds the
characters of the line being read, in reverse. -/
def splitLinesFrom (current : List Char) : List Char → List (List Char)
  | [] => if current.isEmpty then [] else [current.reverse]
  | '\n' :: cs => ('\n' :: current).reverse :: splitLinesFrom [] cs
  | c :: cs => splitLinesFrom (c :: current) cs

/-- The lines of a text, each with its line break. -/
def splitLines (text : List Char) : List (List Char) := splitLinesFrom [] text

end Lode
