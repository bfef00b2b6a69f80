/-
# Descriptors of types

The descriptor of a type is read back as the type, and a list of bytes that is read as a type is its
descriptor, so the two are inverse to each other on what they accept (`descriptor_bijective`).  A type has a
descriptor exactly if its lists of parameters and its names are short enough (`Ty.Short`), as their lengths
are written into one byte each.

Reading leaves what follows a descriptor untouched, whatever it is (`decodeWithin_append`); nested types and
lists of parameters are read one after the other for this reason, and no descriptor begins another one.

The other direction is proved by itself (`eq_append_of_decodeWithin`): it does not follow from the first
one, which says nothing about bytes that are no descriptor.  It goes by the byte that says which kind of
type follows, and needs that every byte in between has one meaning only: a width and a sign that were read
are written in the same byte again, and a count is written as it was read.

The budget of the reader is never used up, because every nested type takes a byte (`decodeWithin_budget`).

Descriptors are also written in digits.  This layer refuses odd numbers of digits and other characters, and
is a bijection of its own between bytes and their digits.
-/
import Lode.Proofs.Text.Digits
import Lode.Types.Descriptor

namespace Lode.Ty

/-! ## 1. Types that can be written -/

mutual

/-- All integers have one to four bytes. -/
def Sized : Ty → Prop
  | int width _ => 1 ≤ width ∧ width ≤ 4
  | ref target => target.Sized
  | function result params => result.Sized ∧ AllSized params
  | void | phantom _ => True

/-- All integers of a list of types have one to four bytes. -/
def AllSized : List Ty → Prop
  | [] => True
  | t :: ts => t.Sized ∧ AllSized ts

end

mutual

/-- No list of parameters has more than 255 members, and no name more than 255 bytes. -/
def Short : Ty → Prop
  | int _ _ | void => True
  | ref target => target.Short
  | function result params => params.length ≤ 255 ∧ result.Short ∧ AllShort params
  | phantom name => name.utf8ByteSize ≤ 255

/-- All types of a list are short. -/
def AllShort : List Ty → Prop
  | [] => True
  | t :: ts => t.Short ∧ AllShort ts

end

theorem countByte_eq_ok {count : Nat} {problem : DescriptorProblem} {b : UInt8} :
    countByte count problem = .ok b ↔ count ≤ 255 ∧ UInt8.ofNat count = b := by
  rw [countByte, ite_else_error_eq_ok, Except.ok.injEq, Nat.lt_succ_iff]

theorem toNat_of_countByte {count : Nat} {problem : DescriptorProblem} {b : UInt8}
    (h : countByte count problem = .ok b) : b.toNat = count := by
  obtain ⟨hle, rfl⟩ := countByte_eq_ok.mp h
  exact toNat_byteOfNat (by omega)

theorem countByte_toNat (b : UInt8) (problem : DescriptorProblem) : countByte b.toNat problem = .ok b :=
  countByte_eq_ok.mpr ⟨Nat.le_of_lt_succ b.toNat_lt, UInt8.ofNat_toNat⟩

/-- How the descriptor of a function came to be. -/
theorem encode_function_eq_ok {result : Ty} {params : List Ty} {bytes : List UInt8} :
    encode (function result params) = .ok bytes ↔ ∃ front count back, encode result = .ok front ∧
      countByte params.length (.tooManyArguments params.length) = .ok count ∧
      encodeAll params = .ok back ∧ bytes = 0x03 :: front ++ count :: back := by
  simp only [encode, bind_eq_ok, pure, Except.pure, Except.ok.injEq]
  constructor
  · rintro ⟨front, hfront, count, hcount, back, hback, rfl⟩
    exact ⟨front, count, back, hfront, hcount, hback, rfl⟩
  · rintro ⟨front, count, back, hfront, hcount, hback, rfl⟩
    exact ⟨front, hfront, count, hcount, back, hback, rfl⟩

/-- Types are written one after the other. -/
theorem encodeAll_cons_eq_ok {t : Ty} {ts : List Ty} {bytes : List UInt8} :
    encodeAll (t :: ts) = .ok bytes ↔ ∃ front back, encode t = .ok front ∧ encodeAll ts = .ok back ∧
      bytes = front ++ back := by
  simp only [encodeAll, bind_eq_ok, pure, Except.pure, Except.ok.injEq]
  constructor
  · rintro ⟨front, hfront, back, hback, rfl⟩
    exact ⟨front, back, hfront, hback, rfl⟩
  · rintro ⟨front, back, hfront, hback, rfl⟩
    exact ⟨front, hfront, back, hback, rfl⟩

theorem encode_ref_eq_ok {target : Ty} {bytes : List UInt8} :
    encode (ref target) = .ok bytes ↔ ∃ inner, encode target = .ok inner ∧ bytes = 0x02 :: inner := by
  simp only [encode, bind_eq_ok, pure, Except.pure, Except.ok.injEq, eq_comm (a := bytes)]

theorem encode_phantom_eq_ok {name : String} {bytes : List UInt8} :
    encode (phantom name) = .ok bytes ↔ ∃ count,
      countByte (encodeUtf8 name).length (.nameTooLong (encodeUtf8 name).length) = .ok count ∧
      bytes = 0x05 :: count :: encodeUtf8 name := by
  simp only [encode, bind_eq_ok, pure, Except.pure, Except.ok.injEq, eq_comm (a := bytes)]

mutual

/-- **A type has a descriptor** exactly if it is short. -/
theorem encode_ok_iff : ∀ t : Ty, (∃ bytes, encode t = .ok bytes) ↔ t.Short
  | int width signed => by simp [encode, Short]
  | void => by simp [encode, Short]
  | ref target => by
    rw [Short, ← encode_ok_iff target]
    simp only [encode_ref_eq_ok]
    exact ⟨fun ⟨_, inner, hinner, _⟩ => ⟨inner, hinner⟩, fun ⟨inner, hinner⟩ => ⟨_, inner, hinner, rfl⟩⟩
  | phantom name => by
    rw [Short, ← length_encodeUtf8]
    simp only [encode_phantom_eq_ok, countByte_eq_ok]
    exact ⟨fun ⟨_, _, ⟨hle, _⟩, _⟩ => hle, fun hle => ⟨_, _, ⟨hle, rfl⟩, rfl⟩⟩
  | function result params => by
    rw [Short, ← encode_ok_iff result, ← encodeAll_ok_iff params]
    simp only [encode_function_eq_ok, countByte_eq_ok]
    constructor
    · rintro ⟨_, front, _, back, hfront, ⟨hle, _⟩, hback, _⟩
      exact ⟨hle, ⟨front, hfront⟩, back, hback⟩
    · rintro ⟨hle, ⟨front, hfront⟩, back, hback⟩
      exact ⟨_, front, _, back, hfront, ⟨hle, rfl⟩, hback, rfl⟩

/-- Types have descriptors exactly if they are short. -/
theorem encodeAll_ok_iff : ∀ ts : List Ty, (∃ bytes, encodeAll ts = .ok bytes) ↔ AllShort ts
  | [] => by simp [encodeAll, AllShort]
  | t :: ts => by
    rw [AllShort, ← encode_ok_iff t, ← encodeAll_ok_iff ts]
    simp only [encodeAll_cons_eq_ok]
    constructor
    · rintro ⟨_, front, back, hfront, hback, _⟩
      exact ⟨⟨front, hfront⟩, back, hback⟩
    · rintro ⟨⟨front, hfront⟩, back, hback⟩
      exact ⟨_, front, back, hfront, hback, rfl⟩

end

/-! ## 2. Reading what was written -/

/-- The byte of an integer holds its width and its sign. -/
theorem widthByte {width : Nat} (signed : Bool) (h : 1 ≤ width ∧ width ≤ 4) :
    (UInt8.ofNat width ||| (if signed then 0x80 else 0)).toNat = width + if signed then 128 else 0 := by
  obtain rfl | rfl | rfl | rfl : width = 1 ∨ width = 2 ∨ width = 3 ∨ width = 4 := by omega
  all_goals cases signed <;> rfl

/-- What is read after the byte that says which kind of type it is. -/
theorem decodeWithin_cons (fuel : Nat) (tag : UInt8) (bs : List UInt8) :
    decodeWithin (fuel + 1) (tag :: bs) =
      if tag = 0x01 then do
        let (b, bs) ← takeByte bs
        if b.toNat % 128 < 1 || 4 < b.toNat % 128 then throw (.integerWidth (b.toNat % 128))
        return (int (b.toNat % 128) (decide (128 ≤ b.toNat)), bs)
      else if tag = 0x02 then do
        let (target, bs) ← decodeWithin fuel bs
        return (ref target, bs)
      else if tag = 0x03 then do
        let (result, bs) ← decodeWithin fuel bs
        let (count, bs) ← takeByte bs
        let (params, bs) ← decodeMany (decodeWithin fuel) count.toNat bs
        return (function result params, bs)
      else if tag = 0x04 then return (void, bs)
      else if tag = 0x05 then do
        let (count, bs) ← takeByte bs
        if bs.length < count.toNat then throw .truncatedName
        let name ← (decodeUtf8 (bs.take count.toNat)).mapError .nameEncoding
        return (phantom name, bs.drop count.toNat)
      else throw (.unknownTag tag) := rfl

mutual

/-- **Reading a descriptor** gives the type and leaves what follows. -/
theorem decodeWithin_append : ∀ {t : Ty} {bytes : List UInt8} {fuel : Nat}, t.Sized →
    encode t = .ok bytes → bytes.length < fuel → ∀ rest : List UInt8,
    decodeWithin fuel (bytes ++ rest) = .ok (t, rest)
  | _, _, 0, _, _, hfuel, _ => absurd hfuel (Nat.not_lt_zero _)
  | int width signed, bytes, fuel + 1, hsized, h, _, rest => by
    obtain rfl := Except.ok.inj h
    have hsize : 1 ≤ width ∧ width ≤ 4 := by rwa [Sized] at hsized
    have hbyte := widthByte signed hsize
    rw [List.cons_append, List.cons_append, List.nil_append, decodeWithin_cons, if_pos rfl, takeByte,
      ok_bind]
    simp only [hbyte]
    have hwidth : (width + if signed then 128 else 0) % 128 = width := by split <;> omega
    have hsign : decide (128 ≤ width + if signed then 128 else 0) = signed := by
      cases signed with
      | true => simp
      | false =>
        simp only [Bool.false_eq_true, if_false, decide_eq_false_iff_not]
        omega
    rw [hwidth, hsign, if_neg (by simp; omega)]
    rfl
  | void, bytes, fuel + 1, _, h, _, rest => by
    obtain rfl := Except.ok.inj h
    rfl
  | ref target, bytes, fuel + 1, hsized, h, hfuel, rest => by
    obtain ⟨inner, hinner, rfl⟩ := encode_ref_eq_ok.mp h
    have ih := @decodeWithin_append target _ fuel (by rwa [Sized] at hsized) hinner
      (by simpa using hfuel) rest
    rw [List.cons_append, decodeWithin_cons, if_neg (by decide), if_pos rfl, ih]
    rfl
  | phantom name, bytes, fuel + 1, _, h, _, rest => by
    obtain ⟨count, hcount, rfl⟩ := encode_phantom_eq_ok.mp h
    have hlength := toNat_of_countByte hcount
    have hname : decodeUtf8 (encodeUtf8 name) = .ok name := decodeUtf8_eq_ok.mpr rfl
    rw [List.cons_append, List.cons_append, decodeWithin_cons, if_neg (by decide), if_neg (by decide),
      if_neg (by decide), if_neg (by decide), if_pos rfl, takeByte, ok_bind]
    simp only [hlength, List.take_left, List.drop_left, hname]
    rw [if_neg (by simp)]
    rfl
  | function result params, bytes, fuel + 1, hsized, h, hfuel, rest => by
    obtain ⟨front, count, back, hfront, hcount, hback, rfl⟩ := encode_function_eq_ok.mp h
    rw [Sized] at hsized
    simp only [List.cons_append, List.length_cons, List.length_append] at hfuel
    have ih := @decodeWithin_append _ _ fuel hsized.1 hfront (by omega) (count :: (back ++ rest))
    have iha := @decodeMany_append _ _ fuel hsized.2 hback (by omega) rest
    have hlength := toNat_of_countByte hcount
    rw [List.cons_append, List.cons_append, List.append_assoc, List.cons_append, decodeWithin_cons,
      if_neg (by decide), if_neg (by decide), if_pos rfl, ih, ok_bind]
    simp only [takeByte, ok_bind, hlength, iha]
    rfl

/-- Types are read one after the other. -/
theorem decodeMany_append : ∀ {ts : List Ty} {bytes : List UInt8} {fuel : Nat}, AllSized ts →
    encodeAll ts = .ok bytes → bytes.length < fuel → ∀ rest : List UInt8,
    decodeMany (decodeWithin fuel) ts.length (bytes ++ rest) = .ok (ts, rest)
  | [], bytes, fuel, _, h, _, rest => by
    obtain rfl := Except.ok.inj h
    rfl
  | t :: ts, bytes, fuel, hsized, h, hfuel, rest => by
    obtain ⟨front, back, hfront, hback, rfl⟩ := encodeAll_cons_eq_ok.mp h
    rw [AllSized] at hsized
    rw [List.length_append] at hfuel
    rw [List.length_cons, decodeMany, List.append_assoc,
      decodeWithin_append hsized.1 hfront (by omega), ok_bind]
    simp only [decodeMany_append hsized.2 hback (by omega : back.length < fuel) rest, ok_bind]
    rfl

end

/-! ## 3. Writing what was read -/

theorem takeByte_eq_ok {bs rest : List UInt8} {b : UInt8} : takeByte bs = .ok (b, rest) ↔ bs = b :: rest := by
  cases bs with
  | nil => simp [takeByte]
  | cons => simp [takeByte]

/-- A byte of a width between one and four is made up of the width and the sign. -/
theorem widthByte_eq {b : UInt8} (h : 1 ≤ b.toNat % 128 ∧ b.toNat % 128 ≤ 4) :
    UInt8.ofNat (b.toNat % 128) ||| (if decide (128 ≤ b.toNat) then 0x80 else 0) = b := by
  refine UInt8.toNat_inj.mp ?_
  rw [widthByte _ h]
  have hlt := b.toNat_lt
  simp only [decide_eq_true_eq]
  split <;> omega

/-- Types that are read one after the other, each as its descriptor. -/
theorem eq_append_of_decodeMany {decodeOne : List UInt8 → Except DescriptorProblem (Ty × List UInt8)}
    (hone : ∀ {bs rest t}, decodeOne bs = .ok (t, rest) →
      t.Sized ∧ ∃ bytes, encode t = .ok bytes ∧ bs = bytes ++ rest) :
    ∀ {count : Nat} {bs rest : List UInt8} {ts : List Ty}, decodeMany decodeOne count bs = .ok (ts, rest) →
    ts.length = count ∧ AllSized ts ∧ ∃ bytes, encodeAll ts = .ok bytes ∧ bs = bytes ++ rest
  | 0, bs, rest, ts, h => by
    obtain ⟨rfl, rfl⟩ := Prod.mk.inj (Except.ok.inj h)
    exact ⟨rfl, trivial, [], rfl, rfl⟩
  | count + 1, bs, rest, ts, h => by
    obtain ⟨⟨t, bs1⟩, ht, h⟩ := bind_eq_ok.mp h
    obtain ⟨⟨ts', bs2⟩, hts, h⟩ := bind_eq_ok.mp h
    obtain ⟨rfl, rfl⟩ := Prod.mk.inj (Except.ok.inj h)
    obtain ⟨hsized, front, hfront, rfl⟩ := hone ht
    obtain ⟨hlength, hall, back, hback, rfl⟩ := eq_append_of_decodeMany hone hts
    exact ⟨congrArg (· + 1) hlength, ⟨hsized, hall⟩, front ++ back,
      encodeAll_cons_eq_ok.mpr ⟨front, back, hfront, hback, rfl⟩, (List.append_assoc ..).symm⟩

/-- **What was read** is the descriptor of the type that was found. -/
theorem eq_append_of_decodeWithin : ∀ {fuel : Nat} {bs rest : List UInt8} {t : Ty},
    decodeWithin fuel bs = .ok (t, rest) → t.Sized ∧ ∃ bytes, encode t = .ok bytes ∧ bs = bytes ++ rest
  | 0, _, _, _, h => by cases h
  | _ + 1, [], _, _, h => by cases h
  | fuel + 1, tag :: bs, rest, t, h => by
    rw [decodeWithin_cons] at h
    split at h
    · rename_i htag
      -- an integer: its width and sign are in one byte
      obtain ⟨⟨b, bs1⟩, hb, hint⟩ := bind_eq_ok.mp h
      obtain rfl := takeByte_eq_ok.mp hb
      dsimp only at hint
      split at hint
      · cases hint
      · rename_i hwidth
        obtain ⟨rfl, rfl⟩ := Prod.mk.inj (Except.ok.inj hint)
        have hsize : 1 ≤ b.toNat % 128 ∧ b.toNat % 128 ≤ 4 := by
          simp only [Bool.or_eq_true, decide_eq_true_eq] at hwidth
          omega
        exact ⟨hsize, _, rfl, by rw [htag, widthByte_eq hsize]; rfl⟩
    split at h
    · rename_i htag
      -- a reference
      obtain ⟨⟨target, bs1⟩, htarget, h⟩ := bind_eq_ok.mp h
      obtain ⟨rfl, rfl⟩ := Prod.mk.inj (Except.ok.inj h)
      obtain ⟨hsized, inner, hinner, rfl⟩ := eq_append_of_decodeWithin htarget
      exact ⟨hsized, _, encode_ref_eq_ok.mpr ⟨inner, hinner, rfl⟩, by rw [htag]; rfl⟩
    split at h
    · rename_i htag
      -- a function: its result, and as many parameters as the count says
      obtain ⟨⟨result, bs1⟩, hresult, h⟩ := bind_eq_ok.mp h
      obtain ⟨⟨count, bs2⟩, hcount, h⟩ := bind_eq_ok.mp h
      obtain ⟨⟨params, bs3⟩, hparams, h⟩ := bind_eq_ok.mp h
      obtain ⟨rfl, rfl⟩ := Prod.mk.inj (Except.ok.inj h)
      obtain ⟨hsized, front, hfront, rfl⟩ := eq_append_of_decodeWithin hresult
      obtain rfl := takeByte_eq_ok.mp hcount
      obtain ⟨hlength, hall, back, hback, rfl⟩ :=
        eq_append_of_decodeMany (fun h => eq_append_of_decodeWithin h) hparams
      have hbyte : countByte params.length (.tooManyArguments params.length) = .ok count := by
        rw [hlength]
        exact countByte_toNat count _
      refine ⟨⟨hsized, hall⟩, _, encode_function_eq_ok.mpr ⟨front, count, back, hfront, hbyte, hback, rfl⟩, ?_⟩
      rw [htag]
      simp
    split at h
    · rename_i htag
      -- no value
      obtain ⟨rfl, rfl⟩ := Prod.mk.inj (Except.ok.inj h)
      exact ⟨trivial, _, rfl, by rw [htag]; rfl⟩
    split at h
    · rename_i htag
      -- a name: as many bytes as its length says, which are a text
      obtain ⟨⟨count, bs1⟩, hcount, hphantom⟩ := bind_eq_ok.mp h
      obtain rfl := takeByte_eq_ok.mp hcount
      dsimp only at hphantom
      split at hphantom
      · cases hphantom
      · rename_i hlong
        obtain ⟨name, hname, hphantom⟩ := bind_eq_ok.mp hphantom
        obtain ⟨rfl, rfl⟩ := Prod.mk.inj (Except.ok.inj hphantom)
        have hbytes := decodeUtf8_eq_ok.mp (mapError_eq_ok.mp hname)
        have hlength : (encodeUtf8 name).length = count.toNat := by
          rw [← hbytes, List.length_take]
          omega
        have hbyte : countByte (encodeUtf8 name).length (.nameTooLong (encodeUtf8 name).length) =
            .ok count := by
          rw [hlength]
          exact countByte_toNat count _
        refine ⟨trivial, _, encode_phantom_eq_ok.mpr ⟨count, hbyte, rfl⟩, ?_⟩
        rw [htag, ← hbytes, List.cons_append, List.cons_append, List.take_append_drop]
    · cases h

/-- A descriptor has a byte. -/
theorem encode_ne_nil : ∀ {t : Ty} {bytes : List UInt8}, encode t = .ok bytes → bytes ≠ []
  | int _ _, _, h => by
    obtain rfl := Except.ok.inj h
    exact List.cons_ne_nil _ _
  | void, _, h => by
    obtain rfl := Except.ok.inj h
    exact List.cons_ne_nil _ _
  | ref _, _, h => by
    obtain ⟨inner, -, rfl⟩ := encode_ref_eq_ok.mp h
    exact List.cons_ne_nil _ _
  | function _ _, _, h => by
    obtain ⟨front, count, back, -, -, -, rfl⟩ := encode_function_eq_ok.mp h
    exact List.cons_ne_nil _ _
  | phantom _, _, h => by
    obtain ⟨count, -, rfl⟩ := encode_phantom_eq_ok.mp h
    exact List.cons_ne_nil _ _

theorem length_lt_of_decodeWithin {fuel : Nat} {bs rest : List UInt8} {t : Ty}
    (h : decodeWithin fuel bs = .ok (t, rest)) : rest.length < bs.length := by
  obtain ⟨-, bytes, hbytes, rfl⟩ := eq_append_of_decodeWithin h
  have hpos := List.length_pos_iff.mpr (encode_ne_nil hbytes)
  rw [List.length_append]
  omega

/-! ## 4. The budget of the reader -/

/-- Two readers that agree on all shorter lists read the same row of types. -/
theorem decodeMany_congr {one other : List UInt8 → Except DescriptorProblem (Ty × List UInt8)}
    {limit : Nat} (hagree : ∀ bs : List UInt8, bs.length < limit → one bs = other bs)
    (hshorter : ∀ {bs rest t}, other bs = .ok (t, rest) → rest.length < bs.length) :
    ∀ (count : Nat) {bs : List UInt8}, bs.length < limit →
    decodeMany one count bs = decodeMany other count bs
  | 0, _, _ => rfl
  | count + 1, bs, hlimit => by
    rw [decodeMany, decodeMany, hagree bs hlimit]
    cases hone : other bs with
    | error e => rfl
    | ok found =>
      obtain ⟨t, rest⟩ := found
      have hlt := hshorter hone
      rw [ok_bind, ok_bind]
      simp only
      rw [decodeMany_congr hagree hshorter count (by omega)]

/-- **The budget of the reader** is never used up: a larger one changes nothing. -/
theorem decodeWithin_budget : ∀ {fuel : Nat} {bs : List UInt8}, bs.length < fuel →
    decodeWithin (fuel + 1) bs = decodeWithin fuel bs
  | 0, _, h => absurd h (Nat.not_lt_zero _)
  | _ + 1, [], _ => rfl
  | fuel + 1, tag :: bs, h => by
    have hbs : bs.length < fuel := by simpa using h
    rw [decodeWithin_cons, decodeWithin_cons, decodeWithin_budget hbs]
    cases hresult : decodeWithin fuel bs with
    | error e => rfl
    | ok found =>
      obtain ⟨result, bs1⟩ := found
      have hlt := length_lt_of_decodeWithin hresult
      have hmany : ∀ count (bs2 : List UInt8), bs2.length < fuel →
          decodeMany (decodeWithin (fuel + 1)) count bs2 = decodeMany (decodeWithin fuel) count bs2 :=
        fun count bs2 hbs2 => decodeMany_congr (fun bs hbs => decodeWithin_budget hbs)
          length_lt_of_decodeWithin count hbs2
      cases bs1 with
      | nil => rfl
      | cons count bs2 =>
        simp only [ok_bind, takeByte]
        rw [hmany count.toNat bs2 (by rw [List.length_cons] at hlt; omega)]

theorem decodeWithin_of_le {bs : List UInt8} {fuel : Nat} (h : bs.length + 1 ≤ fuel) :
    decodeWithin fuel bs = decodeWithin (bs.length + 1) bs := by
  induction h with
  | refl => rfl
  | step hle ih => rw [decodeWithin_budget hle, ih]

/-! ## 5. Whole descriptors -/

/-- **Bytes are read as a type** exactly if they are its descriptor. -/
theorem decode_eq_ok {bytes : List UInt8} {t : Ty} :
    decode bytes = .ok t ↔ t.Sized ∧ encode t = .ok bytes := by
  constructor
  · intro h
    obtain ⟨⟨found, rest⟩, hfound, h⟩ := bind_eq_ok.mp h
    cases rest with
    | nil =>
      obtain rfl := Except.ok.inj h
      obtain ⟨hsized, bytes', hbytes, rfl⟩ := eq_append_of_decodeWithin hfound
      exact ⟨hsized, by rwa [List.append_nil]⟩
    | cons b rest => cases h
  · rintro ⟨hsized, hbytes⟩
    have hread := decodeWithin_append hsized hbytes (Nat.lt_succ_self _) []
    rw [List.append_nil] at hread
    rw [decode, hread]
    rfl

/-- No descriptor begins another one. -/
theorem eq_of_encode_prefix {s t : Ty} {front bytes : List UInt8} (hs : s.Sized) (ht : t.Sized)
    (hfront : encode s = .ok front) (hbytes : encode t = .ok bytes) (h : front <+: bytes) : s = t := by
  obtain ⟨rest, rfl⟩ := h
  have hone := @decodeWithin_append _ _ ((front ++ rest).length + 1) hs hfront
    (by rw [List.length_append]; omega) rest
  have hother := decodeWithin_append ht hbytes (Nat.lt_succ_self _) []
  rw [List.append_nil, hone] at hother
  exact (Prod.mk.inj (Except.ok.inj hother)).1

/-! ## 6. Descriptors in digits -/

/-- What is read as a digit is one. -/
theorem digitOf_eq_ok {b d : UInt8} (h : digitOf b = .ok d) :
    b.toNat < 0x80 ∧ ∃ n, digitValue? 16 (Char.ofNat b.toNat) = some n ∧ d = UInt8.ofNat n := by
  rw [digitOf] at h
  split at h
  · rename_i n hn
    have hlt := toNat_lt_of_digitValue? hn
    rw [toNat_charOfNat (.inl (by have := b.toNat_lt; omega))] at hlt
    exact ⟨hlt, n, hn, (Except.ok.inj h).symm⟩
  · cases h

theorem digitOf_of_digitValue? {c : Char} {n : Nat} (h : digitValue? 16 c = some n) :
    digitOf (UInt8.ofNat c.toNat) = .ok (UInt8.ofNat n) := by
  have := toNat_lt_of_digitValue? h
  rw [digitOf, toNat_byteOfNat (by omega), Char.ofNat_toNat, h]

/-- The first byte of a text tells whether its first character is one of one byte. -/
theorem encoded_cons {cs : List Char} {b : UInt8} {bs : List UInt8}
    (h : cs.flatMap String.utf8EncodeChar = b :: bs) (hlt : b.toNat < 0x80) :
    ∃ c rest, cs = c :: rest ∧ c.toNat < 0x80 ∧ b = UInt8.ofNat c.toNat ∧
      bs = rest.flatMap String.utf8EncodeChar := by
  cases cs with
  | nil => cases h
  | cons c rest =>
    rw [List.flatMap_cons] at h
    refine ⟨c, rest, rfl, ?_⟩
    by_cases hc : c.toNat < 0x80
    · rw [utf8EncodeChar_one hc] at h
      obtain ⟨rfl, rfl⟩ := List.cons.inj h
      exact ⟨hc, rfl, rfl⟩
    · obtain ⟨first, later, hfirst, hge⟩ := utf8EncodeChar_wide (Nat.le_of_not_lt hc)
      rw [hfirst] at h
      obtain ⟨rfl, -⟩ := List.cons.inj h
      exact absurd hlt (Nat.not_lt_of_le hge)

/-- The first pair of digits is a byte. -/
theorem pairBytes_cons {high low : UInt8} {rest bytes : List UInt8}
    (h : pairBytes (high :: low :: rest) = .ok bytes) : ∃ a b bs, digitOf high = .ok a ∧
      digitOf low = .ok b ∧ pairBytes rest = .ok bs ∧ bytes = (a * 16 + b) :: bs := by
  rw [pairBytes] at h
  obtain ⟨a, ha, h⟩ := bind_eq_ok.mp h
  obtain ⟨b, hb, h⟩ := bind_eq_ok.mp h
  obtain ⟨bs, hbs, h⟩ := bind_eq_ok.mp h
  exact ⟨a, b, bs, ha, hb, hbs, (Except.ok.inj h).symm⟩

theorem digitOf_hexDigit {n : Nat} (h : n < 16) :
    digitOf (UInt8.ofNat (hexDigit n).toNat) = .ok (UInt8.ofNat n) :=
  digitOf_of_digitValue? (digitValue?_hexDigit h)

/-- The digits of bytes are read back. -/
theorem pairBytes_hexBytes : ∀ bytes : List UInt8, pairBytes (encodeUtf8 (hexBytes bytes)) = .ok bytes := by
  intro bytes
  rw [encodeUtf8_hexBytes]
  induction bytes with
  | nil => rfl
  | cons b bytes ih =>
    have hbyte : UInt8.ofNat (b.toNat / 16) * 16 + UInt8.ofNat (b.toNat % 16) = b := by
      refine UInt8.toNat_inj.mp ?_
      have := b.toNat_lt
      simp only [UInt8.toNat_add, UInt8.toNat_mul, UInt8.reduceToNat,
        toNat_byteOfNat (Nat.lt_trans (high_lt b) (by decide)),
        toNat_byteOfNat (Nat.lt_trans (low_lt b) (by decide))]
      omega
    simp only [List.flatMap_cons, byteDigits, List.map_cons, List.map_nil, List.cons_append,
      List.nil_append, pairBytes, digitOf_hexDigit (high_lt b), digitOf_hexDigit (low_lt b), ok_bind]
    simp only [byteDigits, List.map_cons, List.map_nil] at ih
    rw [ih, ok_bind, hbyte]
    rfl

/-- The digits of bytes are read as the bytes are. -/
theorem ofHex_hexBytes (bytes : List UInt8) : ofHex (hexBytes bytes) = decode bytes := by
  have heven : (encodeUtf8 (hexBytes bytes)).length % 2 = 0 := by
    rw [encodeUtf8_hexBytes]
    induction bytes with
    | nil => rfl
    | cons b bytes ih =>
      simp only [List.flatMap_cons, List.length_append, byteDigits, List.map_cons, List.map_nil,
        List.length_cons, List.length_nil] at ih ⊢
      omega
  rw [ofHex, if_neg (by simp [heven]), pairBytes_hexBytes]
  rfl

/-- The digits of a type are read back as the type. -/
theorem ofHex_toHex {t : Ty} {text : String} (hsized : t.Sized) (h : t.toHex = .ok text) :
    ofHex text = .ok t := by
  obtain ⟨bytes, hbytes, rfl⟩ := map_eq_ok.mp h
  rw [ofHex_hexBytes, decode_eq_ok]
  exact ⟨hsized, hbytes⟩

/-- A type is written in digits exactly if it has a descriptor. -/
theorem toHex_ok_iff {t : Ty} : (∃ text, t.toHex = .ok text) ↔ ∃ bytes, encode t = .ok bytes := by
  constructor
  · rintro ⟨_, h⟩
    obtain ⟨bytes, hbytes, -⟩ := map_eq_ok.mp h
    exact ⟨bytes, hbytes⟩
  · rintro ⟨bytes, hbytes⟩
    exact ⟨_, map_eq_ok.mpr ⟨bytes, hbytes, rfl⟩⟩

/-- **Descriptors and types correspond to each other.**  A type of integers of one to four bytes has a
descriptor exactly if it is short, and is read back from it; bytes that are read as a type are its
descriptor, and are read within a budget of one type more than they are.  No descriptor begins that of
another type, and the digits of a type are read back as well. -/
theorem descriptor_bijective :
    (∀ t : Ty, t.Sized → ((∃ bytes, encode t = .ok bytes) ↔ t.Short) ∧
      ∀ bytes, encode t = .ok bytes → decode bytes = .ok t) ∧
    (∀ bytes : List UInt8, (∀ fuel, bytes.length + 1 ≤ fuel →
        decodeWithin fuel bytes = decodeWithin (bytes.length + 1) bytes) ∧
      ∀ t, decode bytes = .ok t → t.Sized ∧ encode t = .ok bytes) ∧
    (∀ s t : Ty, s.Sized → t.Sized → ∀ front bytes, encode s = .ok front → encode t = .ok bytes →
      front <+: bytes → s = t ∧ front = bytes) ∧
    ∀ t : Ty, t.Sized → ((∃ text, t.toHex = .ok text) ↔ t.Short) ∧
      ∀ text, t.toHex = .ok text → ofHex text = .ok t := by
  refine ⟨fun t hsized => ⟨encode_ok_iff t, fun bytes hbytes => decode_eq_ok.mpr ⟨hsized, hbytes⟩⟩,
    fun bytes => ⟨fun fuel hfuel => decodeWithin_of_le hfuel, fun t => decode_eq_ok.mp⟩, ?_, ?_⟩
  · intro s t hs ht front bytes hfront hbytes hbegins
    obtain rfl := eq_of_encode_prefix hs ht hfront hbytes hbegins
    exact ⟨rfl, Except.ok.inj (hfront.symm.trans hbytes)⟩
  · intro t hsized
    exact ⟨toHex_ok_iff.trans (encode_ok_iff t), fun text => ofHex_toHex hsized⟩

end Lode.Ty
