/-
# What expressions match

How long a match is, for the kinds of expressions that tokens are written with: fixed texts, fixed texts
that end where a word ends, and runs of characters of one class.  A run goes on as long as there are
characters of the class (`Front.matchEnd?_loop`), and a text that begins with a character that no thread
waits for has no match at all (`Regex.matchLength?_eq_none`).

A matcher reads a text once and keeps all threads that wait for the next character, in the order in which
they are preferred.  For these expressions there is never more than one thread of each kind, so a front is
computed from the program at the address that was reached (`Front.enter`), and the induction is on the text:
over the characters of a fixed text (`Front.Spells`), or over those of a run (`Front.Loops`).

A text may also be cut in two, with something else put behind the cut.  If what is put there begins with a
character that no instruction reads, then a match that ended before the cut is still the match
(`Regex.matchLength?_cut`): all threads end at that character, and what they had found before it is what
they found in the first text.  Expressions that ask for a border of a word look one character ahead, so they
are left out.
-/
import Lode.Proofs.Language.Names

namespace Lode

@[simp] theorem CharClass.contains_single (c d : Char) : (CharClass.single c).contains d = (d == c) := by
  have hle : (c ≤ d ∧ d ≤ c) ↔ d = c :=
    ⟨fun h => Char.le_antisymm h.2 h.1, fun h => h ▸ ⟨Char.le_refl _, Char.le_refl _⟩⟩
  rw [Bool.eq_iff_iff]
  simp [contains, single, ClassItem.contains, hle]

/-- Single characters as ranges. -/
theorem CharClass.any_ranges (cs : List Char) (d : Char) :
    (cs.map fun c => ClassItem.range c c).any (·.contains d) = cs.contains d := by
  induction cs with
  | nil => rfl
  | cons c cs ih =>
    have hsingle := contains_single c d
    simp only [contains, single, List.any_cons, List.any_nil, Bool.or_false, Bool.bne_false] at hsingle
    rw [List.map_cons, List.any_cons, ih, hsingle, List.contains_cons]

theorem CharClass.contains_oneOf (cs : List Char) (d : Char) : (oneOf cs).contains d = cs.contains d := by
  rw [contains, oneOf, any_ranges, Bool.bne_false]

theorem CharClass.contains_noneOf (cs : List Char) (d : Char) : (noneOf cs).contains d = !cs.contains d := by
  rw [contains, noneOf, any_ranges, Bool.bne_true]

namespace Front

variable {program : Array Instruction} {previous next : Option Char} {address after taken : Nat}
  {cls : CharClass} {best : Option Nat}

/-! ## 1. Threads -/

/-- The threads at an address, where nothing was visited before. -/
def enter (program : Array Instruction) (previous next : Option Char) (address : Nat) : Front :=
  visit program previous next (program.size + 1) address {}

theorem enter_read (h : program[address]? = some (.read cls after)) :
    enter program previous next address = ⟨[address], [⟨cls, after⟩], false⟩ := by
  simp [enter, visit, h]

theorem enter_end (h : program[address]? = none) :
    enter program previous next address = ⟨[address], [], true⟩ := by
  simp [enter, visit, h]

/-- At a border the match ends if the border is the last instruction. -/
theorem enter_border (h : program[address]? = some (.border after)) (hend : program[after]? = none) :
    enter program previous next address =
      if isBorder previous next then ⟨[after, address], [], true⟩ else ⟨[address], [], false⟩ := by
  obtain ⟨n, hn⟩ : ∃ n, program.size = n + 1 :=
    ⟨program.size - 1, by have := (Array.getElem?_eq_some_iff.mp h).1; omega⟩
  have hne : after ≠ address := by
    rintro rfl
    rw [h] at hend
    cases hend
  simp [enter, visit, h, hn, hend, hne]

/-- The only thread goes on with a character of its class, and ends with another one. -/
theorem after_single {visited : List Nat} {done : Bool} (c : Char) :
    Front.after program c next ⟨visited, [⟨cls, after⟩], done⟩ =
      if cls.contains c then enter program (some c) next after else {} := rfl

theorem matchEnd?_done {front : Front} (hwaiting : front.waiting = []) (hdone : front.done = true)
    (text : List Char) : front.matchEnd? program taken best text = some taken := by
  cases text <;> simp [matchEnd?, hwaiting, hdone]

theorem matchEnd?_dead {front : Front} (hwaiting : front.waiting = []) (hdone : front.done = false)
    (text : List Char) : front.matchEnd? program taken best text = best := by
  cases text <;> simp [matchEnd?, hwaiting, hdone]

/-! ## 2. Runs of a class -/

/-- Wherever a character of the class was read, another one may follow, and the match may end. -/
def Loops (program : Array Instruction) (cls : CharClass) (after : Nat) : Prop :=
  ∀ previous next, (enter program previous next after).waiting = [⟨cls, after⟩] ∧
    (enter program previous next after).done = true

/-- **A run of a class** goes on as long as there are characters of the class. -/
theorem matchEnd?_loop (hloop : Loops program cls after) {rest : List Char}
    (hrest : ∀ c ∈ rest.head?, cls.contains c = false) : ∀ {run : List Char} {front : Front}
    {taken : Nat} {best : Option Nat}, (∀ c ∈ run, cls.contains c = true) →
    front.waiting = [⟨cls, after⟩] → front.done = true →
    front.matchEnd? program taken best (run ++ rest) = some (taken + byteLength run)
  | [], front, taken, best, _, hwaiting, hdone => by
    cases rest with
    | nil => simp [matchEnd?, hdone]
    | cons c rest =>
      have hc := hrest c rfl
      obtain ⟨visited, _, _⟩ := front
      subst hwaiting hdone
      simp [matchEnd?, after_single, hc, matchEnd?_empty]
  | c :: run, front, taken, best, hrun, hwaiting, hdone => by
    obtain ⟨hc, hrun⟩ := List.forall_mem_cons.mp hrun
    obtain ⟨visited, _, _⟩ := front
    subst hwaiting hdone
    obtain ⟨hwaiting, hdone⟩ := hloop (some c) (run ++ rest).head?
    rw [List.cons_append, matchEnd?.eq_def]
    simp only [List.isEmpty_cons, Bool.false_eq_true, if_false, after_single, hc, if_true]
    rw [matchEnd?_loop hloop hrest hrun hwaiting hdone, byteLength_cons, Nat.add_assoc]

/-! ## 3. Fixed texts -/

/-- The instructions from an address on read the characters of a row one by one. -/
def Spells (program : Array Instruction) (address : Nat) (row : List Char) : Prop :=
  ∀ i c, row[i]? = some c → program[address + i]? = some (.read (.single c) (address + i + 1))

theorem Spells.head {c : Char} {row : List Char} (h : Spells program address (c :: row)) :
    program[address]? = some (.read (.single c) (address + 1)) := h 0 c rfl

theorem Spells.tail {c : Char} {row : List Char} (h : Spells program address (c :: row)) :
    Spells program (address + 1) row := by
  intro i d hd
  have := h (i + 1) d hd
  rwa [show address + (i + 1) = address + 1 + i by omega] at this

/-- A text that begins with the row is read up to the end of the row. -/
theorem matchEnd?_spells : ∀ {row : List Char} {address taken : Nat} {previous : Option Char},
    Spells program address row → ∀ rest : List Char,
    (enter program previous (row ++ rest).head? address).matchEnd? program taken none (row ++ rest) =
      (enter program (row.getLast?.or previous) rest.head? (address + row.length)).matchEnd? program
        (taken + byteLength row) none rest
  | [], _, _, _, _, rest => by simp
  | c :: row, address, taken, previous, h, rest => by
    have ih := @matchEnd?_spells row _ (taken + c.utf8Size) (some c) h.tail rest
    have hlast : ((c :: row).getLast?.or previous) = row.getLast?.or (some c) := by
      cases row <;> simp [List.getLast?_cons]
    rw [enter_read h.head, List.cons_append, matchEnd?.eq_def]
    simp only [List.isEmpty_cons, Bool.false_eq_true, if_false, after_single,
      CharClass.contains_single, beq_self_eq_true, if_true]
    rw [ih, hlast, byteLength_cons, List.length_cons, Nat.add_assoc taken, Nat.add_assoc address,
      Nat.add_comm 1]

/-- Any other text has no match. -/
theorem matchEnd?_spells_none : ∀ {row text : List Char} {address taken : Nat} {previous : Option Char},
    Spells program address row → ¬ row <+: text →
    (enter program previous text.head? address).matchEnd? program taken none text = none
  | [], _, _, _, _, _, h => absurd List.nil_prefix h
  | c :: row, [], _, _, _, hspells, _ => by simp [enter_read hspells.head, matchEnd?]
  | c :: row, d :: text, address, taken, previous, hspells, h => by
    rw [enter_read hspells.head, matchEnd?.eq_def]
    simp only [List.isEmpty_cons, Bool.false_eq_true, if_false, after_single,
      CharClass.contains_single]
    by_cases hd : d = c
    · subst hd
      have htail : ¬ row <+: text := fun hp => h (List.cons_prefix_cons.mpr ⟨rfl, hp⟩)
      simp only [beq_self_eq_true, if_true]
      exact matchEnd?_spells_none hspells.tail htail
    · simp [hd, matchEnd?_empty]

end Front

namespace Regex

/-! ## 4. Programs -/

/-- A row has an instruction for each character. -/
theorem size_seqs_chars : ∀ {row : List Char}, row ≠ [] → (seqs (row.map char)).size = row.length
  | [_], _ => rfl
  | c :: d :: row, _ => by
    have ih := @size_seqs_chars (d :: row) (by simp)
    rw [List.map_cons, List.map_cons] at *
    rw [seqs, size, ih, List.length_cons (a := c)]
    · rw [Nat.add_comm]
      rfl
    · simp

/-- The instructions of a row read its characters one by one. -/
theorem spells_seqs_chars : ∀ {row : List Char}, row ≠ [] → ∀ (start i : Nat) (c : Char),
    row[i]? = some c →
    ((seqs (row.map char)).instructions start (start + row.length))[i]? =
      some (.read (.single c) (start + i + 1))
  | [d], _, start, i, c, h => by
    obtain ⟨rfl, rfl⟩ : i = 0 ∧ d = c := by
      cases i with
      | zero => exact ⟨rfl, Option.some.inj h⟩
      | succ i => simp at h
    rfl
  | d :: e :: row, _, start, i, c, h => by
    have ih := @spells_seqs_chars (e :: row) (by simp) (start + 1)
    rw [List.map_cons, List.map_cons] at *
    rw [seqs, instructions]
    · cases i with
      | zero =>
        obtain rfl : d = c := Option.some.inj h
        rfl
      | succ i =>
        have := ih i c (by simpa using h)
        rw [show start + 1 + (e :: row).length = start + (d :: e :: row).length by simp; omega,
          show start + 1 + i + 1 = start + (i + 1) + 1 by omega] at this
        exact this
    · simp

theorem matchLength?_eq (r : Regex) (text : List Char) : r.matchLength? text =
    (Front.enter r.program none text.head? 0).matchEnd? r.program 0 none text := rfl

section Literals

variable {word : String} (hword : word.toList ≠ [])
include hword

theorem spells_literal : Front.Spells (literal word).program 0 word.toList := by
  intro i c hc
  have hspells := spells_seqs_chars hword 0 i c hc
  rw [program, literal, size_seqs_chars hword, List.getElem?_toArray]
  simpa using hspells

theorem literal_end : (literal word).program[word.toList.length]? = none := by
  rw [program, List.getElem?_toArray, List.getElem?_eq_none_iff, length_instructions, literal,
    size_seqs_chars hword]

theorem program_word : (seq (literal word) boundary).program =
    ((literal word).instructions 0 word.toList.length ++
      [Instruction.border (word.toList.length + 1)]).toArray := by
  simp only [program, instructions, literal, size, size_seqs_chars hword, Nat.zero_add]

/-- The program of a word reads its characters. -/
theorem spells_word : Front.Spells (seq (literal word) boundary).program 0 word.toList := by
  intro i c hc
  have hspells := spells_seqs_chars hword 0 i c hc
  have hlt : i < ((literal word).instructions 0 word.toList.length).length := by
    rw [length_instructions, literal, size_seqs_chars hword]
    exact (List.getElem?_eq_some_iff.mp hc).1
  rw [program_word hword, List.getElem?_toArray, Nat.zero_add, List.getElem?_append_left hlt, literal]
  simpa using hspells

/-- **A fixed text** matches itself, whatever follows. -/
theorem matchLength?_literal (rest : List Char) :
    (literal word).matchLength? (word.toList ++ rest) = some (byteLength word.toList) := by
  rw [matchLength?_eq, Front.matchEnd?_spells (spells_literal hword), Nat.zero_add, Nat.zero_add,
    Front.enter_end (literal_end hword), Front.matchEnd?_done rfl rfl]

/-- A text that does not begin with the fixed text has no match. -/
theorem matchLength?_literal_none {text : List Char} (h : ¬ word.toList <+: text) :
    (literal word).matchLength? text = none := by
  rw [matchLength?_eq, Front.matchEnd?_spells_none (spells_literal hword) h]

/-- **A fixed text that ends where a word ends.** -/
theorem matchLength?_word (rest : List Char) :
    (seq (literal word) boundary).matchLength? (word.toList ++ rest) =
      if isBorder word.toList.getLast? rest.head? then some (byteLength word.toList) else none := by
  have hborder : (seq (literal word) boundary).program[word.toList.length]? =
      some (.border (word.toList.length + 1)) := by
    rw [program_word hword, List.getElem?_toArray, List.getElem?_append_right] <;>
      simp [length_instructions, literal, size_seqs_chars hword]
  have hend : (seq (literal word) boundary).program[word.toList.length + 1]? = none := by
    rw [program_word hword, List.getElem?_toArray]
    simp [length_instructions, literal, size_seqs_chars hword]
  rw [matchLength?_eq, Front.matchEnd?_spells (spells_word hword), Nat.zero_add, Nat.zero_add,
    Front.enter_border hborder hend, Option.or_none]
  split
  · exact Front.matchEnd?_done rfl rfl _
  · exact Front.matchEnd?_dead rfl rfl _

theorem matchLength?_word_none {text : List Char} (h : ¬ word.toList <+: text) :
    (seq (literal word) boundary).matchLength? text = none := by
  rw [matchLength?_eq, Front.matchEnd?_spells_none (spells_word hword) h]

end Literals

/-- **One character** of a class. -/
theorem matchLength?_one {cls : CharClass} {c : Char} (hc : cls.contains c = true) (rest : List Char) :
    (one cls).matchLength? (c :: rest) = some c.utf8Size := by
  rw [matchLength?_eq, Front.enter_read rfl, Front.matchEnd?.eq_def]
  simp only [List.isEmpty_cons, Bool.false_eq_true, if_false, Front.after_single, hc, if_true]
  rw [Front.enter_end rfl, Front.matchEnd?_done rfl rfl, Nat.zero_add]

/-- **A run of characters** of one class. -/
theorem matchLength?_run {cls : CharClass} {c : Char} {run rest : List Char} (hc : cls.contains c = true)
    (hrun : ∀ d ∈ run, cls.contains d = true) (hrest : ∀ d ∈ rest.head?, cls.contains d = false) :
    (atLeastOne (one cls)).matchLength? (c :: run ++ rest) = some (byteLength (c :: run)) := by
  have hloop : Front.Loops (atLeastOne (one cls)).program cls 1 := fun _ _ => ⟨rfl, rfl⟩
  rw [matchLength?_eq, List.cons_append, Front.enter_read rfl, Front.matchEnd?.eq_def]
  simp only [List.isEmpty_cons, Bool.false_eq_true, if_false, Front.after_single, hc, if_true]
  rw [Front.matchEnd?_loop hloop hrest hrun rfl rfl, byteLength_cons, Nat.zero_add]

/-- **A character and a run** of another class after it. -/
theorem matchLength?_headed {first cls : CharClass} {c : Char} {run rest : List Char}
    (hc : first.contains c = true) (hrun : ∀ d ∈ run, cls.contains d = true)
    (hrest : ∀ d ∈ rest.head?, cls.contains d = false) :
    (seq (one first) (many (one cls))).matchLength? (c :: run ++ rest) =
      some (byteLength (c :: run)) := by
  have hloop : Front.Loops (seq (one first) (many (one cls))).program cls 3 := fun _ _ => ⟨rfl, rfl⟩
  rw [matchLength?_eq, List.cons_append, Front.enter_read rfl, Front.matchEnd?.eq_def]
  simp only [List.isEmpty_cons, Bool.false_eq_true, if_false, Front.after_single, hc, if_true]
  rw [Front.matchEnd?_loop hloop hrest hrun rfl rfl, byteLength_cons, Nat.zero_add]

theorem forall_takeWhile (cls : CharClass) (text : List Char) :
    ∀ d ∈ text.takeWhile cls.contains, cls.contains d = true := List.all_eq_true.mp List.all_takeWhile

theorem head_dropWhile (cls : CharClass) (text : List Char) :
    ∀ d ∈ (text.dropWhile cls.contains).head?, cls.contains d = false := by
  intro d hd
  have hnot := List.head?_dropWhile_not cls.contains text
  rw [Option.mem_def.mp hd] at hnot
  simpa using hnot

/-- A run is as long as there are characters of the class. -/
theorem matchLength?_run_all {cls : CharClass} {c : Char} (hc : cls.contains c = true) (text : List Char) :
    (atLeastOne (one cls)).matchLength? (c :: text) = some (byteLength (c :: text.takeWhile cls.contains)) := by
  have hrun := matchLength?_run hc (forall_takeWhile cls text) (head_dropWhile cls text)
  rwa [List.cons_append, List.takeWhile_append_dropWhile] at hrun

theorem matchLength?_headed_all {first cls : CharClass} {c : Char} (hc : first.contains c = true)
    (text : List Char) : (seq (one first) (many (one cls))).matchLength? (c :: text) =
      some (byteLength (c :: text.takeWhile cls.contains)) := by
  have hrun := matchLength?_headed hc (forall_takeWhile cls text) (head_dropWhile cls text)
  rwa [List.cons_append, List.takeWhile_append_dropWhile] at hrun

/-- Whether no match of an expression begins with a character. -/
def refuses (r : Regex) (c : Char) : Bool :=
  let front := Front.enter r.program none (some c) 0
  !front.done && front.waiting.all fun thread => !thread.cls.contains c

/-- **Refused characters.** -/
theorem matchLength?_eq_none {r : Regex} {c : Char} (h : r.refuses c = true) (text : List Char) :
    r.matchLength? (c :: text) = none := by
  obtain ⟨hdone, hwaiting⟩ := Bool.and_eq_true_iff.mp h
  have havoids : (Front.enter r.program none (some c) 0).Avoids c := by
    intro thread hthread
    simpa using List.all_eq_true.mp hwaiting thread hthread
  rw [matchLength?_eq, Front.matchEnd?.eq_def]
  simp only [List.head?_cons, show (Front.enter r.program none (some c) 0).done = false by simpa using hdone,
    Bool.false_eq_true, if_false, Front.after_eq_empty havoids, Front.matchEnd?_empty, ite_self]

theorem matchLength?_run_none {cls : CharClass} {c : Char} (hc : cls.contains c = false) (text : List Char) :
    (atLeastOne (one cls)).matchLength? (c :: text) = none := by
  refine matchLength?_eq_none ?_ text
  have henter : Front.enter (atLeastOne (one cls)).program none (some c) 0 = ⟨[0], [⟨cls, 1⟩], false⟩ := rfl
  simp [refuses, henter, hc]

end Regex

/-! ## 5. Matches that end before a seam -/

/-- Whether an instruction does not look at the neighbours of its place. -/
def Instruction.free : Instruction → Bool
  | .border _ => false
  | _ => true

namespace Front

variable {program : Array Instruction} {c : Char}

section Free

variable (hfree : program.all (·.free) = true)
include hfree

/-- Without borders the neighbours do not matter. -/
theorem visit_congr (previous next previous' next' : Option Char) : ∀ (fuel address : Nat) (front : Front),
    front.visit program previous next fuel address = front.visit program previous' next' fuel address
  | 0, _, _ => rfl
  | fuel + 1, address, front => by
    have ih := visit_congr previous next previous' next' fuel
    rw [visit, visit]
    split
    · rfl
    · dsimp only
      split
      · rfl
      · rfl
      · exact ih _ _
      · rename_i hborder
        have hfalse := Array.all_eq_true_iff_forall_mem.mp hfree _ (Array.mem_of_getElem? hborder)
        cases hfalse
      · rw [ih, ih]

/-- Without borders the threads do not depend on what comes after the next character. -/
theorem after_congr (next next' : Option Char) (front : Front) :
    front.after program c next = front.after program c next' := by
  have hvisit := fun address front => visit_congr hfree (some c) next (some c) next' (program.size + 1) address front
  simp only [after, hvisit]

end Free

/-- The end of the match that is preferred between two characters. -/
def found (taken : Nat) (best : Option Nat) (front : Front) : Option Nat :=
  if front.done then some taken else best

theorem matchEnd?_cons (taken : Nat) (best : Option Nat) (front : Front) (d : Char) (text : List Char) :
    front.matchEnd? program taken best (d :: text) =
      if front.waiting.isEmpty then front.found taken best
      else (front.after program d text.head?).matchEnd? program (taken + d.utf8Size) (front.found taken best) text :=
  rfl

/-- What was found is not lost. -/
theorem matchEnd?_isSome : ∀ {text : List Char} {front : Front} {taken n : Nat},
    ∃ m, front.matchEnd? program taken (some n) text = some m := by
  have hfound : ∀ (front : Front) (taken n : Nat), ∃ m, front.found taken (some n) = some m := by
    intro front taken n
    rw [found]
    split <;> exact ⟨_, rfl⟩
  intro text
  induction text with
  | nil =>
    intro front taken n
    exact hfound front taken n
  | cons d text ih =>
    intro front taken n
    obtain ⟨m, hm⟩ := hfound front taken n
    rw [matchEnd?_cons, hm]
    split
    · exact ⟨m, rfl⟩
    · exact ih

/-- **A match that ends before the cut** is found again if the threads end there. -/
theorem matchEnd?_cut (havoids : program.all (·.avoids c) = true) (hfree : program.all (·.free) = true)
    (rest other : List Char) : ∀ {text : List Char} {front : Front} {taken : Nat} {best : Option Nat},
    front.Avoids c →
    (∀ n ∈ front.matchEnd? program taken best (text ++ rest), n ≤ taken + byteLength text) →
    front.matchEnd? program taken best (text ++ c :: other) = front.matchEnd? program taken best (text ++ rest) := by
  intro text
  induction text with
  | nil =>
    intro front taken best hfront hends
    rw [List.nil_append, List.nil_append] at *
    rw [matchEnd?_cons, after_eq_empty hfront, matchEnd?_empty, ite_self]
    cases rest with
    | nil => rfl
    | cons d rest =>
      rw [matchEnd?_cons] at hends ⊢
      generalize front.found taken best = best at hends ⊢
      split
      · rfl
      · rename_i hwaiting
        rw [if_neg hwaiting] at hends
        -- what would be found behind the cut would end behind it
        cases hend : (front.after program d rest.head?).matchEnd? program (taken + d.utf8Size) best rest with
        | none =>
          cases best with
          | none => rfl
          | some n =>
            obtain ⟨m, hm⟩ : ∃ m, (front.after program d rest.head?).matchEnd? program (taken + d.utf8Size)
              (some n) rest = some m := matchEnd?_isSome
            rw [hm] at hend
            cases hend
        | some n =>
          rcases matchEnd?_reads hend with hbest | ⟨read, _, -, hn, -⟩
          · exact hbest
          · have hle := hends n hend
            have hpos := Char.utf8Size_pos d
            rw [byteLength_nil] at hle
            omega
  | cons d text ih =>
    intro front taken best hfront hends
    rw [List.cons_append, List.cons_append] at *
    rw [matchEnd?_cons] at hends ⊢
    rw [matchEnd?_cons]
    generalize front.found taken best = best at hends ⊢
    split
    · rfl
    · rename_i hwaiting
      rw [if_neg hwaiting] at hends
      rw [after_congr hfree (text ++ c :: other).head? (text ++ rest).head?]
      refine ih (avoids_after havoids _ _ _) fun n hn => ?_
      have hle := hends n hn
      rw [byteLength_cons] at hle
      omega

end Front

namespace Regex

variable {r : Regex} {c : Char}

/-- What an expression reads does not hold a character that no instruction reads. -/
theorem not_mem_of_matchLength? (havoids : r.program.all (·.avoids c) = true) {front back : List Char}
    (h : r.matchLength? (front ++ back) = some (byteLength front)) : c ∉ front := by
  rcases Front.matchEnd?_reads h with hbest | ⟨read, rest, hsplit, hlength, hread⟩
  · cases hbest
  · rw [Nat.zero_add] at hlength
    obtain ⟨rfl, -⟩ := append_inj_byteLength hsplit hlength
    exact hread c havoids (Front.avoids_visit havoids _ _ _ _ (Front.avoids_empty c))

/-- **A match that ends before the cut** does not depend on what is behind it. -/
theorem matchLength?_cut (havoids : r.program.all (·.avoids c) = true) (hfree : r.program.all (·.free) = true)
    {text rest : List Char} (h : ∀ n ∈ r.matchLength? (text ++ rest), n ≤ byteLength text) (other : List Char) :
    r.matchLength? (text ++ c :: other) = r.matchLength? (text ++ rest) := by
  have henter : Front.enter r.program none (text ++ c :: other).head? 0 =
      Front.enter r.program none (text ++ rest).head? 0 := Front.visit_congr hfree _ _ _ _ _ _ _
  rw [matchLength?_eq, matchLength?_eq, henter]
  rw [matchLength?_eq] at h
  refine Front.matchEnd?_cut havoids hfree rest other ?_ fun n hn => by rw [Nat.zero_add]; exact h n hn
  exact Front.avoids_visit havoids _ _ _ _ (Front.avoids_empty c)

end Regex

end Lode
