/-
# The characters of names and numbers

A match reads a character only by an instruction whose class contains it.  So a character that is in no
class of a program is in no text that the program matches (`matchEnd?_reads`).  A matcher keeps a set of
threads that wait for the next character, and the invariant is that none of them waits for the one in
question (`Front.Avoids`); when it comes, the set is empty and stays so.

Of the rules of a lexer this is decided by going through their programs.  The tokens of a rule then never
hold the character (`LexRule.produce?_avoids`), whatever text is read and wherever the token stands.

Two cases of it are used.  The symbols of declarations are made of names with dots between them, and that
the dots can be told from the names is because no name holds a dot.  The literals of a program are numbers
without a sign, with negations around them, and no number holds one.  Both are put together for every token
that a lexer of the language hands out (`lexeme_next`).
-/
import Lode.Language.Reader
import Lode.Proofs.Sorted

namespace Lode

/-! ## 1. What a match reads -/

/-- Whether an instruction does not read a character. -/
def Instruction.avoids (c : Char) : Instruction → Bool
  | .read cls _ => !cls.contains c
  | _ => true

namespace Front

/-- No thread waits for the character. -/
def Avoids (c : Char) (front : Front) : Prop := ∀ thread ∈ front.waiting, thread.cls.contains c = false

theorem avoids_empty (c : Char) : Avoids c {} := fun _ h => by cases h

variable {program : Array Instruction} {c : Char} (hprogram : program.all (·.avoids c) = true)
include hprogram

/-- Visiting the threads at an address adds none that waits for the character. -/
theorem avoids_visit (previous next : Option Char) : ∀ (fuel address : Nat) {front : Front},
    front.Avoids c → (front.visit program previous next fuel address).Avoids c
  | 0, _, _, h => h
  | fuel + 1, address, front, h => by
    rw [visit]
    split
    · exact h
    · have hvisited : Avoids c { front with visited := address :: front.visited } := h
      dsimp only
      split
      · exact h
      · rename_i cls after hread
        have hclass : (!cls.contains c) = true :=
          Array.all_eq_true_iff_forall_mem.mp hprogram _ (Array.mem_of_getElem? hread)
        exact List.forall_mem_cons.mpr ⟨by simpa using hclass, h⟩
      · exact avoids_visit _ _ fuel _ hvisited
      · split
        · exact avoids_visit _ _ fuel _ hvisited
        · exact h
      · exact avoids_visit _ _ fuel _ (avoids_visit _ _ fuel _ hvisited)

/-- After another character no thread waits for it either. -/
theorem avoids_after (d : Char) (next : Option Char) (front : Front) :
    (front.after program d next).Avoids c := by
  rw [after]
  induction front.waiting with
  | nil => exact avoids_empty c
  | cons thread rest ih =>
    rw [List.foldr_cons]
    split
    · exact avoids_visit hprogram _ _ _ _ ih
    · exact ih

omit hprogram in
/-- The character ends all threads. -/
theorem after_eq_empty {front : Front} (h : front.Avoids c) (next : Option Char) :
    front.after program c next = {} := by
  rw [after]
  unfold Avoids at h
  generalize front.waiting = waiting at h ⊢
  induction waiting with
  | nil => rfl
  | cons thread rest ih =>
    obtain ⟨hthread, hrest⟩ := List.forall_mem_cons.mp h
    rw [List.foldr_cons, ih hrest, hthread]
    rfl

omit hprogram in
theorem matchEnd?_empty (taken : Nat) (best : Option Nat) (text : List Char) :
    Front.matchEnd? program taken best {} text = best := by
  cases text <;> rfl

omit hprogram in
/-- **What a match reads.**  It ends between two characters, and before the first character that no
instruction reads. -/
theorem matchEnd?_reads : ∀ {text : List Char} {front : Front} {taken n : Nat} {best : Option Nat},
    front.matchEnd? program taken best text = some n →
      best = some n ∨ ∃ read rest, text = read ++ rest ∧ n = taken + byteLength read ∧
        ∀ c, program.all (·.avoids c) = true → front.Avoids c → c ∉ read
  | text, front, taken, n, best, hmatch => by
    have hhere : (if front.done then some taken else best) = some n →
        best = some n ∨ ∃ read rest, text = read ++ rest ∧ n = taken + byteLength read ∧
          ∀ c, program.all (·.avoids c) = true → front.Avoids c → c ∉ read := by
      intro hbest
      split at hbest
      · exact .inr ⟨[], text, rfl, (Option.some.inj hbest).symm, fun _ _ _ => List.not_mem_nil⟩
      · exact .inl hbest
    rw [matchEnd?.eq_def] at hmatch
    cases text with
    | nil => exact hhere hmatch
    | cons d ds =>
      dsimp only at hmatch
      split at hmatch
      · exact hhere hmatch
      · by_cases hd : front.Avoids d
        · rw [after_eq_empty hd, matchEnd?_empty] at hmatch
          exact hhere hmatch
        · rcases matchEnd?_reads hmatch with hbest | ⟨read, rest, rfl, rfl, hread⟩
          · exact hhere hbest
          · refine .inr ⟨d :: read, rest, rfl, by rw [byteLength_cons, Nat.add_assoc], ?_⟩
            intro c hprogram hfront hc
            rcases List.mem_cons.mp hc with rfl | hc
            · exact hd hfront
            · exact hread c hprogram (avoids_after hprogram _ _ _) hc

end Front

/-- A token of an expression whose program does not read a character does not hold it. -/
theorem LexRule.produce?_avoids {rule : LexRule} {c : Char} {s s' : Stream} {length : Nat}
    {kind : Terminal} {channel : Channel} {token : Token}
    (hprogram : rule.regex.program.all (·.avoids c) = true) (hlength : rule.length? s = some length)
    (hproduce : s.produce? kind length channel = some (token, s')) : c ∉ token.text.toList := by
  obtain ⟨hmatch, -⟩ := Option.filter_eq_some_iff.mp hlength
  obtain ⟨line, hline, hmatch⟩ := Option.bind_eq_some_iff.mp hmatch
  obtain ⟨lines, hunread⟩ := List.head?_eq_some_iff.mp hline
  rcases Front.matchEnd?_reads hmatch with hbest | ⟨read, rest, rfl, rfl, hread⟩
  · cases hbest
  · simp only [Stream.produce?, hunread, Nat.zero_add, splitBytes_byteLength, Option.map_some,
      Option.some.injEq, Prod.mk.injEq] at hproduce
    rw [← hproduce.1]
    simpa using hread c hprogram (Front.avoids_visit hprogram _ _ _ _ (Front.avoids_empty c))

/-! ## 2. Tokens and their rules -/

namespace Lexer

/-- A token that is found is that of some rule. -/
theorem firstMatch?_some {s s' : Stream} {token : Token} : ∀ {rules : List LexRule},
    firstMatch? s rules = some (token, s') → ∃ rule ∈ rules, ∃ length,
      rule.length? s = some length ∧ s.produce? (.kind rule.kind) length rule.channel = some (token, s')
  | [], h => by cases h
  | rule :: rules, h => by
    rw [firstMatch?] at h
    split at h
    · rename_i length hlength
      exact ⟨rule, List.mem_cons_self, length, hlength, h⟩
    · obtain ⟨rule', hmem, hrule⟩ := firstMatch?_some h
      exact ⟨rule', List.mem_cons_of_mem _ hmem, hrule⟩

/-- A token has the kind that it is produced for. -/
theorem kind_of_produce? {s s' : Stream} {kind : Terminal} {length : Nat} {channel : Channel}
    {token : Token} (h : s.produce? kind length channel = some (token, s')) : token.kind = kind := by
  unfold Stream.produce? at h
  split at h
  · cases h
  · obtain ⟨_, _, h⟩ := Option.map_eq_some_iff.mp h
    rw [← (Prod.mk.inj h).1]

/-- A token of a kind is one of a rule of that kind. -/
theorem next_kind {lexer : Lexer} {mode kind : String} {s s' : Stream} {token : Token}
    (h : lexer.next mode s = .ok (token, s')) (hkind : token.kind = .kind kind) :
    ∃ entry ∈ lexer.modes, ∃ rule ∈ entry.2, rule.kind = kind ∧ ∃ length,
      rule.length? s = some length ∧ s.produce? (.kind kind) length rule.channel = some (token, s') := by
  unfold next at h
  split at h
  · rw [← (Prod.mk.inj (Except.ok.inj h)).1] at hkind
    cases hkind
  · split at h
    · cases h
    · rename_i rules hrules
      split at h
      · rename_i result hfirst
        obtain rfl := Except.ok.inj h
        obtain ⟨rule, hmem, length, hlength, hproduce⟩ := firstMatch?_some hfirst
        have hrule : rule.kind = kind :=
          Terminal.kind.inj ((kind_of_produce? hproduce).symm.trans hkind)
        exact ⟨_, Sorted.mem_of_find? hrules, rule, hmem, hrule, length, hlength, hrule ▸ hproduce⟩
      · cases h

end Lexer

namespace Language

/-- The kind of names. -/
def nameKind : String := "IDENT"

/-- The kind of number literals. -/
def numberKind : String := "NUMBER"

/-- Whether a text holds no dot. -/
def dotless (text : String) : Bool := !text.toList.contains '.'

/-- What is known about the texts of tokens: names hold no dots, and numbers have no sign. -/
structure Lexeme (t : Token) : Prop where
  name : t.kind = .kind nameKind → dotless t.text = true
  number : t.kind = .kind numberKind → '-' ∉ t.text.toList

theorem avoids_names : ∀ entry ∈ lexer.modes, ∀ rule ∈ entry.2, rule.kind = nameKind →
    rule.regex.program.all (·.avoids '.') = true := by
  simp only [← Array.all_toList]
  decide

theorem avoids_numbers : ∀ entry ∈ lexer.modes, ∀ rule ∈ entry.2, rule.kind = numberKind →
    rule.regex.program.all (·.avoids '-') = true := by
  simp only [← Array.all_toList]
  decide

/-- **The characters of names and numbers.** -/
theorem lexeme_next {mode : String} {s s' : Stream} {token : Token}
    (h : lexer.next mode s = .ok (token, s')) : Lexeme token where
  name hkind := by
    obtain ⟨entry, hentry, rule, hrule, hname, length, hlength, hproduce⟩ := Lexer.next_kind h hkind
    have hdot := LexRule.produce?_avoids (avoids_names entry hentry rule hrule hname) hlength hproduce
    simpa [dotless] using hdot
  number hkind := by
    obtain ⟨entry, hentry, rule, hrule, hname, length, hlength, hproduce⟩ := Lexer.next_kind h hkind
    exact LexRule.produce?_avoids (avoids_numbers entry hentry rule hrule hname) hlength hproduce

end Language

end Lode
