/-
# Errors point at the bytes of their tokens

A place is turned into bytes by going through the lines of the text once more, apart from the cursor of the
stream that named it.  Both count alike: a span that covers some characters of a line becomes the range of
these characters (`Span.Covers.byteRange_eq`), the end of the text becomes the empty range behind everything
(`byteRange_finish`), and so the ranges of successive tokens touch each other (`byteRange_token`).

Columns are counted in bytes and not in characters, so a range in the middle of a line needs the bytes of
the lines before it and of the characters before it on its own line (`offsetIn_append`, `offsetIn_line`).  A
token never goes beyond its line, so one line is enough for both of its ends.

All this is about tokens that were handed out, in any run.  Errors of a parser and of its lexer name such
places, or the end of the text.
-/
import Lode.Diagnostic
import Lode.Proofs.Tiling

namespace Lode

/-! ## 1. Positions -/

/-- Lines before that of a position count with all their bytes. -/
theorem offsetIn_append {p : Position} {lines : List (List Char)} :
    ∀ {before : List (List Char)} {start number : Nat}, number + before.length ≤ p.line →
      offsetIn p start number (before ++ lines) =
        offsetIn p (start + byteLength before.flatten) (number + before.length) lines := by
  intro before
  induction before with
  | nil => exact fun _ => rfl
  | cons line before ih =>
    intro start number hle
    rw [List.length_cons] at hle
    rw [List.cons_append, offsetIn, if_neg (by omega), ih (by omega), List.flatten_cons, byteLength_append,
      List.length_cons, Nat.add_assoc, Nat.add_assoc, Nat.add_comm 1]

/-- The bytes before a place in a line. -/
theorem offsetIn_line (before behind : List (List Char)) (front back : List Char) :
    offsetIn ⟨before.length + 1, byteLength front⟩ 0 1 (before ++ (front ++ back) :: behind) =
      byteLength (before.flatten ++ front) := by
  rw [offsetIn_append (by simp [Nat.add_comm]), offsetIn, if_pos (Nat.add_comm 1 _), Nat.zero_add,
    byteLength_append, byteLength_append, Nat.min_eq_left (Nat.le_add_right _ _)]

/-- The bytes before the end of some lines. -/
theorem offsetIn_endOfLines (lines : List (List Char)) :
    offsetIn (Stream.endOfLines lines) 0 1 lines = byteLength lines.flatten := by
  rcases List.eq_nil_or_concat' lines with rfl | ⟨before, line, rfl⟩
  · rfl
  · rw [Stream.endOfLines_concat]
    split
    · have h := @offsetIn_append ⟨before.length + 2, 0⟩ [] (before ++ [line]) 0 1 (by simp; omega)
      rwa [List.append_nil, offsetIn, Nat.zero_add] at h
    · have h := offsetIn_line before [] line []
      rw [List.append_nil] at h
      rw [h, List.flatten_append, List.flatten_singleton]

/-! ## 2. Tokens -/

/-- A span over some characters of a line becomes the range of their bytes. -/
theorem Span.Covers.byteRange_eq {text : String} {span : Span} {read chars : List Char}
    (h : span.Covers (splitLines text.toList) read chars) :
    byteRange text span = (byteLength read, byteLength chars) := by
  obtain ⟨before, behind, front, back, hlines, rfl, rfl⟩ := h
  have hstart := offsetIn_line before behind front (chars ++ back)
  have hstop := offsetIn_line before behind (front ++ chars) back
  rw [← List.append_assoc, ← hlines] at hstart
  rw [← hlines, byteLength_append, ← List.append_assoc, byteLength_append] at hstop
  rw [byteRange, byteOffset, byteOffset, hstart, hstop, Nat.add_sub_cancel_left]

theorem byteRange_finish (text : String) :
    byteRange text (.point (Stream.endOfLines (splitLines text.toList))) = (byteLength text.toList, 0) := by
  have h := offsetIn_endOfLines (splitLines text.toList)
  rw [(flatten_splitLines text.toList).1] at h
  rw [byteRange, byteOffset, Span.point, byteOffset, h, Nat.sub_self]

/-- Every token becomes the range of its bytes, behind those of the tokens before it. -/
theorem Token.Continues.byteRange_eq {text : String} {before : List Token} {token : Token}
    (h : token.Continues text.toList before) :
    byteRange text token.span = (byteLength (spelled before), byteLength token.text.toList) := by
  by_cases hkind : token.kind = .eof
  · obtain ⟨hempty, hspan, hspelled⟩ := h.finish hkind
    rw [hspan, byteRange_finish, hspelled, hempty]
    rfl
  · exact (h.chars hkind).2.byteRange_eq

/-- **Errors point at the bytes of their tokens.**  The span of a token that was handed out from a text
becomes the range of the bytes that hold the token's text, behind the texts of the tokens before it; that is
the empty range at the end of the text for the end of the text, and the range of the next token begins where
it ends. -/
theorem byteRange_token {text : String} {tokens : List Token} {s : Stream} (h : Handed text tokens s)
    {before : List Token} {token : Token} {rest : List Token} (hsplit : tokens = before ++ token :: rest) :
    (∃ back, text.toList = spelled before ++ token.text.toList ++ back) ∧
    byteRange text token.span = (byteLength (spelled before), byteLength token.text.toList) ∧
    (token.kind = .eof → byteRange text token.span = (byteLength text.toList, 0)) ∧
    ∀ next ∈ rest.head?, (byteRange text next.span).1 =
      (byteRange text token.span).1 + (byteRange text token.span).2 := by
  obtain ⟨htiled, -, -⟩ := h.tiled
  have hrange := (htiled.continues hsplit).byteRange_eq
  refine ⟨?_, hrange, fun hkind => ?_, fun next hnext => ?_⟩
  · have htext := htiled.stands.text_eq
    rw [(flatten_splitLines text.toList).1] at htext
    exact ⟨spelled rest ++ s.cursor.text, by rw [← htext, hsplit]; simp [spelled]⟩
  · obtain ⟨-, hspan, -⟩ := (htiled.continues hsplit).finish hkind
    rw [hspan, byteRange_finish]
  · obtain ⟨rest, rfl⟩ := List.head?_eq_some_iff.mp hnext
    have hsplit' : tokens = (before ++ [token]) ++ next :: rest := by rw [hsplit, List.append_assoc]; rfl
    rw [(htiled.continues hsplit').byteRange_eq, hrange, spelled_concat, byteLength_append]

theorem byteRange_token_breakToken : ∃ s, Handed "né\nb" [lineToken, breakToken] s ∧
    byteRange "né\nb" lineToken.span = (0, 3) ∧ byteRange "né\nb" breakToken.span = (3, 1) := by
  obtain ⟨s1, s2, hline, hbreak⟩ : ∃ s1 s2, lineLexer.next "line" (.ofText "né\nb") = .ok (lineToken, s1) ∧
      lineLexer.next "line" s1 = .ok (breakToken, s2) := ⟨_, _, rfl, rfl⟩
  have hfirst : Handed "né\nb" [lineToken] s1 := .next .start hline
  have h : Handed "né\nb" [lineToken, breakToken] s2 := .next hfirst hbreak
  have hsplit : [lineToken, breakToken] = [] ++ lineToken :: [breakToken] := rfl
  obtain ⟨-, hrange, -⟩ := byteRange_token h hsplit
  have hsplit' : [lineToken, breakToken] = [lineToken] ++ breakToken :: [] := rfl
  obtain ⟨-, hrange', -⟩ := byteRange_token h hsplit'
  exact ⟨s2, h, hrange, hrange'⟩

end Lode
