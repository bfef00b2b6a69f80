/-
# Escaped and quoted texts

Two ways to show a text that may hold anything.  `escaped` is the form diagnostics use for a piece
of source: both quotes are escaped, and of the extending characters only one that stands first.
`quoted` is the form in which trees show a string: between double quotes, with the single quote as
it is and every extending character escaped.
-/
import Lode.Text.Printable
import Lode.Text.Extending

namespace Lode

/-- The escape that names a character by its code point. -/
def codeEscape (c : Char) : String :=
  "\\u\x7b" ++ String.ofList (Nat.toDigits 16 c.toNat) ++ "\x7d"

/-- One character of an escaped text.  `extending` says whether a character that joins its
predecessor is escaped, `single` whether the single quote is. -/
def escapeChar (extending single : Bool) (c : Char) : String :=
  match c with
  | '\x00' => "\\0"
  | '\t' => "\\t"
  | '\r' => "\\r"
  | '\n' => "\\n"
  | '"' => "\\\""
  | '\\' => "\\\\"
  | c =>
    if c == '\x27' then if single then "\\'" else "'"
    else if extending && isExtending c then codeEscape c
    else if isPrintable c then c.toString
    else codeEscape c

/-- A text as diagnostics show it. -/
def escaped (text : String) : String :=
  match text.toList with
  | [] => ""
  | c :: cs => escapeChar true true c ++ String.join (cs.map (escapeChar false true))

/-- A text between double quotes, as trees show it. -/
def quoted (text : String) : String :=
  "\"" ++ String.join (text.toList.map (escapeChar true false)) ++ "\""

end Lode
