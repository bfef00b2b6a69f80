/-
# JSON documents

The values of JSON and their printed form: two spaces of indentation for every level, members in the
order given, and nothing but the braces for what is empty.  Texts escape the quote, the backslash
and control characters.
-/
import Lode.Text.Hex

namespace Lode

/-- A JSON value.  Numbers are integers. -/
inductive JsonValue where
  | number (n : Int)
  | text (s : String)
  | list (items : List JsonValue)
  | object (members : List (String × JsonValue))

namespace JsonValue

/-- One character of a text. -/
def escapeChar (c : Char) : String :=
  match c with
  | '"' => "\\\""
  | '\\' => "\\\\"
  | '\n' => "\\n"
  | '\r' => "\\r"
  | '\t' => "\\t"
  | c =>
    if c.toNat = 8 then "\\b"
    else if c.toNat = 12 then "\\f"
    else if c.toNat < 0x20 then "\\u" ++ hexNumber 4 c.toNat
    else c.toString

/-- A text between quotes. -/
def quote (s : String) : String := "\"" ++ String.join (s.toList.map escapeChar) ++ "\""

/-- A line break and the indentation of a level. -/
def newLine (level : Nat) : String := "\n" ++ String.ofList (List.replicate (2 * level) ' ')

/-- Items between brackets, one a line. -/
def bracket (opening closing : String) (level : Nat) (items : List String) : String :=
  if items.isEmpty then opening ++ closing
  else opening ++ newLine (level + 1) ++ (("," ++ newLine (level + 1)).intercalate items) ++
    newLine level ++ closing

mutual

/-- A value at a level of indentation. -/
def renderAt (level : Nat) : JsonValue → String
  | number n => toString n
  | text s => quote s
  | list items => bracket "[" "]" level (renderItems (level + 1) items)
  | object members => bracket "\x7b" "\x7d" level (renderMembers (level + 1) members)

/-- The items of a list. -/
def renderItems (level : Nat) : List JsonValue → List String
  | [] => []
  | v :: vs => renderAt level v :: renderItems level vs

/-- The members of an object. -/
def renderMembers (level : Nat) : List (String × JsonValue) → List String
  | [] => []
  | (name, v) :: rest => (quote name ++ ": " ++ renderAt level v) :: renderMembers level rest

end

/-- A value as a document. -/
def render (v : JsonValue) : String := renderAt 0 v

end JsonValue

end Lode
