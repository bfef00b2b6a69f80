/-
# Trees as text

A node is shown in round brackets: its tag, its plain attributes in order, and below it, indented,
the children in the order of visits.  Tables are shown by their keys alone.
-/
import Lode.Text.Hex
import Lode.Text.Quoted
import Lode.Tree.Basic

namespace Lode

/-- A line break and the indentation before a child. -/
def childIndent (indent : Nat) : String := "\n" ++ String.ofList (List.replicate (indent + 2) ' ')

mutual

/-- A node whose first line is already indented. -/
def Node.textAt (indent : Nat) : Node → String
  | .mk tag fields _ =>
    "(" ++ tag.name ++ fields.plainText ++
      String.join ((visitOrder (fields.childTexts indent)).map fun (name, text) =>
        childIndent indent ++ ":" ++ name ++ " " ++ text) ++ ")"

/-- The plain attributes. -/
def Fields.plainText : Fields → String
  | .nil => ""
  | .cons _ (.node _) rest => rest.plainText
  | .cons name value rest => " :" ++ name ++ " " ++ value.text ++ rest.plainText

/-- The children by name. -/
def Fields.childTexts (indent : Nat) : Fields → List (String × String)
  | .nil => []
  | .cons name (.node n) rest => (name, n.textAt (indent + 2)) :: rest.childTexts indent
  | .cons _ _ rest => rest.childTexts indent

/-- A value. -/
def Value.text : Value → String
  | .node n => n.textAt 0
  | .int n => toString n
  | .str s => quoted s
  | .bool b => if b then "true" else "false"
  | .type t => "<" ++ t.text ++ ">"
  | .bytes bs => "#[" ++ " ".intercalate (bs.map hexByte) ++ "]"
  | .relocations rs => "[" ++ ", ".intercalate (rs.map Relocation.text) ++ "]"
  | .table entries => "\x7b" ++ " ".intercalate entries.names ++ "\x7d"
  | .unit u => "<unit " ++ u.name ++ ">"

end

/-- A tree as text. -/
def Node.text (n : Node) : String := n.textAt 0

end Lode
