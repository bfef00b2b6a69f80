/-
# Trees

A node has a tag, named attributes and a place in the text.  The value of an attribute may be
another node, which makes the tree, or plain data: numbers, texts, types, bytes, relocations, or a
table of further values.

Attributes are kept in increasing order of their names, so equal nodes are equal as data.  Everything
that builds or changes them goes through `Fields.set` and `Fields.erase`, which keep the order.
-/
import Lode.Object.Relocation
import Lode.Span
import Lode.Tree.Tag
import Lode.Types.Basic

namespace Lode

/-- A unit that comes with the language. -/
inductive IntrinsicUnit where
  /-- Access to memory. -/
  | mem
deriving DecidableEq, Repr

/-- The name by which a unit is used. -/
def IntrinsicUnit.name : IntrinsicUnit → String
  | mem => "mem"

mutual

/-- A node of a tree. -/
inductive Node where
  | mk (tag : Tag) (fields : Fields) (span : Span)

/-- The value of an attribute. -/
inductive Value where
  | node (n : Node)
  | int (n : Int)
  | str (s : String)
  | bool (b : Bool)
  | type (t : Ty)
  | bytes (bs : List UInt8)
  | relocations (rs : List Relocation)
  | table (entries : Fields)
  | unit (u : IntrinsicUnit)

/-- Named values in increasing order of their names. -/
inductive Fields where
  | nil
  | cons (name : String) (value : Value) (rest : Fields)

end

deriving instance DecidableEq for Node, Value, Fields
deriving instance Repr for Node, Value, Fields

/-! ## 1. Named values -/

namespace Fields

instance : Inhabited Fields := ⟨nil⟩

/-- The value of a name. -/
def get? : Fields → String → Option Value
  | nil, _ => none
  | cons name value rest, key => if key == name then some value else rest.get? key

/-- Whether a name has a value. -/
def has (fields : Fields) (key : String) : Bool := (fields.get? key).isSome

/-- Sets the value of a name. -/
def set : Fields → String → Value → Fields
  | nil, key, new => cons key new nil
  | cons name value rest, key, new =>
    match compare key name with
    | .lt => cons key new (cons name value rest)
    | .eq => cons name new rest
    | .gt => cons name value (rest.set key new)

/-- Removes a name. -/
def erase : Fields → String → Fields
  | nil, _ => nil
  | cons name value rest, key => if key == name then rest else cons name value (rest.erase key)

/-- The names with their values. -/
def toList : Fields → List (String × Value)
  | nil => []
  | cons name value rest => (name, value) :: rest.toList

/-- The fields of a list; later values of a name replace earlier ones. -/
def ofList (entries : List (String × Value)) : Fields :=
  entries.foldl (fun fields (name, value) => fields.set name value) nil

/-- The names. -/
def names (fields : Fields) : List String := fields.toList.map (·.1)

/-- The number of names. -/
def size : Fields → Nat
  | nil => 0
  | cons _ _ rest => rest.size + 1

/-- Whether there are no names. -/
def isEmpty : Fields → Bool
  | nil => true
  | cons _ _ _ => false

/-- The names whose value is a node. -/
def nodes : Fields → List (String × Node)
  | nil => []
  | cons name (.node n) rest => (name, n) :: rest.nodes
  | cons _ _ rest => rest.nodes

end Fields

/-! ## 2. Values -/

namespace Value

/-- The node that a value is. -/
def node? : Value → Option Node
  | node n => some n
  | _ => none

/-- The number that a value is. -/
def int? : Value → Option Int
  | int n => some n
  | _ => none

/-- The text that a value is. -/
def str? : Value → Option String
  | str s => some s
  | _ => none

/-- The truth value that a value is. -/
def bool? : Value → Option Bool
  | bool b => some b
  | _ => none

/-- The type that a value is. -/
def type? : Value → Option Ty
  | type t => some t
  | _ => none

/-- The bytes that a value is. -/
def bytes? : Value → Option (List UInt8)
  | bytes bs => some bs
  | _ => none

/-- The relocations that a value is. -/
def relocations? : Value → Option (List Relocation)
  | relocations rs => some rs
  | _ => none

/-- The table that a value is. -/
def table? : Value → Option Fields
  | table entries => some entries
  | _ => none

/-- The unit that a value is. -/
def unit? : Value → Option IntrinsicUnit
  | unit u => some u
  | _ => none

/-- The name of the kind of a value. -/
def kindName : Value → String
  | node _ => "node"
  | int _ => "int"
  | str _ => "string"
  | bool _ => "bool"
  | type _ => "type"
  | bytes _ => "bytes"
  | relocations _ => "relocations"
  | table _ => "table"
  | unit _ => "unit"

end Value

/-! ## 3. Nodes -/

namespace Node

instance : Inhabited Node := ⟨mk .unit .nil .nowhere⟩

/-- The tag of a node. -/
def tag : Node → Tag
  | mk tag _ _ => tag

/-- The attributes of a node. -/
def fields : Node → Fields
  | mk _ fields _ => fields

/-- The place of a node. -/
def span : Node → Span
  | mk _ _ span => span

/-- A node with the given attributes. -/
def build (tag : Tag) (span : Span) (attributes : List (String × Value)) : Node :=
  mk tag (.ofList attributes) span

/-- The value of an attribute. -/
def get? (n : Node) (name : String) : Option Value := n.fields.get? name

/-- Whether a node has an attribute. -/
def has (n : Node) (name : String) : Bool := n.fields.has name

/-- The child under a name. -/
def node? (n : Node) (name : String) : Option Node := (n.get? name).bind Value.node?

/-- The number under a name. -/
def int? (n : Node) (name : String) : Option Int := (n.get? name).bind Value.int?

/-- The text under a name. -/
def str? (n : Node) (name : String) : Option String := (n.get? name).bind Value.str?

/-- The truth value under a name. -/
def bool? (n : Node) (name : String) : Option Bool := (n.get? name).bind Value.bool?

/-- The type under a name. -/
def type? (n : Node) (name : String) : Option Ty := (n.get? name).bind Value.type?

/-- The bytes under a name. -/
def bytes? (n : Node) (name : String) : Option (List UInt8) := (n.get? name).bind Value.bytes?

/-- The relocations under a name. -/
def relocations? (n : Node) (name : String) : Option (List Relocation) :=
  (n.get? name).bind Value.relocations?

/-- The table under a name. -/
def table? (n : Node) (name : String) : Option Fields := (n.get? name).bind Value.table?

/-- The unit under a name. -/
def unit? (n : Node) (name : String) : Option IntrinsicUnit := (n.get? name).bind Value.unit?

/-- The node with an attribute set. -/
def set : Node → String → Value → Node
  | mk tag fields span, name, value => mk tag (fields.set name value) span

/-- The node with an attribute set if there is a value for it. -/
def set? (n : Node) (name : String) : Option Value → Node
  | some value => n.set name value
  | none => n

/-- The node without an attribute. -/
def erase : Node → String → Node
  | mk tag fields span, name => mk tag (fields.erase name) span

/-- The node with another tag. -/
def withTag : Node → Tag → Node
  | mk _ fields span, tag => mk tag fields span

/-- The node at another place. -/
def withSpan : Node → Span → Node
  | mk tag fields _, span => mk tag fields span

end Node

/-! ## 4. Size -/

mutual

/-- The number of nodes of a tree, those in tables left out. -/
def Node.size : Node → Nat
  | .mk _ fields _ => fields.nodeCount + 1

/-- The number of nodes under named values. -/
def Fields.nodeCount : Fields → Nat
  | .nil => 0
  | .cons _ (.node n) rest => n.size + rest.nodeCount
  | .cons _ _ rest => rest.nodeCount

end

/-! ## 5. The order of visits -/

/-- Named things in the order of visits: by name, but `body` and `next` last. -/
def visitOrder {α : Type} (entries : List (String × α)) : List (String × α) :=
  entries.filter (fun (name, _) => name != "body" && name != "next") ++
    entries.filter (fun (name, _) => name == "body") ++
    entries.filter (fun (name, _) => name == "next")

end Lode
