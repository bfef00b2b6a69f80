/-
# Sequences

A list of nodes is a chain: each cell holds one element, under the attribute that its tag names, and
the next cell under `next`.  A chain ends where `next` is missing or has another tag.
-/
import Lode.Tree.Basic

namespace Lode

mutual

/-- The cells of the chain that begins with a node. -/
def Node.cells : Node → List Node
  | .mk tag fields span => .mk tag fields span :: fields.nextCells tag

/-- The cells of the chain under `next`, if it goes on with the tag. -/
def Fields.nextCells : Fields → Tag → List Node
  | .nil, _ => []
  | .cons name (.node n) rest, tag =>
    if name == "next" then if n.tag == tag then n.cells else [] else rest.nextCells tag
  | .cons name _ rest, tag => if name == "next" then [] else rest.nextCells tag

end

namespace Node

/-- The elements of a sequence; none for other nodes. -/
def elements (n : Node) : List Node :=
  match n.tag.element? with
  | none => []
  | some element => n.cells.filterMap (·.node? element)

/-- The elements of the sequence under a name. -/
def elementsOf (n : Node) (name : String) : List Node :=
  match n.node? name with
  | some sequence => sequence.elements
  | none => []

/-- One cell in front of an optional rest. -/
def cell (tag : Tag) (element : String) (item : Node) (next : Option Node) : Node :=
  let span := match next with
    | some rest => item.span.join rest.span
    | none => item.span
  (build tag span [(element, .node item)]).set? "next" (next.map .node)

/-- The chain of the given elements, ending in `rest`; nothing if there are neither. -/
def sequence (tag : Tag) (items : List Node) (rest : Option Node) : Option Node :=
  match tag.element? with
  | none => none
  | some element => items.foldr (fun item next => some (cell tag element item next)) rest

/-- One step of a path: the elements of a sequence if the name is that of its element, otherwise
the child under the name. -/
def selectStep (name : String) (n : Node) : List Node :=
  if n.tag.element? == some name then n.elements else (n.node? name).toList

/-- The nodes at the end of a path of names. -/
def select (n : Node) (path : List String) : List Node :=
  path.foldl (fun nodes name => nodes.flatMap (selectStep name)) [n]

end Node

end Lode
