/-
# Scopes

Units, functions and scope nodes open a frame of names and of constants.  A frame begins with the
tables that the node carries, left there by earlier passes, and is written back when the node is
left.  Names are looked up from the innermost frame outwards.

`Scoped.hooks` puts frames around the hooks of a walk.  A hook may change the tag of a node on the
way in; the frame follows the node's new tag.
-/
import Lode.Tree.Transform

namespace Lode

/-- The names and constants of one scope. -/
structure ScopeFrame where
  names : Fields := .nil
  constants : Fields := .nil
deriving DecidableEq, Repr

namespace ScopeFrame

/-- The frame a node brings along. -/
def ofNode (n : Node) : ScopeFrame :=
  ⟨(n.table? "names").getD .nil, (n.table? "constants").getD .nil⟩

/-- The node with a table, if the table has entries that the node does not yet carry. -/
def writeTable (name : String) (table : Fields) (n : Node) : Verdict :=
  if table.isEmpty || n.table? name == some table then .keep else .replace (n.set name (.table table))

/-- What becomes of a node when its frame is written back. -/
def writeBack (frame : ScopeFrame) (n : Node) : Verdict :=
  match writeTable "names" frame.names n with
  | .replace m =>
    match writeTable "constants" frame.constants m with
    | .keep => .replace m
    | verdict => verdict
  | _ => writeTable "constants" frame.constants n

end ScopeFrame

/-- The open frames, the innermost first. -/
abbrev Scopes := List ScopeFrame

namespace Scopes

/-- Whether nodes of a tag open a frame. -/
def opens : Tag → Bool
  | .unit | .function | .scope => true
  | _ => false

/-- The value of a name in the innermost frame that has it. -/
def lookup (scopes : Scopes) (name : String) : Option Value :=
  scopes.findSome? fun frame => frame.names.get? name

/-- The node a name stands for. -/
def binding (scopes : Scopes) (name : String) : Option Node :=
  (scopes.lookup name).bind Value.node?

/-- The value of a constant in the innermost frame that has it. -/
def constant (scopes : Scopes) (name : String) : Option Node :=
  (scopes.findSome? fun frame => frame.constants.get? name).bind Value.node?

/-- Binds a name in the innermost frame; nothing if the frame has the name already, or there is no
frame. -/
def bind? (scopes : Scopes) (name : String) (value : Value) : Option Scopes :=
  match scopes with
  | frame :: outer =>
    if frame.names.has name then none
    else some ({ frame with names := frame.names.set name value } :: outer)
  | [] => none

/-- Defines a constant in the innermost frame. -/
def define (scopes : Scopes) (name : String) (value : Node) : Scopes :=
  match scopes with
  | frame :: outer => { frame with constants := frame.constants.set name (.node value) } :: outer
  | [] => []

end Scopes

/-- The state of a walk with scopes. -/
structure Scoped (σ : Type) where
  scopes : Scopes
  own : σ

namespace Scoped

variable {σ : Type}

/-- Opens the frame of a node. -/
def push (n : Node) : Walk (Scoped σ) Unit :=
  modify fun s => { s with scopes := .ofNode n :: s.scopes }

/-- Closes the innermost frame. -/
def pop : Walk (Scoped σ) ScopeFrame :=
  modifyGet fun s =>
    match s.scopes with
    | frame :: outer => (frame, { s with scopes := outer })
    | [] => ({}, s)

/-- The way into a node. -/
def enter (hook : Node → Walk (Scoped σ) Verdict) (n : Node) : Walk (Scoped σ) Verdict := do
  let opened := Scopes.opens n.tag
  if opened then push n
  let verdict ← hook n
  match verdict.apply n with
  | some entered =>
    match opened, Scopes.opens entered.tag with
    | true, false => let _ ← pop
    | false, true => push entered
    | _, _ => pure ()
  | none => if opened then let _ ← pop
  return verdict

/-- The way out of a node. -/
def exit (hook : Node → Walk (Scoped σ) Verdict) (n : Node) : Walk (Scoped σ) Verdict := do
  if !Scopes.opens n.tag then hook n
  else
    let verdict ← hook n
    let frame ← pop
    match verdict.apply n with
    | none => return .remove
    | some left =>
      match frame.writeBack left with
      | .keep => return verdict
      | written => return written

/-- Frames around the hooks of a walk. -/
def hooks (h : Hooks (Scoped σ)) : Hooks (Scoped σ) := ⟨enter h.enter, exit h.exit⟩

end Scoped

end Lode
