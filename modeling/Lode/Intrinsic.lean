/-
# Intrinsic units

Units that come with the language.  Their members are evaluated while compiling: each takes the
argument nodes, already evaluated, and gives the node that takes the place of the call.
-/
import Lode.Error
import Lode.Tree.Basic

namespace Lode

/-- A member of an intrinsic unit. -/
structure IntrinsicMember where
  name : String
  type : Ty
  evaluate : List Node → Span → Except Error Node

namespace Intrinsic

/-- A number with a type. -/
def typedNumber (value : Int) (type : Ty) (span : Span) : Node :=
  .build .number span [("value", .int value), ("type", .type type)]

/-- The only argument, which must be an unsigned word of two bytes. -/
def wordArgument (args : List Node) (span : Span) : Except Error Int :=
  match args with
  | [arg] =>
    match arg.tag, arg.int? "value" with
    | .number, some value =>
      if Ty.u16.fits value then .ok value
      else .error ((ConstantProblem.wordRange value).atSpan arg.span)
    | _, _ => .error (ConstantProblem.argumentNotANumber.atSpan arg.span)
  | _ => .error ((ConstantProblem.argumentCount args.length).atSpan span)

/-- A member that computes a number from one word. -/
def wordMember (name : String) (result : Ty) (compute : Int → Int) : IntrinsicMember where
  name := name
  type := .function result [.u16]
  evaluate args span := do
    let value ← wordArgument args span
    return typedNumber (compute value) result span

/-- The members of the unit `mem`: addresses of bytes and words, and the two bytes of a word. -/
def memMembers : List IntrinsicMember :=
  [wordMember "addr8" (.ref .u8) id,
    wordMember "addr16" (.ref .u16) id,
    wordMember "lo" .u8 (· % 256),
    wordMember "hi" .u8 (· / 256 % 256)]

end Intrinsic

namespace IntrinsicUnit

/-- The members of a unit. -/
def members : IntrinsicUnit → List IntrinsicMember
  | mem => Intrinsic.memMembers

/-- The member of a name. -/
def member? (u : IntrinsicUnit) (name : String) : Option IntrinsicMember :=
  u.members.find? (·.name == name)

/-- The unit of a name. -/
def ofName? (name : String) : Option IntrinsicUnit := if name == mem.name then some mem else none

end IntrinsicUnit

end Lode
