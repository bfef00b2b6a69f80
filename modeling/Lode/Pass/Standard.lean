/-
# The standard passes

All passes of the compiler, in no particular order.
-/
import Lode.Pass.Accumulator
import Lode.Pass.Arithmetic
import Lode.Pass.Assembly
import Lode.Pass.Locals
import Lode.Pass.Schedule
import Lode.Pass.Scopes
import Lode.Pass.Typing
import Lode.Pass.Units
import Lode.Pass.WrittenTypes

namespace Lode

/-- Every pass of the compiler. -/
def standardPasses : List Pass :=
  [ExplicitScopes.pass, ResolveUnits.pass, ConstructTypes.pass, BindNames.pass,
    EvaluateConstants.pass, ResolveConstants.pass, FoldArithmetic.pass, PropagateTypes.pass,
    ResolveStorage.pass, AllocateLocals.pass, LowerCalls.pass, LowerAssignment.pass,
    LowerFunctions.pass, Assemble.pass, FlattenSymbol.pass]

end Lode
