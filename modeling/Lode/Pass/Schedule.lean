/-
# The order of passes

A pass has to run before another one if it introduces something the other uses or deletes, or uses
something the other deletes.  A pass that deletes what it introduces would have to run before
itself.

The order is found depth first: before a pass come the passes it waits for.  Where passes wait for
each other in a circle there is no order, and the circle is reported.  In which order passes and the
passes they wait for are visited is free; it can be the order of declaration or a shuffled one.
-/
import Lode.Pass.Basic
import Lode.Random

namespace Lode

/-- How the order is looked for. -/
structure ScheduleOptions where
  /-- Visit the passes in the order of declaration. -/
  deterministic : Bool := true
  /-- The seed of the shuffled order. -/
  seed : Option UInt64 := none
deriving DecidableEq, Repr

namespace Schedule

/-- Whether two lists have a member in common. -/
def meets (a b : List String) : Bool := a.any b.contains

/-- Whether a pass has to run before another one. -/
def mustPrecede (before after : PassInfo) : Bool :=
  if before.name == after.name then meets before.introduces before.deletes
  else meets before.introduces after.uses || meets before.introduces after.deletes ||
    meets before.uses after.deletes

/-! ## 1. Depth-first order -/

/-- The passes that are placed, the latest first, and the ones whose turn it is, the innermost
first. -/
structure Search where
  placed : List Nat
  path : List Nat
deriving DecidableEq, Repr

/-- The circle that closes when a pass on the path is reached again, as indices. -/
def circle (path : List Nat) (index : Nat) : List Nat :=
  ((path.takeWhile (· != index)) ++ [index]).reverse ++ [index]

mutual

/-- Places a pass after the passes it waits for, at most `fuel` of them deep. -/
def visit (dependencies : Array (List Nat)) : Nat → Nat → Search → Except (List Nat) Search
  | 0, _, s => .ok s
  | fuel + 1, index, s =>
    if s.placed.contains index then .ok s
    else if s.path.contains index then .error (circle s.path index)
    else do
      let inner ← visitAll dependencies fuel ((dependencies[index]?).getD [])
        { s with path := index :: s.path }
      return ⟨index :: inner.placed, s.path⟩

/-- Places passes one after the other. -/
def visitAll (dependencies : Array (List Nat)) (fuel : Nat) :
    List Nat → Search → Except (List Nat) Search
  | [], s => .ok s
  | index :: rest, s => do
    let s ← visit dependencies fuel index s
    visitAll dependencies fuel rest s

end

/-- The order that results from visiting `roots`, or a circle. -/
def orderFrom (dependencies : Array (List Nat)) (roots : List Nat) : Except (List Nat) (List Nat) :=
  (visitAll dependencies (dependencies.size + 1) roots ⟨[], []⟩).map fun s => s.placed.reverse

/-! ## 2. Orders of passes -/

/-- For every pass the passes it waits for. -/
def dependenciesOf (infos : List PassInfo) : List (List Nat) :=
  infos.map fun after =>
    (infos.zipIdx.filter fun (before, _) => mustPrecede before after).map (·.2)

/-- Shuffles lists one after the other. -/
def shuffleAll : List (List Nat) → Generator → List (List Nat)
  | [], _ => []
  | xs :: rest, g =>
    let (shuffled, g) := g.shuffle xs
    shuffled :: shuffleAll rest g

/-- The numbers of passes in an order in which they can run. -/
def order (infos : List PassInfo) (options : ScheduleOptions) : Except Error (List Nat) :=
  let roots := List.range infos.length
  let dependencies := dependenciesOf infos
  let (roots, dependencies) :=
    if options.deterministic then (roots, dependencies)
    else
      let (roots, g) := (Generator.ofSeed (options.seed.getD 0)).shuffle roots
      (roots, shuffleAll dependencies g)
  (orderFrom dependencies.toArray roots).mapError fun indices =>
    ⟨.topology (indices.map fun i => ((infos[i]?).map PassInfo.name).getD ""), none⟩

end Schedule

/-- Passes in an order in which they can run. -/
def schedule (passes : List Pass) (options : ScheduleOptions) : Except Error (List Pass) := do
  let indices ← Schedule.order (passes.map (·.info)) options
  return indices.filterMap (passes[·]?)

end Lode
