/-
# Draining a routine

A routine is analysed by going through its pending blocks until none is left.
What a block finds out may queue others; every time, something that is known
has grown, and only so much can be known, so the queue runs empty.
`Routine.stepBound` counts how often at most.

Key definitions: `Infer.drain`, `Routine.stepBound`.
-/
import ShapeFlow.Infer.Block

namespace ShapeFlow

open ShapeFlow.Flow

/-- How often a state over `n` variables can grow: each slot by 63 shapes and
a mark, both sets of variables by 64, and the notes, two for each variable, can
only be lost. -/
def Flow.State.growth (n : Nat) : Nat := 66 * n + 128

/-- How many blocks of the routine are gone through at most until none is
pending.  Growth of an input queues one block; growth of the types of a
variable, or of what a static variable keeps, queues two. -/
def Routine.stepBound (r : Routine) : Nat :=
  r.pending.size + r.graph.size * (State.growth r.scope.size + 1) + 2 * (r.scope.size * 129)

namespace Infer

/-- Goes through pending blocks until none is left, `bound` of them at most. -/
def drain (c : Nat → Setting) : (bound : Nat) → Walk Unit
  | 0 => do
    if (← getRoutine).isPending then throw .stepBoundReached
  | bound + 1 => do
    match (← getRoutine).pending.pop? with
    | none => return ()
    | some (b, pending) =>
      modifyRoutine fun r => { r with pending }
      block (c b)
      drain c bound

end Infer
end ShapeFlow
