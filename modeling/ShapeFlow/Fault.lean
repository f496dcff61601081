/-
# Faults

What can go wrong.  A body may fail to be lowered; results may be asked for too
early; everything else says that an invariant of the analysis does not hold.
-/
namespace ShapeFlow

/-- Why an operation did not give a result. -/
inductive Fault where
  /-- A `break` that is in no loop. -/
  | breakOutsideLoop
  /-- A `continue` that is in no loop. -/
  | continueOutsideLoop
  /-- Results of an analysis that has not converged. -/
  | notConverged
  /-- A scope of `count` variables was asked for variable `var`. -/
  | unknownVariable (var scope count : Nat)
  /-- Flow states of two different scopes met. -/
  | scopeMismatch (left right : Nat)
  /-- A queued block has never been reached. -/
  | unreachedBlock (block : Nat) (routine : String)
  /-- A type was recorded for an expression the routine does not have. -/
  | unknownExpr (id : Nat)
  /-- Overload resolution picked a routine that does not exist. -/
  | unknownCallee (name : String) (id : Nat)
  /-- A call was reported for a routine that does not exist. -/
  | unknownRoutine (id : Nat)
  /-- A program of `count` routines was asked for routine `id`. -/
  | routineOutOfRange (id count : Nat)
  /-- A type set holds an index that stands for no shape. -/
  | unknownShape
  /-- The analysis took more steps than its bound allows. -/
  | stepBoundReached
deriving DecidableEq, Inhabited

namespace Fault

/-- What a fault says about the input. -/
inductive Category where
  /-- The body of a routine is at fault. -/
  | lowering
  /-- Results are not there yet. -/
  | notConverged
  /-- An invariant does not hold. -/
  | internal
  /-- A set of types could not be read. -/
  | unreadable
deriving DecidableEq, Inhabited

def category : Fault → Category
  | breakOutsideLoop | continueOutsideLoop => .lowering
  | notConverged => .notConverged
  | unknownShape => .unreadable
  | _ => .internal

/-- What exactly is wrong. -/
def detail : Fault → String
  | breakOutsideLoop => "break statement must be inside a loop"
  | continueOutsideLoop => "continue statement must be inside a loop"
  | notConverged => "analysis did not converge; results are not usable for code generation"
  | unknownVariable var scope count =>
    s!"variable handle {var} out of range for flow context #{scope} ({count} variables)"
  | scopeMismatch left right => s!"merging flow states of different contexts (#{left} and #{right})"
  | unreachedBlock block routine => s!"block {block} of {routine} queued without an input state"
  | unknownExpr id => s!"expression id {id} out of range"
  | unknownCallee name id => s!"call to {name} resolved to unknown routine RoutineId({id})"
  | unknownRoutine id => s!"call effect for unknown routine RoutineId({id})"
  | routineOutOfRange id count => s!"routine id {id} out of range ({count} routines)"
  | unknownShape => "type set holds a shape that is not in the table"
  | stepBoundReached => "step bound reached"

/-- The report shown to a user. -/
def message (f : Fault) : String :=
  match f.category with
  | .lowering => "lowering error: " ++ f.detail
  | .notConverged => f.detail
  | .internal | .unreadable => "internal error: " ++ f.detail

end Fault
end ShapeFlow
