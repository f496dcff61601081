/-
# The analysis of a program

One iteration analyses until nothing is pending, then makes clones.  Iterations
go on until one makes no clone and leaves nothing pending.  A run ends early if
it is cancelled or has used up its iterations.

Key definitions: `Program.iteration`, `Program.iterate`, `Program.analyze`.
-/
import ShapeFlow.Run.Dynamic
import ShapeFlow.Run.Round
import ShapeFlow.Special.Clone

namespace ShapeFlow

/-- How a run is carried out. -/
structure Plan where
  config : Config := {}
  /-- Strategies beside those the configuration asks for; they come last. -/
  extra : List Strategy := []
  /-- Whether the run has been cancelled once strategies have been asked about
  so many routines. -/
  cancelled : (asked : Nat) → Bool := fun _ => false

namespace Plan

/-- The strategies of a run, in order. -/
def strategies (plan : Plan) : List Strategy := plan.config.builtin ++ plan.extra

end Plan

/-- Enters a routine that has not been analysed since it was made, or since
it was invalidated. -/
def Routine.enter (r : Routine) : Except Fault Routine :=
  match r.status with
  | .unanalyzed | .invalidated => return (← r.seed).2
  | .analyzing | .stable => return r

namespace Program

/-- A routine that has been drained is stable until something queues it again. -/
def markStable (p : Program) : Program :=
  { p with routines := p.routines.map fun r =>
      if r.status = .analyzing && !r.isPending then { r with status := .stable } else r }

/-- Changes the program by an operation that may fail. -/
def attempt {β : Type} (f : Program → Except Fault (β × Program)) : Run β := do
  match f (← get) with
  | .ok (b, p) =>
    set p
    return b
  | .error f => throw f

/-- How many routines the strategies are asked about in a pass. -/
def asked (plan : Plan) (p : Program) : Nat :=
  if plan.strategies.isEmpty then 0 else (p.eligible plan.config).length

/-- One iteration.  Gives how many routines the strategies were asked about, and
whether nothing is left to do. -/
def iteration (plan : Plan) : Run (Nat × Bool) := do
  settle
  modify markStable
  let asked := (← get).asked plan
  let clones ← attempt (specialize plan.config plan.strategies)
  modify forwardDynamic
  return (asked, clones == 0 && !(← get).isPending)

/-- Ends a run that has used up its iterations. -/
def giveUp (done : Nat) : Run Outcome := do
  modify fun p => { p with diagnostics := p.diagnostics ++ [⟨none, none, .budgetExceeded done⟩] }
  return .budgetExceeded done

/-- Iterations until nothing is left to do; `done` have been made, strategies
have been asked about `seen` routines, and `left` more iterations are allowed. -/
def iterate (plan : Plan) (done seen : Nat) : (left : Nat) → Run Outcome
  | 0 => if plan.cancelled seen then return .cancelled done else giveUp done
  | left + 1 => do
    if plan.cancelled seen then return .cancelled done
    let (asked, finished) ← iteration plan
    if finished then return .converged (done + 1)
    iterate plan (done + 1) (seen + asked) left

/-- Collects the diagnostics of all routines, each once, in order. -/
def diagnose (p : Program) : Program :=
  { p with diagnostics :=
      Sorted.sortNew (p.diagnostics ++ p.routines.flatMap Routine.diagnostics) }

/-- Analyses the program. -/
def analyze (plan : Plan) : Run Outcome := do
  modify fun p => { p with diagnostics := [], outcome := none }
  attempt fun p => return ((), { p with routines := ← p.routines.mapM Routine.enter })
  let outcome ← iterate plan 0 0 plan.config.maxIterations
  if outcome.isConverged then modify diagnose
  modify fun p => { p with outcome := some outcome }
  return outcome

end Program
end ShapeFlow
