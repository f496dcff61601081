/-
# Configuration

What a user of the analysis can choose.
-/
namespace ShapeFlow

/-- Which strategies propose tuples. -/
structure StrategyChoice where
  calls : Bool := true
  /-- Proposes types that nothing has been seen to have; off unless asked for. -/
  usage : Bool := false
  texts : Bool := true
  docs : Bool := true
deriving DecidableEq, Inhabited

/-- The settings of a run.  Unless said otherwise, it is on one thread. -/
structure Config where
  /-- After this many iterations the run gives up. -/
  maxIterations : Nat := 32
  /-- Whether the routines of a round may be drained by several threads. -/
  parallel : Bool := false
  /-- How many threads are asked for. -/
  workers : Nat := 1
  /-- Clones may be cloned again. -/
  incremental : Bool := false
  /-- How many clones are made of a routine at most. -/
  maxClones : Nat := 1
  strategies : StrategyChoice := {}
  /-- With more classes than this, use tells only that a parameter is an object. -/
  maxClasses : Nat := 4
deriving DecidableEq, Inhabited

namespace Config

/-- The settings on a machine with this many processors. -/
def standard (processors : Nat) : Config := { parallel := true, workers := processors }

/-- How many threads there are. -/
def threads (c : Config) : Nat := if c.parallel then max c.workers 1 else 1

example (n : Nat) : (standard n).threads = max n 1 := rfl

end Config
end ShapeFlow
