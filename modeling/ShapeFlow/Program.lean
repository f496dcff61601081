/-
# Programs

A program is its routines, clones included, with what they share: the table of
shapes, the names, the calls.  It also remembers how the last run of the
analysis ended, until something changes.
-/
import ShapeFlow.Call.Directory
import ShapeFlow.Call.Graph
import ShapeFlow.Diagnostic

namespace ShapeFlow

/-- How a run of the analysis ended, and after how many iterations.  Only a
converged run gives results that can be used. -/
inductive Outcome where
  | converged (iterations : Nat)
  | cancelled (iterations : Nat)
  | budgetExceeded (iterations : Nat)
deriving DecidableEq, Inhabited

namespace Outcome

def iterations : Outcome → Nat
  | converged n | cancelled n | budgetExceeded n => n

def isConverged : Outcome → Bool
  | converged _ => true
  | _ => false

end Outcome

/-- A program under analysis. -/
structure Program where
  table : ShapeTable := .standard
  /-- By id. -/
  routines : List Routine := []
  directory : Directory := {}
  calls : CallGraph := {}
  resolver : Resolver := Resolver.mostSpecific
  diagnostics : List Diagnostic := []
  outcome : Option Outcome := none

instance : Inhabited Program := ⟨{}⟩

namespace Program

/-- A program without routines. -/
def empty : Program := {}

def size (p : Program) : Nat := p.routines.length

/-- The signatures of all routines as they are now. -/
def signatures (p : Program) : List Signature := p.routines.map Routine.signature

/-- Changes one routine. -/
def update (p : Program) (id : Nat) (f : Routine → Routine) : Program :=
  { p with routines := p.routines.modify id f }

/-- Adds a routine.  Fails, and changes nothing, if its body cannot be lowered. -/
def addRoutine (p : Program) (d : RoutineDecl) : Except Fault (Nat × Program) := do
  let id := p.size
  let (r, table) ← Routine.ofDecl id d p.table
  return (id, { p with
    table
    routines := p.routines ++ [r]
    directory := p.directory.declareRoutine r.name id
    outcome := none })

/-- Adds a clone of a routine. -/
def addClone (p : Program) (r : Routine) (tuple : Tuple) : Program :=
  let id := p.size
  { p with
    routines := p.routines ++ [r.clone id tuple]
    directory := p.directory.declareRoutine r.name id }

def declareClass (p : Program) (name : String) (members : List String) : Program :=
  { p with directory := p.directory.declareClass name members }

/-- Every routine called `name`, clones included. -/
def overloads (p : Program) (name : String) : List Nat := p.directory.candidates name

/-- The first routine declared as `name`. -/
def lookup (p : Program) (name : String) : Option Nat :=
  (p.overloads name).find? fun id => p.routines[id]?.any (·.origin.isNone)

/-- The clones of a routine. -/
def clones (p : Program) (id : Nat) : List Nat :=
  (p.routines.filter (·.origin == some id)).map (·.id)

/-- Fails unless there is a routine `id`. -/
def check (p : Program) (id : Nat) : Except Fault Unit :=
  if id < p.size then .ok () else .error (.routineOutOfRange id p.size)

/-- Blocks that call `id` and have been reached are to be looked at again. -/
def requeueCallers (p : Program) (id : Nat) : Program :=
  (p.calls.into id).foldl (fun p e => p.update e.caller (·.requeue e.block)) p

/-- Forgets what is known of a routine, except what its calls tell, and has its
callers look again. -/
def invalidate (p : Program) (id : Nat) : Except Fault Program := do
  p.check id
  let edges := p.calls.into id
  let p := p.update id fun r =>
    let r := { r.forget with status := .invalidated }
    { r with observed := edges.foldl (fun seen e => Routine.observe seen e.argTypes) r.observed }
  return { p.requeueCallers id with outcome := none }

/-- Has every block of a routine that was reached looked at again. -/
def requeue (p : Program) (id : Nat) : Except Fault Program := do
  p.check id
  let p := p.update id fun r => { r with pending := r.pending.insertAll r.reached }
  return { p with outcome := none }

/-- The program, if its results can be used. -/
def results (p : Program) : Except Fault Program :=
  if p.outcome.any Outcome.isConverged then .ok p else .error .notConverged

end Program
end ShapeFlow
