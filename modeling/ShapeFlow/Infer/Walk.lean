/-
# Walks

A walk goes through the code of one block.  It carries the flow state along and
adds to what is known of the routine; it also reads and extends the table of
shapes and the call graph, which all routines share.  A walk that fails keeps
what it has done so far.

Key definitions: `Walker`, `Walk`, and the steps all rules are made of:
`record`, `useVar`, `intern`, `joinWith`.
-/
import ShapeFlow.Call.Directory
import ShapeFlow.Call.Graph
import ShapeFlow.Call.Library
import ShapeFlow.Routine

namespace ShapeFlow
namespace Infer

open ShapeFlow.Flow

/-- What a walk looks things up in: the names of the program, the signatures
of its routines when the round began, and the block it goes through. -/
structure Setting where
  directory : Directory
  resolver : Resolver
  signatures : List Signature
  block : Nat

/-- What a walk changes. -/
structure Walker where
  table : ShapeTable
  calls : CallGraph
  routine : Routine
  /-- What is known at the point the walk has come to. -/
  state : State
  /-- The calls made, with the types of their arguments. -/
  reports : Array (Nat × Tuple) := #[]

/-- A step of a walk. -/
abbrev Walk := EStateM Fault Walker

/-- A step that may fail by itself. -/
def ofExcept {β : Type} : Except Fault β → Walk β
  | .ok b => pure b
  | .error f => throw f

def getTable : Walk ShapeTable := return (← get).table

def getRoutine : Walk Routine := return (← get).routine

def modifyRoutine (f : Routine → Routine) : Walk Unit :=
  modify fun w => { w with routine := f w.routine }

def getState : Walk State := return (← get).state

def setState (s : State) : Walk Unit := modify fun w => { w with state := s }

def modifyState (f : State → State) : Walk Unit := modify fun w => { w with state := f w.state }

/-- Joins a state that was left before into the current one. -/
def joinWith (before : State) : Walk Unit := do
  setState (← ofExcept (before.join (← getState)))

/-! ### Types -/

/-- A set of types that may need a new shape. -/
def intern (f : ShapeTable → TypeSet × ShapeTable) : Walk TypeSet :=
  modifyGet fun w =>
    let (s, table) := f w.table
    (s, { w with table })

/-- A set of types found by looking at shapes. -/
def inspect (f : ShapeTable → Option TypeSet) : Walk TypeSet := do
  match f (← getTable) with
  | some s => return s
  | none => throw .unknownShape

/-- What reading an element of `s` gives. -/
def elementOf (s : TypeSet) : Walk TypeSet := inspect (·.element s)

/-! ### Facts about expressions -/

/-- Adds to the types of an expression. -/
def record (id : Nat) (s : TypeSet) : Walk Unit := do
  let r ← getRoutine
  if id < r.facts.size then
    modifyRoutine fun r =>
      { r with facts := r.facts.modify id fun k => { k with types := k.types ∪ s } }
  else throw (.unknownExpr id)

/-- Takes the types a step gives as those of expression `id`. -/
def recorded (id : Nat) (step : Walk TypeSet) : Walk TypeSet := do
  let s ← step
  record id s
  return s

/-- The types recorded for an expression so far. -/
def recordedTypes (id : Nat) : Walk TypeSet := do
  let r ← getRoutine
  return (r.facts[id]?.map (·.types)).getD .any

/-- Says what a call is bound to. -/
def bindCall (id : Nat) (target : Target) : Walk Unit :=
  modifyRoutine fun r =>
    { r with facts := r.facts.modify id fun k => { k with target := some target } }

/-- Notes how a variable was found when it was read: initialized on some of
the paths seen so far, on all of them. -/
def noteRead (id var : Nat) (possibly certainly : Bool) : Walk Unit :=
  modifyRoutine fun r => { r with facts := r.facts.modify id fun k =>
    let site := match k.read with
      | some s =>
        { s with possibly := s.possibly || possibly, certainly := s.certainly && certainly }
      | none => { var, possibly, certainly }
    { k with read := some site } }

/-! ### Variables -/

/-- The index of a variable that the code mentions. -/
def useVar (name : String) : Walk Nat :=
  modifyGet fun w =>
    let (i, scope) := w.routine.scope.use name
    (i, { w with routine := { w.routine with scope } })

/-- The index of the variable that an expression is, if it is one. -/
def varOf? (e : Expr Nat) : Walk (Option Nat) := e.varName?.mapM useVar

/-- Changes the scope by an operation that checks its variable. -/
def updateScope {β : Type} (f : Scope → Except Fault (β × Scope)) : Walk β := do
  let r ← getRoutine
  let (b, scope) ← ofExcept (f r.scope)
  modifyRoutine fun r => { r with scope }
  return b

/-- Something else may change the variable from now on. -/
def markAliased (var : Nat) : Walk Unit :=
  updateScope fun s => return ((), ← s.markAliased var)

/-- The types of a variable as a read sees them: null too, unless it is
certainly initialized. -/
def current (s : State) (var : Nat) : TypeSet :=
  let t := (s.get var).plain
  if s.certainly.contains var then t else t ∪ .null

/-- Reads a variable.  A quiet read leaves no note. -/
def readVariable (id : Nat) (name : String) (quiet : Bool) : Walk TypeSet := do
  let var ← useVar name
  let s ← getState
  if !quiet then
    noteRead id var (s.possibly.contains var) (s.certainly.contains var)
  return current s var

/-- The variable is known not to be null, so it has a value. -/
def assumeNotNull (var : Nat) : Walk Unit :=
  modifyState fun s => s.assign var ((current s var).remove .null)

/-- Asks for a block of the routine to be looked at. -/
def queue (block : Nat) : Walk Unit := modifyRoutine (·.queue block)

/-- Sets flags of the routine. -/
def addFlags (f : Flags) : Walk Unit := modifyRoutine fun r => { r with flags := r.flags ∪ f }

end Infer
end ShapeFlow
