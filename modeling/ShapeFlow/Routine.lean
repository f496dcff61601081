/-
# Routines

A routine is its parameters and its graph, and what the analysis has found out
about it: facts about each expression, the state in which each block is
entered, the blocks still to be looked at.  A clone is a routine whose
parameters are fixed to narrower types; it shares the graph of its origin and
starts without facts.
-/
import ShapeFlow.Agenda
import ShapeFlow.Call.Resolve
import ShapeFlow.Flow.State
import ShapeFlow.Graph.Lower

namespace ShapeFlow

open ShapeFlow.Flow

/-- How far the analysis of a routine has come. -/
inductive Status where
  | unanalyzed | analyzing | stable | invalidated
deriving DecidableEq, Inhabited

/-- Properties of a routine as a whole. -/
structure Flags where
  /-- It calls a dynamic library function itself. -/
  dynamicCall : Bool := false
  statics : Bool := false
  globals : Bool := false
  /-- It, or a routine it can reach by calls, makes a dynamic call. -/
  callsDynamic : Bool := false
deriving DecidableEq, Inhabited

namespace Flags

instance : Union Flags := ⟨fun a b =>
  ⟨a.dynamicCall || b.dynamicCall, a.statics || b.statics, a.globals || b.globals,
    a.callsDynamic || b.callsDynamic⟩⟩

instance : Inter Flags := ⟨fun a b =>
  ⟨a.dynamicCall && b.dynamicCall, a.statics && b.statics, a.globals && b.globals,
    a.callsDynamic && b.callsDynamic⟩⟩

def isEmpty (f : Flags) : Bool := f == {}

/-- Every flag of `g` is set in `f`. -/
def contains (f g : Flags) : Bool := f ∩ g == g

/-- Some flag is set in both. -/
def meets (f g : Flags) : Bool := !(f ∩ g).isEmpty

end Flags

/-- A parameter of a routine. -/
structure Param where
  name : String
  /-- Its index in the scope. -/
  var : Nat
  /-- Its declared types; any, unless declared. -/
  declared : TypeSet
  doc : Option TypeSet := none
  byRef : Bool := false
  /-- The types of its default value, if it has one. -/
  default : Option TypeSet := none
deriving DecidableEq, Inhabited

/-- Whether a variable was initialized where it was read. -/
structure ReadSite where
  var : Nat
  possibly : Bool
  certainly : Bool
deriving DecidableEq, Inhabited

/-- What is known of an expression. -/
structure Fact where
  types : TypeSet := .void
  /-- What a call is bound to. -/
  target : Option Target := none
  /-- How a variable was found when it was read. -/
  read : Option ReadSite := none
deriving DecidableEq, Inhabited

/-- The types of the parameters of a routine, in order. -/
abbrev Tuple := List TypeSet

/-- A routine and what is known of it. -/
structure Routine where
  id : Nat
  name : String
  params : List Param
  graph : Graph Nat
  exported : Bool
  /-- For a clone, the routine it was first cloned from. -/
  origin : Option Nat := none
  /-- For a clone, the types its parameters are fixed to. -/
  fixed : Option Tuple := none
  scope : Scope
  status : Status := .unanalyzed
  /-- By number of expression. -/
  facts : Array Fact
  /-- The state in which each block is entered, once it has been reached. -/
  inputs : Array (Option State)
  /-- The block in which each static variable is declared. -/
  sites : List (Nat × Nat) := []
  /-- The types seen for each parameter at calls. -/
  observed : List TypeSet
  /-- Blocks to look at. -/
  pending : Agenda Nat := .empty
  flags : Flags := {}
  /-- What was last proposed to fix the parameters to, in order. -/
  candidates : List Tuple := []
  /-- Tuples this routine has been cloned for. -/
  applied : List Tuple := []
deriving Inhabited

namespace ParamDecl

/-- The types of a default value.  Only literals and the empty array are looked
at. -/
def defaultTypes : Expr Unit → StateM ShapeTable TypeSet
  | .lit _ kind => pure kind.types
  | .array _ [] => modifyGet fun t => t.arrayOf .void
  | _ => pure .any

/-- A parameter as declared; its index is still to be set. -/
def param (p : ParamDecl) : StateM ShapeTable Param := do
  let declared ← match p.hint with
    | some h => h.types
    | none => pure .any
  let doc ← p.doc.mapM Hint.types
  let default ← p.default.mapM defaultTypes
  return { name := p.name, var := 0, declared, doc, byRef := p.byRef, default }

end ParamDecl

namespace Routine

/-- A routine of which nothing is known. -/
def fresh (id : Nat) (name : String) (params : List Param) (graph : Graph Nat) (exported : Bool) :
    Routine :=
  let (vars, scope) := Scope.ofRoutine id (params.map fun p => (p.name, p.byRef)) graph.names
  { id, name, graph, exported, scope
    params := List.zipWith (fun p var => { p with var }) params vars
    facts := Array.replicate graph.exprCount {}
    inputs := Array.replicate graph.size none
    observed := params.map fun _ => .void }

/-- The routine a declaration stands for.  Nothing is interned if its body
cannot be lowered. -/
def ofDecl (id : Nat) (d : RoutineDecl) (t : ShapeTable) : Except Fault (Routine × ShapeTable) := do
  let graph ← Graph.ofSource? d.body
  let (params, t) := (d.params.mapM ParamDecl.param).run t
  return (fresh id d.name params graph d.exported, t)

/-- The routine with its parameters fixed to `tuple`. -/
def clone (r : Routine) (id : Nat) (tuple : Tuple) : Routine :=
  { fresh id r.name r.params r.graph false with
    origin := some (r.origin.getD r.id)
    fixed := some tuple }

/-- The types of the parameters as callers see them. -/
def paramTypes (r : Routine) : Tuple := r.fixed.getD (r.params.map (·.declared))

def signature (r : Routine) : Signature where
  id := r.id
  params := r.paramTypes
  byRef := r.params.map (·.byRef)
  required := (r.params.filter (·.default.isNone)).length
  returns := r.scope.returns

/-- The types of a variable throughout the routine. -/
def varTypes? (r : Routine) (name : String) : Option TypeSet := do
  let i ← r.scope.find? name
  let v ← r.scope.vars[i]?
  return v.types

/-- The types found for an expression so far. -/
def exprTypes (r : Routine) (id : Nat) : TypeSet := (r.facts[id]?.map (·.types)).getD .void

def target? (r : Routine) (id : Nat) : Option Target := r.facts[id]? >>= (·.target)

/-- The state in which a block is entered. -/
def input? (r : Routine) (block : Nat) : Option State := r.inputs[block]?.join

/-- Blocks that have been reached, in order. -/
def reached (r : Routine) : List Nat :=
  (List.range r.inputs.size).filter fun b => (r.input? b).isSome

def setInput (r : Routine) (block : Nat) (s : State) : Routine :=
  { r with inputs := r.inputs.setIfInBounds block (some s) }

/-- Asks for a block to be looked at. -/
def queue (r : Routine) (block : Nat) : Routine := { r with pending := r.pending.insert block }

/-- Asks for a block to be looked at again, if it has been reached. -/
def requeue (r : Routine) (block : Nat) : Routine :=
  if (r.input? block).isSome then r.queue block else r

/-- The routine still has blocks to look at. -/
def isPending (r : Routine) : Bool := !r.pending.isEmpty

/-- Adds to the types seen for the parameters. -/
def observe (seen : List TypeSet) (args : List TypeSet) : List TypeSet :=
  match seen, args with
  | s :: seen, a :: args => (s ∪ a.plain) :: observe seen args
  | seen, _ => seen

/-- Forgets all that has been found out. -/
def forget (r : Routine) : Routine :=
  { r with
    scope := r.scope.forget
    facts := Array.replicate r.graph.exprCount {}
    inputs := Array.replicate r.graph.size none
    sites := []
    pending := .empty
    flags := {}
    observed := r.observed.map fun _ => .void }

/-! ### The entry -/

/-- The types of parameter `i` on entry: those it is fixed to; or those it is
declared with; or, if every caller is known, those seen so far.  A default may
stand in for the argument. -/
def entryTypes (r : Routine) (i : Nat) (p : Param) : TypeSet :=
  match r.fixed with
  | some tuple => tuple.getD i .any
  | none =>
    let base :=
      if !p.declared.isAny then p.declared
      else if !r.exported then r.observed.getD i .any
      else .any
    match p.default with
    | some d => base ∪ d
    | none => base

/-- The state in which the routine is entered. -/
def entryState (r : Routine) : State :=
  r.params.zipIdx.foldl (fun s (p, i) => s.assign p.var (r.entryTypes i p).plain) (.start r.scope)

/-- Joins a state into the input of a block.  Tells whether the input changed;
if so the block is queued. -/
def flowInto (r : Routine) (block : Nat) (s : State) : Except Fault (Bool × Routine) :=
  match r.input? block with
  | none => return (true, (r.setInput block s).queue block)
  | some old => do
    let new ← old.join s
    if new.agrees old then return (false, r)
    else return (true, (r.setInput block new).queue block)

/-- Joins the entry state into the input of the entry block. -/
def seed (r : Routine) : Except Fault (Bool × Routine) := r.flowInto Graph.entry r.entryState

end Routine
end ShapeFlow
