/-
# Scopes

The scope of a routine numbers its variables in the order of first use and
collects, over the whole routine, what each of them has held, what the routine
returns and which variables are used or aliased.  All of it only grows, until
the routine is forgotten.
-/
import ShapeFlow.Fault
import ShapeFlow.TypeSet
import ShapeFlow.VarSet

namespace ShapeFlow
namespace Flow

/-- A variable of a routine. -/
structure Variable where
  name : String
  /-- Every type it has been given in any state. -/
  types : TypeSet := .void
  /-- What a static variable keeps from call to call. -/
  kept : Option TypeSet := none
deriving DecidableEq, Inhabited

/-- The variables of a routine and what is known of them throughout it. -/
structure Scope where
  /-- Tells the scopes of different routines apart. -/
  id : Nat
  vars : List Variable := []
  returns : TypeSet := .void
  used : VarSet := .empty
  aliased : VarSet := .empty
deriving DecidableEq, Inhabited

namespace Scope

def size (s : Scope) : Nat := s.vars.length

/-- The index of a variable. -/
def find? (s : Scope) (name : String) : Option Nat := s.vars.findIdx? (·.name == name)

/-- The index of a variable, which is made if it is new. -/
def declare (s : Scope) (name : String) : Nat × Scope :=
  match s.find? name with
  | some i => (i, s)
  | none => (s.size, { s with vars := s.vars ++ [{ name }] })

/-- The variable of index `i`. -/
def get (s : Scope) (i : Nat) : Except Fault Variable :=
  match s.vars[i]? with
  | some v => .ok v
  | none => .error (.unknownVariable i s.id s.size)

/-- Adds to the types of variable `i`; tells whether they grew. -/
def addTypes (s : Scope) (i : Nat) (t : TypeSet) : Except Fault (Bool × Scope) := do
  let v ← s.get i
  let all := v.types ∪ t
  return (all != v.types, { s with vars := s.vars.set i { v with types := all } })

def markUsed (s : Scope) (i : Nat) : Except Fault Scope := do
  let _ ← s.get i
  return { s with used := s.used.insert i }

/-- The index of a variable that the code mentions. -/
def use (s : Scope) (name : String) : Nat × Scope :=
  let (i, s) := s.declare name
  (i, { s with used := s.used.insert i })

def isUsed (s : Scope) (i : Nat) : Bool := s.used.contains i

def markAliased (s : Scope) (i : Nat) : Except Fault Scope := do
  let _ ← s.get i
  return { s with aliased := s.aliased.insert i }

/-- The variable may be changed through a reference: it is a by-reference
parameter, a global or a static. -/
def isAliased (s : Scope) (i : Nat) : Bool := s.aliased.contains i

/-- Adds to the types of the returned value; tells whether they grew. -/
def addReturn (s : Scope) (t : TypeSet) : Bool × Scope :=
  let all := s.returns ∪ t
  (all != s.returns, { s with returns := all })

/-- Adds to what static variable `i` keeps.  Tells whether it was declared
before and grew now. -/
def addKept (s : Scope) (i : Nat) (t : TypeSet) : Except Fault (Bool × Scope) := do
  let v ← s.get i
  let all := match v.kept with
    | some old => old ∪ t
    | none => t
  let grew := v.kept.any (all != ·)
  return (grew, { s with
    vars := s.vars.set i { v with kept := some all }, aliased := s.aliased.insert i })

/-- What static variable `i` keeps. -/
def kept? (s : Scope) (i : Nat) : Option TypeSet := s.vars[i]? >>= (·.kept)

/-- Declares parameters, in order; those by reference are aliased. -/
def addParams : List (String × Bool) → Scope → List Nat × Scope
  | [], s => ([], s)
  | (name, byRef) :: params, s =>
    let (i, s) := s.declare name
    let s := if byRef then { s with aliased := s.aliased.insert i } else s
    let (is, s) := addParams params s
    (i :: is, s)

/-- The scope of a routine with the given parameters whose body mentions
`names`.  Every variable is declared before any state is made. -/
def ofRoutine (id : Nat) (params : List (String × Bool)) (names : List String) : List Nat × Scope :=
  let (is, s) := addParams params { id }
  (is, names.foldl (fun s name => (s.use name).2) s)

/-- Forgets what has been learned.  The variables and their aliases stay. -/
def forget (s : Scope) : Scope :=
  { s with
    vars := s.vars.map fun v => { v with types := .void, kept := none }
    returns := .void
    used := .empty }

end Scope
end Flow
end ShapeFlow
