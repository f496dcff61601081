/-
# Flow states

A flow state is what is known at one point of a routine: the types of each
variable there, which variables may be and which certainly are initialized, and
a few notes on the range of integers.  States meet where paths meet; `join` is
what holds on either path.

A state has one slot for each variable the scope had when it was made.  A
variable without a slot belongs to code the state has never seen, so it reads
as the any-type, and so does every variable beyond the tracked ones.

Key definitions: `State.get`, `State.assign`, `State.narrow`, `State.unset`,
`State.join`.
-/
import ShapeFlow.Flow.Scope
import ShapeFlow.Sorted

namespace ShapeFlow
namespace Flow

/-- A limit that an integer variable is known not to have reached. -/
inductive Limit where
  /-- It is below the largest integer: adding one cannot overflow. -/
  | belowMax
  /-- It is above the smallest integer: subtracting one cannot overflow. -/
  | aboveMin
deriving DecidableEq, Ord, Inhabited

/-- A limit known of a variable. -/
structure Note where
  var : Nat
  limit : Limit
deriving DecidableEq, Ord, Inhabited

/-- What is known at one point of a routine. -/
structure State where
  /-- The scope whose variables the slots describe. -/
  scope : Nat
  slots : List TypeSet := []
  /-- Initialized on some path to this point. -/
  possibly : VarSet := .empty
  /-- Initialized on every path to this point. -/
  certainly : VarSet := .empty
  /-- In order, without repetitions. -/
  notes : List Note := []
deriving DecidableEq, Inhabited

namespace State

/-- Nothing is initialized. -/
def start (s : Scope) : State := { scope := s.id, slots := List.replicate s.size .void }

/-- The slot of a variable; the any-type if it has none. -/
def slot (s : State) (i : Nat) : TypeSet := s.slots.getD i .any

/-- The types of a variable. -/
def get (s : State) (i : Nat) : TypeSet := if VarSet.tracked i then s.slot i else .any

/-- Replaces entry `i`; missing entries before it become the any-type. -/
def put : List TypeSet → Nat → TypeSet → List TypeSet
  | [], 0, t => [t]
  | [], i + 1, t => .any :: put [] i t
  | _ :: l, 0, t => t :: l
  | a :: l, i + 1, t => a :: put l i t

/-- A variable that may be, but need not be, initialized. -/
def inDoubt (s : State) (i : Nat) : Bool := s.possibly.contains i && !s.certainly.contains i

/-- Gives a variable a value.  Notes spoke of the old one. -/
def assign (s : State) (i : Nat) (t : TypeSet) : State :=
  { s with
    slots := put s.slots i t
    possibly := s.possibly.insert i
    certainly := s.certainly.insert i
    notes := s.notes.filter (·.var != i) }

/-- Replaces the types of a variable and leaves its initialization alone.  A
variable in doubt keeps null. -/
def narrow (s : State) (i : Nat) (t : TypeSet) : State :=
  if VarSet.tracked i then
    { s with slots := put s.slots i (if s.inDoubt i then t ∪ .null else t) }
  else s

/-- Takes a variable's value away. -/
def unset (s : State) (i : Nat) : State :=
  { s with
    slots := put s.slots i .void
    possibly := s.possibly.erase i
    certainly := s.certainly.erase i
    notes := s.notes.filter (·.var != i) }

def addNote (s : State) (n : Note) : State := { s with notes := Sorted.insertNew n s.notes }

def removeNote (s : State) (n : Note) : State := { s with notes := s.notes.filter (· != n) }

def hasNote (s : State) (n : Note) : Bool := s.notes.contains n

/-- What holds whichever of the two states was reached.  Types are those of
either side, and a variable left in doubt may also be null.  Only notes of both
sides stay. -/
def join (a b : State) : Except Fault State :=
  if a.scope = b.scope then
    let s : State :=
      { scope := a.scope
        possibly := a.possibly ∪ b.possibly
        certainly := a.certainly ∩ b.certainly
        notes := a.notes.filter b.notes.contains }
    .ok { s with
      slots := (List.range (max a.slots.length b.slots.length)).map fun i =>
        let t := a.slot i ∪ b.slot i
        if s.inDoubt i then t ∪ .null else t }
  else .error (.scopeMismatch a.scope b.scope)

/-- Every variable of `a` has its types among those it has in `b`. -/
def subsumedBy (a b : State) : Bool :=
  (List.range a.slots.length).all fun i => a.get i ⊆ b.get i

/-- The two states say the same; a missing slot says no less than the any-type. -/
def agrees (a b : State) : Bool :=
  a.scope == b.scope && a.possibly == b.possibly && a.certainly == b.certainly &&
    a.notes == b.notes &&
    (List.range (max a.slots.length b.slots.length)).all fun i => a.slot i == b.slot i

/-- The variables whose slots are not void, in order, with their types. -/
def entries (s : State) : List (Nat × TypeSet) :=
  s.slots.zipIdx.filterMap fun (t, i) => if t.isVoid then none else some (i, t)

end State
end Flow
end ShapeFlow
