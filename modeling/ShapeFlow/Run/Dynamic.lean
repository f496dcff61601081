/-
# Dynamic calls

A routine that makes dynamic calls, and every routine from which one can be
reached by calls, is marked.  The marks are found by solving a system of
dependencies: each node has at least the marks of the nodes it depends on.  Nodes
are visited until nothing changes; when the mark of a node has, those that depend
on it are visited again.

Key definitions: `Marking.solve`, `Program.marking`, `Program.forwardDynamic`.
-/
import ShapeFlow.Program

namespace ShapeFlow

/-- A mark for each key, and which marks depend on which. -/
structure Marking where
  /-- The node of each key. -/
  nodes : Nat → Option Nat := fun _ => none
  /-- The mark of each node. -/
  marks : List Bool := []
  /-- From nodes to those they depend on, the newest first. -/
  deps : List (Nat × Nat) := []

namespace Marking

/-- The node of a key, which is a new one without a mark if it has none yet. -/
def node (a : Marking) (k : Nat) : Nat × Marking :=
  match a.nodes k with
  | some n => (n, a)
  | none => (a.marks.length, { a with
      nodes := fun j => if j = k then some a.marks.length else a.nodes j
      marks := a.marks ++ [false] })

/-- Two marks joined, and whether the first has changed by it. -/
def join (mark other : Bool) : Bool × Bool := (other && !mark, mark || other)

def addSource (a : Marking) (k : Nat) (mark : Bool) : Marking :=
  let (n, a) := a.node k
  { a with marks := a.marks.modify n fun old => (join old mark).2 }

/-- The mark of `k` is to include that of `j`. -/
def addDep (a : Marking) (k j : Nat) : Marking :=
  let (n, a) := a.node k
  let (m, a) := a.node j
  { a with deps := (n, m) :: a.deps }

/-- The nodes that `n` depends on. -/
def sources (a : Marking) (n : Nat) : List Nat := (a.deps.filter (·.1 == n)).map (·.2)

/-- The nodes that depend on `n`. -/
def dependents (a : Marking) (n : Nat) : List Nat := (a.deps.filter (·.2 == n)).map (·.1)

/-- The mark of a node. -/
def mark (a : Marking) (n : Nat) : Bool := a.marks.getD n false

/-- The mark of a node, joined with those of the nodes it depends on while there is none in
its place, is put back.  Tells whether it has changed. -/
def visit (a : Marking) (n : Nat) : Bool × Marking :=
  let without := { a with marks := a.marks.set n false }
  let (changed, mark) := (without.sources n).foldl (fun (changed, mark) m =>
    (changed || (join mark (without.mark m)).1, (join mark (without.mark m)).2)) (false, a.mark n)
  (changed, { without with marks := without.marks.set n mark })

/-- Visits the nodes of the agenda, `bound` at most. -/
def visitAll : (bound : Nat) → Agenda Nat → Marking → Marking
  | 0, _, a => a
  | bound + 1, q, a =>
    match q.pop? with
    | none => a
    | some (n, q) =>
      let (changed, a) := a.visit n
      visitAll bound (if changed then q.insertAll (a.dependents n) else q) a

/-- Solves the dependencies.  A mark changes once at most, so no more nodes have to be visited than
there are, and one more for each dependency. -/
def solve (a : Marking) : Marking :=
  visitAll (a.marks.length + a.deps.length) (Agenda.empty.insertAll (List.range a.marks.length)) a

/-- The mark of a key. -/
def get (a : Marking) (k : Nat) : Option Bool := (a.nodes k).map a.mark

end Marking

namespace Program

/-- Each routine depends on those it calls, and is marked if it makes a dynamic call. -/
def marking (p : Program) : Marking :=
  p.routines.foldl (fun a r => (p.calls.outOf r.id).foldl (fun a e => a.addDep r.id e.callee)
    (a.addSource r.id r.flags.dynamicCall)) {}

/-- Marks the routines from which a dynamic call can be reached. -/
def forwardDynamic (p : Program) : Program :=
  let solved := p.marking.solve
  { p with routines := p.routines.map fun r =>
      if (solved.get r.id).getD false then
        { r with flags := r.flags ∪ { callsDynamic := true } } else r }

end Program
end ShapeFlow
