/-
# Candidate tuples

The tuples proposed for the parameters of a routine, each once, in the order of
the names of their types.  Names do not depend on the order in which shapes were
met; only tuples of equal names are told apart by their bits.
-/
import ShapeFlow.Routine
import ShapeFlow.ShapeTable.Text

namespace ShapeFlow

/-- A proposed tuple with the names of its types. -/
structure Candidate where
  names : List (List String)
  tuple : Tuple
deriving DecidableEq, Inhabited

/-- By names first, then by bits. -/
instance : Ord Candidate := ⟨fun a b =>
  (compare a.names b.names).then (compare a.tuple b.tuple)⟩

/-- A set of candidates, in order. -/
structure Candidates where
  entries : List Candidate := []
deriving DecidableEq, Inhabited

namespace Candidates

def empty : Candidates := {}

def size (c : Candidates) : Nat := c.entries.length

/-- The tuples, in order. -/
def toList (c : Candidates) : List Tuple := c.entries.map (·.tuple)

def contains (c : Candidates) (tuple : Tuple) : Bool := c.toList.contains tuple

/-- Adds a tuple; tells whether it is new. -/
def insert (c : Candidates) (t : ShapeTable) (tuple : Tuple) : Option (Bool × Candidates) := do
  let names ← tuple.mapM t.names
  let entries := Sorted.insertNew ⟨names, tuple⟩ c.entries
  return (entries.length != c.size, ⟨entries⟩)

/-- Adds tuples one by one. -/
def insertAll (c : Candidates) (t : ShapeTable) (tuples : List Tuple) : Option Candidates :=
  tuples.foldlM (fun c tuple => (c.insert t tuple).map (·.2)) c

end Candidates
end ShapeFlow
