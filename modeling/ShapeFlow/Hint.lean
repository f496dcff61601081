/-
# Type hints

A hint is a type as a programmer writes it, on a parameter or in a comment.
Reading one may make new shapes.
-/
import ShapeFlow.ShapeTable

namespace ShapeFlow

/-- A written type. -/
inductive Hint where
  | mixed
  | null
  | bool
  | int
  | float
  | string
  | array
  | arrayOf (elem : Hint)
  | object
  | callable
  | named (name : String)
  | nullable (inner : Hint)
  | union (parts : List Hint)
deriving Inhabited

mutual

/-- The types a hint stands for. -/
def Hint.types : Hint → StateM ShapeTable TypeSet
  | .mixed => pure .any
  | .null => pure .null
  | .bool => pure .bool
  | .int => pure .int
  | .float => pure .float
  | .string => pure .string
  | .array => pure .array
  | .arrayOf elem => do
    let s ← elem.types
    modifyGet fun t => t.arrayOf s
  | .object => pure .object
  | .callable => pure (.closure ∪ .string ∪ .array)
  | .named name => modifyGet fun t => t.named name
  | .nullable inner => return (← inner.types) ∪ .null
  | .union parts => Hint.typesOfAny parts

/-- The types of all of the hints together, read from left to right. -/
def Hint.typesOfAny : List Hint → StateM ShapeTable TypeSet
  | [] => pure .void
  | h :: hs => do
    let s ← h.types
    return s ∪ (← Hint.typesOfAny hs)

end

/-- The types of each hint, read from left to right. -/
def Hint.tuple (hints : List Hint) : StateM ShapeTable (List TypeSet) :=
  hints.mapM Hint.types

end ShapeFlow
