/-
# Names of types

How shapes and sets of types are written.  A set is the sorted names of its
shapes, whatever order the shapes were met in, so names also serve to put types
in an order.
-/
import ShapeFlow.ShapeTable
import ShapeFlow.Sorted

namespace ShapeFlow
namespace ShapeTable

/-- The name of a shape.  An array names its elements, down to `depth` levels
of arrays of given elements. -/
def shapeName (t : ShapeTable) : (depth : Nat) → Shape → Option String
  | _, .null => some "null"
  | _, .bool => some "bool"
  | _, .int => some "int"
  | _, .float => some "float"
  | _, .number => some "number"
  | _, .string => some "string"
  | _, .object => some "object"
  | _, .named name => some name
  | _, .closure => some "Closure"
  | _, .resource => some "resource"
  | depth, .array elems =>
    if elems.isAny then some "array"
    else if elems.isVoid then some "array<void>"
    else
      match depth with
      | 0 => none
      | depth + 1 => do
        let names ← (← t.shapesOf elems).mapM (t.shapeName depth)
        return "array<" ++ "|".intercalate (Sorted.sort names) ++ ">"

/-- The names of the shapes of a set, in order.  No chain of arrays inside
arrays is longer than the table. -/
def names (t : ShapeTable) (s : TypeSet) : Option (List String) :=
  if s.isAny then some ["mixed"]
  else do
    let names ← (← t.shapesOf s).mapM (t.shapeName t.size)
    return Sorted.sort names

/-- The named classes of a set, in order. -/
def classNames (t : ShapeTable) (s : TypeSet) : Option (List String) :=
  if s.isAny then some []
  else do
    let shapes ← t.shapesOf s
    return Sorted.sort (shapes.filterMap fun
      | .named name => some name
      | _ => none)

/-- A set as it is shown: `int|null`, or `&string` if it may be aliased. -/
def display (t : ShapeTable) (s : TypeSet) : Option String := do
  let body ← if s.isVoid then some "void" else (t.names s).map "|".intercalate
  return if s.byRef then "&" ++ body else body

end ShapeTable
end ShapeFlow
