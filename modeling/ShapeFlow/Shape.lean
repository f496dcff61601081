/-
# Shapes

A shape is one way a value can look at run time: a primitive, an array whose
elements have given types, an object of unknown or of named class.  Kinds are
the coarser classes that the typing rules ask about.
-/
import ShapeFlow.TypeSet

namespace ShapeFlow

/-- One run-time form of a value. -/
inductive Shape where
  | null
  | bool
  | int
  | float
  /-- An integer that may have been promoted on overflow. -/
  | number
  | string
  /-- An array whose values are described by `elems`. -/
  | array (elems : TypeSet)
  /-- An object of unknown class. -/
  | object
  /-- An object of the class `name`. -/
  | named (name : String)
  | closure
  | resource
deriving DecidableEq, Inhabited

namespace Shape

def isArray : Shape → Bool
  | array _ => true
  | _ => false

/-- Objects, of known class or not, and closures. -/
def isObject : Shape → Bool
  | object | named _ | closure => true
  | _ => false

/-- What reading an element of such a value gives: strings hold strings, and
what has no elements reads as null. -/
def element : Shape → TypeSet
  | array elems => elems
  | string => .string
  | _ => .null

/-- The types of the elements; none unless the shape is an array. -/
def elements : Shape → TypeSet
  | array elems => elems
  | _ => .void

end Shape

/-- The classes of shapes that the typing rules tell apart. -/
inductive Kind where
  | null
  | bool
  | int
  | float
  | string
  /-- Integers, floats and promoted integers. -/
  | numeric
  | array
  | object
  | closure
  | resource
deriving DecidableEq, Inhabited

namespace Kind

/-- The widest set of this kind that does not depend on which shapes are known. -/
def representative : Kind → TypeSet
  | null => .null
  | bool => .bool
  | int => .int
  | float => .float
  | string => .string
  | numeric => .numbers
  | array => .array
  | object => .object
  | closure => .closure
  | resource => .resource

end Kind
end ShapeFlow
