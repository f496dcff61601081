/-
# The types operators give

What an operator gives depends on the types of its operands only.  Arithmetic
stays exact where the kinds of both operands are certain, and otherwise gives
any number.
-/
import ShapeFlow.Lang.Operator
import ShapeFlow.ShapeTable

namespace ShapeFlow
namespace ShapeTable

/-- Arithmetic on two numbers: a float if one certainly is. -/
def arithmetic (l r : TypeSet) : TypeSet :=
  if l == .float || r == .float then .float else .numbers

/-- Both operands are certainly of the kind. -/
def bothKind (t : ShapeTable) (l r : TypeSet) (k : Kind) : Bool := t.isKind l k && t.isKind r k

/-- What a binary operator gives on operands of the given types. -/
def binaryTypes (t : ShapeTable) (op : BinOp) (left right : TypeSet) : TypeSet :=
  let l := left.plain
  let r := right.plain
  match op with
  | .add =>
    -- adding arrays unites them
    if t.bothKind l r .array then l ∪ r
    else if t.bothKind l r .numeric then arithmetic l r
    else if l.isAny || r.isAny then .numbers ∪ .array
    else .numbers
  | .sub | .mul | .div | .pow =>
    if t.bothKind l r .numeric then arithmetic l r else .numbers
  | .mod | .shl | .shr => .int
  | .bitAnd | .bitOr | .bitXor => if t.bothKind l r .string then .string else .int
  | .concat => .string
  | .and | .or | .xor | .eq | .notEq | .identical | .notIdentical | .lt | .le | .gt | .ge => .bool
  | .coalesce => l.remove .null ∪ r

/-- What a unary operator gives. -/
def unaryTypes (t : ShapeTable) (op : UnOp) (s : TypeSet) : TypeSet :=
  match op with
  | .not => .bool
  | .neg | .plus => if s == .float then .float else .numbers
  | .bitNot => if t.isKind s .string then .string else .int
  | .silence => s

/-- What a conversion gives. -/
def castTypes (t : ShapeTable) (kind : Cast) (s : TypeSet) : TypeSet :=
  match kind with
  | .int => .int
  | .float => .float
  | .bool => .bool
  | .string => .string
  | .array => if t.isKind s .array then s else .array
  | .object => if t.isKind s .object then s else .object
  | .unset => .null

/-- What a step gives a variable of types `s`: an integer stays one only if it
is known that the step cannot overflow. -/
def stepTypes (s : TypeSet) (cannotOverflow : Bool) : TypeSet :=
  if s == .float then .float
  else if cannotOverflow then .int
  else .numbers

/-- The types of `s` after a `value` has been stored into one of its elements.
Strings and objects keep their shape, anything else becomes an array. -/
def updated (t : ShapeTable) (s value : TypeSet) : Option (TypeSet × ShapeTable) :=
  if s.isAny then some (.any, t)
  else do
    let elems ← t.elements (t.restrict s .array)
    let (arrays, t) := t.arrayOf (elems ∪ value)
    let strings := if t.canBe s .string then TypeSet.string else .void
    return (arrays ∪ strings ∪ t.restrict s .object, t)

end ShapeTable
end ShapeFlow
