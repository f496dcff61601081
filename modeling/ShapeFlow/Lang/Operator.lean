/-
# Operators

The operators of the analysed language.
-/
namespace ShapeFlow

/-- An operator between two operands. -/
inductive BinOp where
  | add | sub | mul | div | mod | pow
  | concat
  | bitAnd | bitOr | bitXor | shl | shr
  | and | or | xor
  | eq | notEq | identical | notIdentical | lt | le | gt | ge
  /-- The left operand unless it is null. -/
  | coalesce
deriving DecidableEq, Inhabited

def BinOp.isComparison : BinOp → Bool
  | eq | notEq | identical | notIdentical | lt | le | gt | ge => true
  | _ => false

def BinOp.name : BinOp → String
  | add => "Add"
  | sub => "Sub"
  | mul => "Mul"
  | div => "Div"
  | mod => "Mod"
  | pow => "Pow"
  | concat => "Concat"
  | bitAnd => "BitAnd"
  | bitOr => "BitOr"
  | bitXor => "BitXor"
  | shl => "Shl"
  | shr => "Shr"
  | and => "And"
  | or => "Or"
  | xor => "Xor"
  | eq => "Eq"
  | notEq => "NotEq"
  | identical => "Identical"
  | notIdentical => "NotIdentical"
  | lt => "Lt"
  | le => "Le"
  | gt => "Gt"
  | ge => "Ge"
  | coalesce => "Coalesce"

/-- An operator on one operand. -/
inductive UnOp where
  | not
  | neg
  | plus
  | bitNot
  /-- Evaluates its operand without reporting anything. -/
  | silence
deriving DecidableEq, Inhabited

def UnOp.name : UnOp → String
  | not => "Not"
  | neg => "Neg"
  | plus => "Plus"
  | bitNot => "BitNot"
  | silence => "Silence"

/-- What a conversion makes of its operand. -/
inductive Cast where
  | int | float | bool | string | array | object
  /-- Gives null. -/
  | unset
deriving DecidableEq, Inhabited

def Cast.name : Cast → String
  | int => "Long"
  | float => "Double"
  | bool => "Bool"
  | string => "String"
  | array => "Array"
  | object => "Object"
  | unset => "Unset"

/-- Adding or subtracting one in place. -/
inductive Step where
  | preInc | postInc | preDec | postDec
deriving DecidableEq, Inhabited

/-- The step goes up. -/
def Step.isUp : Step → Bool
  | preInc | postInc => true
  | preDec | postDec => false

/-- The step gives the new value, not the old one. -/
def Step.givesNew : Step → Bool
  | preInc | preDec => true
  | postInc | postDec => false

def Step.name : Step → String
  | preInc => "PreInc"
  | postInc => "PostInc"
  | preDec => "PreDec"
  | postDec => "PostDec"

end ShapeFlow
