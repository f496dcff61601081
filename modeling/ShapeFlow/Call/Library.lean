/-
# Library functions

The functions outside the program whose results are known.  Names are looked up
in lower case.
-/
import ShapeFlow.Shape

namespace ShapeFlow

/-- What is known of a library function. -/
structure LibraryFunction where
  returns : TypeSet
  /-- A test of its argument's kind, which tells the branches apart. -/
  checks : Option Kind := none
  /-- It looks into its caller's variables, or calls back into any code. -/
  dynamic : Bool := false
deriving DecidableEq, Inhabited

namespace Library

/-- A function that gives `returns`. -/
def giving (returns : TypeSet) : LibraryFunction := { returns }

/-- A test for `kind`. -/
def testing (kind : Kind) : LibraryFunction := { returns := .bool, checks := some kind }

/-- A dynamic function that gives `returns`. -/
def dynamic (returns : TypeSet) : LibraryFunction := { returns, dynamic := true }

/-- All library functions, by lower-case name. -/
def all : List (String × LibraryFunction) := [
  ("is_int", testing .int),
  ("is_integer", testing .int),
  ("is_long", testing .int),
  ("is_float", testing .float),
  ("is_double", testing .float),
  ("is_string", testing .string),
  ("is_bool", testing .bool),
  ("is_array", testing .array),
  ("is_object", testing .object),
  ("is_null", testing .null),
  ("is_numeric", giving .bool),
  ("strlen", giving .int),
  ("count", giving .int),
  ("intval", giving .int),
  ("ord", giving .int),
  ("floatval", giving .float),
  ("sqrt", giving .float),
  ("abs", giving .numbers),
  ("strval", giving .string),
  ("substr", giving .string),
  ("str_repeat", giving .string),
  ("strtolower", giving .string),
  ("strtoupper", giving .string),
  ("trim", giving .string),
  ("implode", giving .string),
  ("sprintf", giving .string),
  ("chr", giving .string),
  ("explode", giving .array),
  ("array_keys", giving .array),
  ("array_values", giving .array),
  ("in_array", giving .bool),
  ("func_get_args", dynamic .array),
  ("func_num_args", dynamic .int),
  ("compact", dynamic .array),
  ("extract", dynamic .int),
  ("get_defined_vars", dynamic .array),
  ("call_user_func", dynamic .any),
  ("call_user_func_array", dynamic .any)]

/-- The library function of a name, in any case. -/
def find? (name : String) : Option LibraryFunction := all.lookup name.toLower

/-- The kind a library function tests for. -/
def checks? (name : String) : Option Kind := find? name >>= (·.checks)

end Library
end ShapeFlow
