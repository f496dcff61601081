/-
# Texts for logs

How the values of the analysis are written when someone has to read them.
-/
import ShapeFlow.Call.Graph
import ShapeFlow.Config
import ShapeFlow.Routine
import ShapeFlow.Text.Quoted

namespace ShapeFlow

open Text

/-- The word of a set in hexadecimal. -/
def TypeSet.hex (s : TypeSet) : String := "0x" ++ Text.hex s.word

/-- The bits of a set. -/
def VarSet.hex (s : VarSet) : String := "0x" ++ Text.hex s.bits.toNat

def TypeSet.log (s : TypeSet) : String :=
  let body :=
    if s.isAny then (if s.byRef then "any, ref" else "any")
    else s.hex
  "TypeRefMask(" ++ body ++ ")"

def Kind.name : Kind → String
  | null => "Null"
  | bool => "Bool"
  | int => "Long"
  | float => "Double"
  | string => "String"
  | numeric => "Numeric"
  | array => "Array"
  | object => "Object"
  | closure => "Closure"
  | resource => "Resource"

def Shape.log : Shape → String
  | null => "Null"
  | bool => "Bool"
  | int => "Long"
  | float => "Double"
  | number => "Number"
  | string => "String"
  | array elems => "Array(" ++ elems.log ++ ")"
  | object => "Object"
  | named name => "Class(" ++ quoted name ++ ")"
  | closure => "Closure"
  | resource => "Resource"

/-- Texts between brackets, separated by commas. -/
def Text.listed (l : List String) : String := "[" ++ ", ".intercalate l ++ "]"

def ShapeTable.log (t : ShapeTable) : String :=
  "TypeRefContext(" ++ listed (t.shapes.map Shape.log) ++ ")"

def Flow.Limit.name : Flow.Limit → String
  | belowMax => "LessThanLongMax"
  | aboveMin => "GreaterThanLongMin"

def Label.name : Label → String
  | always => "Always"
  | onTrue => "OnTrue"
  | onFalse => "OnFalse"

def CallChange.name : CallChange → String
  | new => "New"
  | widened => "Widened"
  | unchanged => "Unchanged"

def Status.name : Status → String
  | unanalyzed => "Unanalyzed"
  | analyzing => "Analyzing"
  | stable => "Stable"
  | invalidated => "Invalidated"

namespace Flags

/-- The names of the flags that are set. -/
def names (f : Flags) : List String :=
  (if f.dynamicCall then ["HAS_DYNAMIC_CALL"] else []) ++
  (if f.statics then ["HAS_STATIC_VARS"] else []) ++
  (if f.globals then ["HAS_GLOBALS"] else []) ++
  (if f.callsDynamic then ["CALLS_DYNAMIC"] else [])

def log (f : Flags) : String := "RoutineFlags(" ++ "|".intercalate f.names ++ ")"

end Flags

/-- A record with its fields. -/
def Text.fields (name : String) (l : List (String × String)) : String :=
  name ++ " \x7b " ++ ", ".intercalate (l.map fun (k, v) => k ++ ": " ++ v) ++ " \x7d"

/-- A value that may be missing. -/
def Text.optional (v : Option String) : String :=
  match v with
  | some v => "Some(" ++ v ++ ")"
  | none => "None"

def Text.flag (b : Bool) : String := if b then "true" else "false"

/-- The number of a routine. -/
def Text.routineId (id : Nat) : String := "RoutineId(" ++ id.repr ++ ")"

def StrategyChoice.log (s : StrategyChoice) : String :=
  fields "SpecializerKinds"
    [("call_site", flag s.calls), ("usage", flag s.usage), ("targeted", flag s.texts),
      ("phpdoc", flag s.docs)]

def Config.log (c : Config) : String :=
  fields "AnalysisConfig"
    [("max_iterations", c.maxIterations.repr), ("parallel", flag c.parallel),
      ("num_workers", c.workers.repr), ("incremental_specialization", flag c.incremental),
      ("max_specializations_per_routine", c.maxClones.repr),
      ("specializers", c.strategies.log), ("max_class_candidates", c.maxClasses.repr)]

def Routine.log (r : Routine) : String :=
  fields "Routine"
    [("id", routineId r.id), ("name", quoted r.name),
      ("origin", optional (r.origin.map routineId)),
      ("specialization", optional (r.fixed.map fun t => listed (t.map TypeSet.log))),
      ("status", r.status.name), ("flags", r.flags.log)]

/-- What an expression is, without its operands. -/
def Expr.label {α : Type} : Expr α → String
  | .lit _ .null => "null"
  | .lit _ .bool => "bool"
  | .lit _ .int => "int"
  | .lit _ .float => "float"
  | .lit _ .string => "str"
  | .var _ name => "var " ++ name
  | .assign .. => "assign"
  | .update _ op _ _ => "opassign " ++ op.name
  | .step _ op _ =>
    "incdec " ++ op.name ++ (if op.isUp then " +" else " -") ++
      (if op.givesNew then " prefix" else " postfix")
  | .binary _ op _ _ => "bin " ++ op.name ++ (if op.isComparison then " comparison" else "")
  | .unary _ op _ => "un " ++ op.name
  | .cast _ kind _ => "cast " ++ kind.name
  | .choose .. | .orElse .. => "cond"
  | .call _ name _ => "call " ++ name
  | .method _ _ name _ => "mcall " ++ name
  | .new _ className _ => "new " ++ className
  | .field _ _ name => "field " ++ name
  | .item .. | .append .. => "item"
  | .array .. => "array"
  | .instanceOf _ _ className => "instanceof " ++ className
  | .isset .. => "isset"
  | .concat .. => "concat"

end ShapeFlow
