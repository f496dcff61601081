/-
# How a routine uses its parameters

What the body of a routine does with a parameter hints at the types it expects
there: it tests for a kind, reads a member or an element, joins it to a text,
compares it with null.
-/
import ShapeFlow.Call.Directory
import ShapeFlow.Call.Library
import ShapeFlow.Routine

namespace ShapeFlow

/-- A use of a parameter that tells something about its types. -/
inductive Usage where
  | tested (kind : Kind)
  | instanceOf (className : String)
  /-- A field or method of it is used. -/
  | member (name : String)
  /-- An element of it is used. -/
  | element
  /-- It is joined to a text. -/
  | text
  | comparedWithNull
deriving DecidableEq, Inhabited

namespace Routine

/-- The position of the parameter that an expression is, if it is one. -/
def paramOf? (r : Routine) (e : Expr Nat) : Option Nat :=
  e.varName? >>= fun name => r.params.findIdx? (·.name == name)

/-- One use for each of the expressions that is a parameter. -/
def usesOf (r : Routine) (u : Usage) (es : List (Expr Nat)) : List (Nat × Usage) :=
  (es.filterMap r.paramOf?).map (·, u)

/-- What an expression itself, not its operands, does with the parameters. -/
def usesIn (r : Routine) : Expr Nat → List (Nat × Usage)
  | .call _ name [arg] =>
    match Library.checks? name with
    | some kind => r.usesOf (.tested kind) [arg]
    | none => []
  | .instanceOf _ operand className => r.usesOf (.instanceOf className) [operand]
  | .method _ object name _ | .field _ object name => r.usesOf (.member name) [object]
  | .item _ array _ | .append _ array => r.usesOf .element [array]
  | .concat _ parts => r.usesOf .text parts
  | .binary _ .concat a b | .update _ .concat a b => r.usesOf .text [a, b]
  | .binary _ .identical a b | .binary _ .notIdentical a b | .binary _ .eq a b
  | .binary _ .notEq a b =>
    match r.paramOf? a, r.paramOf? b with
    | some i, none => if b.isNull then [(i, .comparedWithNull)] else []
    | none, some i => if a.isNull then [(i, .comparedWithNull)] else []
    | _, _ => []
  | _ => []

/-- Every use of a parameter, in the order of the code. -/
def usages (r : Routine) : List (Nat × Usage) := r.graph.exprs.flatMap r.usesIn

end Routine

/-- What the uses of one parameter come to. -/
structure Evidence where
  types : TypeSet := .void
  classes : List String := []
  /-- A member is used that no declared class has. -/
  unknownMember : Bool := false

namespace Evidence

/-- Adds a use. -/
def add (d : Directory) (ev : Evidence) : Usage → Evidence
  | .tested kind => { ev with types := ev.types ∪ kind.representative }
  | .instanceOf className => { ev with classes := className :: ev.classes }
  | .member name =>
    let owners := d.classesWith name
    { ev with
      classes := owners ++ ev.classes
      unknownMember := ev.unknownMember || owners.isEmpty }
  | .element => { ev with types := ev.types ∪ .array }
  | .text => { ev with types := ev.types ∪ .string }
  | .comparedWithNull => { ev with types := ev.types ∪ .null ∪ .object }

/-- The types the uses agree with, if there are any uses.  An unknown member, or
more than `maxClasses` classes, make it an object of unknown class. -/
def proposal (ev : Evidence) (maxClasses : Nat) : StateM ShapeTable (Option TypeSet) := do
  let classes := Sorted.sortNew ev.classes
  let types ←
    if ev.unknownMember || maxClasses < classes.length then
      pure (ev.types ∪ .object)
    else
      classes.foldlM (fun s name => return s ∪ (← modifyGet fun t => t.named name)) ev.types
  return if types.isVoid then none else some types

end Evidence
end ShapeFlow
