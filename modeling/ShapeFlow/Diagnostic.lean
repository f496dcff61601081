/-
# Diagnostics

What a programmer is told about a program that has been analysed: variables
that are, or may be, read before they are assigned, and calls that could not be
bound.  Clones report nothing; they share the body of their origin, which
reports for them.
-/
import ShapeFlow.Routine

namespace ShapeFlow

/-- What there is to tell. -/
inductive Concern where
  /-- The variable is read where it was never assigned. -/
  | uninitialized (name : String)
  /-- The variable is read where it need not have been assigned. -/
  | maybeUninitialized (name : String)
  | unresolvedCall (name : String)
  | ambiguousCall (name : String)
  /-- The analysis gave up. -/
  | budgetExceeded (iterations : Nat)
deriving DecidableEq, Ord, Inhabited

def Concern.message : Concern → String
  | uninitialized name => s!"variable ${name} is used before it is assigned"
  | maybeUninitialized name => s!"variable ${name} may be used before it is assigned"
  | unresolvedCall name => s!"call to undefined function {name}()"
  | ambiguousCall name => s!"call to {name}() is ambiguous; dispatch is late bound"
  | budgetExceeded n => s!"type analysis did not converge within {n} iterations"

/-- A concern and where it arises; those of the program as a whole come first. -/
structure Diagnostic where
  routine : Option Nat
  expr : Option Nat
  concern : Concern
deriving DecidableEq, Ord, Inhabited

namespace Routine

/-- What there is to tell of a variable that was read. -/
def readConcern (r : Routine) (site : ReadSite) : Option Concern :=
  if site.certainly then none
  else
    r.scope.vars[site.var]?.map fun v =>
      if site.possibly then .maybeUninitialized v.name else .uninitialized v.name

/-- What there is to tell of a call. -/
def callConcern (name : String) : Target → Option Concern
  | .unresolved => some (.unresolvedCall name)
  | .ambiguous _ => some (.ambiguousCall name)
  | _ => none

/-- What there is to tell of an expression. -/
def concerns (r : Routine) (e : Expr Nat) : List Concern :=
  match r.facts[e.tag]? with
  | none => []
  | some fact =>
    (fact.read.bind r.readConcern).toList ++
      match e with
      | .call _ name _ => (fact.target.bind (callConcern name)).toList
      | _ => []

/-- The diagnostics of a routine. -/
def diagnostics (r : Routine) : List Diagnostic :=
  if r.origin.isSome then []
  else r.graph.exprs.flatMap fun e =>
    (r.concerns e).map fun concern => { routine := some r.id, expr := some e.tag, concern }

end Routine
end ShapeFlow
