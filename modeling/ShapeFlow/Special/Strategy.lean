/-
# Strategies

A strategy looks at the evidence about a routine and proposes tuples of types
to fix its parameters to.  Proposals may need new shapes.  Only parameters that
may be anything are worth fixing.
-/
import ShapeFlow.Program
import ShapeFlow.Special.Usage

namespace ShapeFlow

/-- Proposes tuples for a routine of a program. -/
abbrev Strategy := Program → Routine → StateM ShapeTable (List Tuple)

namespace Strategy

/-- The parameters `base` with the evidence in place of those that may be
anything. -/
def refine : Tuple → List (Option TypeSet) → Tuple
  | b :: base, e :: evidence =>
    let b := match e with
      | some e => if b.isAny && !e.isAny && !e.isVoid then e.plain else b
      | none => b
    b :: refine base evidence
  | base, _ => base

/-- The refined parameters, if the evidence changed any. -/
def refine? (base : Tuple) (evidence : List (Option TypeSet)) : Option Tuple :=
  let new := refine base evidence
  if new = base then none else some new

/-- One tuple for each call, from the types of its arguments. -/
def byCalls : Strategy := fun p r =>
  pure ((p.calls.into r.id).filterMap fun e => refine? r.paramTypes (e.argTypes.map some))

/-- One tuple from the way the body uses the parameters. -/
def byUsage (maxClasses : Nat) : Strategy := fun p r => do
  let uses := r.usages
  let proposed ← (List.range r.params.length).mapM fun i =>
    let own := (uses.filter (·.1 == i)).map (·.2)
    (own.foldl (Evidence.add p.directory) {}).proposal maxClasses
  return (refine? r.paramTypes proposed).toList

/-- Strings for the parameters that the body takes for texts and that some call
gives a string. -/
def byTexts : Strategy := fun p r => do
  let texts := (r.usages.filter fun (_, u) => u == .text || u == .tested .string).map (·.1)
  let proposed := (List.range r.paramTypes.length).map fun i =>
    if texts.contains i &&
        (p.calls.into r.id).any (fun e => e.argTypes[i]?.any (·.plain == .string))
    then some TypeSet.string else none
  return (refine? r.paramTypes proposed).toList

/-- One tuple from the documented types. -/
def byDocs : Strategy := fun _ r =>
  pure (refine? r.paramTypes (r.params.map (·.doc))).toList

/-- Given tuples, for the routines of a given name. -/
def proposing (name : String) (tuples : List (List Hint)) : Strategy := fun _ r =>
  if r.name = name then tuples.mapM Hint.tuple else pure []

/-- Looks on and proposes nothing. -/
def silent : Strategy := fun _ _ => pure []

end Strategy
end ShapeFlow
