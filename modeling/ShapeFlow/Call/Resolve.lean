/-
# Overload resolution

A call names a routine; several may go by the name.  A resolver picks among
their signatures by the types of the arguments.  The rule used unless told
otherwise is `Resolver.mostSpecific`: of the candidates that apply, the one
that is at least as specific as every other, if there is exactly one.
-/
import ShapeFlow.Sorted
import ShapeFlow.TypeSet

namespace ShapeFlow

/-- What a call is bound to. -/
inductive Target where
  | resolved (id : Nat)
  /-- Several candidates remain; the choice is made at run time. -/
  | ambiguous (ids : List Nat)
  | library (name : String)
  /-- Nothing of that name is known. -/
  | unresolved
deriving DecidableEq, Inhabited

/-- The routines that a call may reach. -/
def Target.callees : Target → List Nat
  | resolved id => [id]
  | ambiguous ids => ids
  | library _ | unresolved => []

/-- What a caller needs to know of a routine. -/
structure Signature where
  id : Nat
  /-- The types its parameters are declared with, or fixed to. -/
  params : List TypeSet
  byRef : List Bool := []
  /-- How many parameters have no default. -/
  required : Nat
  returns : TypeSet := .void
deriving DecidableEq, Inhabited

namespace Signature

/-- Parameter `i` is by reference. -/
def isByRef (s : Signature) (i : Nat) : Bool := s.byRef.getD i false

/-- Enough arguments are given and each fits its parameter. -/
def applies (s : Signature) (args : List TypeSet) : Bool :=
  s.required ≤ args.length && (s.params.zip args).all fun (p, a) => a ⊆ p

/-- Each parameter fits the other's, as far as both have one. -/
def atLeastAsSpecific (l r : Signature) : Bool :=
  (l.params.zip r.params).all fun (p, q) => p ⊆ q

end Signature

/-- Picks the target of a call from the candidates and the argument types. -/
abbrev Resolver := List Signature → List TypeSet → Target

/-- The most specific candidate that applies.  A lone candidate is taken as it
is: there is nothing else to call. -/
def Resolver.mostSpecific : Resolver
  | [], _ => .unresolved
  | [only], _ => .resolved only.id
  | cands, args =>
    let applicable := cands.filter (·.applies args)
    match applicable.filter fun l => applicable.all l.atLeastAsSpecific with
    | [best] => .resolved best.id
    | _ =>
      let left := if applicable.isEmpty then cands else applicable
      .ambiguous (Sorted.sort (left.map (·.id)))

end ShapeFlow
