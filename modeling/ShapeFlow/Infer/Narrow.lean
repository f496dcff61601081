/-
# What a condition tells

A condition that came out true, or false, says something about the variables
it tests.  `narrow` changes the current state accordingly.
-/
import ShapeFlow.Infer.Walk

namespace ShapeFlow
namespace Infer

open ShapeFlow.Flow

/-- Under which outcome a condition is looked at. -/
inductive Branch where
  /-- Whatever it comes out. -/
  | either
  | holds
  | fails
deriving DecidableEq, Inhabited

def Branch.negate : Branch → Branch
  | either => either
  | holds => fails
  | fails => holds

/-- A test of a variable for a kind came out as `outcome`. -/
def narrowByKind (var : Nat) (kind : Kind) (outcome : Bool) : Walk Unit := do
  let t ← getTable
  if outcome then
    modifyState fun s =>
      let found := t.restrict (current s var) kind
      let found := if found.isVoid || found.isAny then kind.representative else found
      if kind = .null then s.narrow var found else s.assign var found
  else if kind = .null then
    assumeNotNull var
  else
    modifyState fun s => s.narrow var ((current s var).remove (t.ofKind kind))

/-- A comparison of a variable with null by `op` came out as `outcome`.  Loose
equality with null also holds of false, zero and what is empty. -/
def narrowByNull (var : Nat) (op : BinOp) (outcome : Bool) : Walk Unit :=
  match op, outcome with
  | .identical, true | .notIdentical, false => modifyState (·.narrow var .null)
  | .identical, false | .notIdentical, true | .eq, false | .notEq, true => assumeNotNull var
  | _, _ => pure ()

/-- The operand `low` came out smaller than `high`: a variable below an integer is below
the largest one, a variable above an integer is above the smallest one. -/
def narrowByOrder (low high : Expr Nat) : Walk Unit := do
  if (← getTable).isKind (← recordedTypes high.tag) .int then
    if let some var ← varOf? low then
      modifyState (·.addNote ⟨var, .belowMax⟩)
  if (← getTable).isKind (← recordedTypes low.tag) .int then
    if let some var ← varOf? high then
      modifyState (·.addNote ⟨var, .aboveMin⟩)

/-- The variable compared with null, if exactly one operand is null. -/
def comparedWithNull (l r : Expr Nat) : Walk (Option Nat) :=
  match l.isNull, r.isNull with
  | false, true => varOf? l
  | true, false => varOf? r
  | _, _ => return none

/-- What follows for the variables if `e` came out as `outcome`. -/
def narrow (e : Expr Nat) (outcome : Bool) : Walk Unit :=
  match e, outcome with
  -- what counts as true is not null
  | .var .., true => do
    if let some var ← varOf? e then assumeNotNull var
  | .assign _ target _, true => do
    if let some var ← varOf? target then assumeNotNull var
  | .isset _ operands, true =>
    operands.forM fun v => do
      if let some var ← varOf? v then assumeNotNull var
  | .isset _ [v], false => do
    if let some var ← varOf? v then modifyState (·.narrow var .null)
  | .call _ name [arg], outcome => do
    if let some kind := Library.checks? name then
      if let some var ← varOf? arg then narrowByKind var kind outcome
  | .instanceOf _ operand className, true => do
    if let some var ← varOf? operand then
      let s ← intern (·.named className)
      modifyState (·.assign var s)
  | .binary _ .lt l r, true => narrowByOrder l r
  | .binary _ .gt l r, true => narrowByOrder r l
  | .binary _ op l r, outcome => do
    if op = .identical || op = .notIdentical || op = .eq || op = .notEq then
      if let some var ← comparedWithNull l r then narrowByNull var op outcome
  | _, _ => pure ()

/-- Narrows by an outcome, if one is given. -/
def narrowTo (e : Expr Nat) : Branch → Walk Unit
  | .either => pure ()
  | .holds => narrow e true
  | .fails => narrow e false

end Infer
end ShapeFlow
