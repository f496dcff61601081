/-
# Blocks

A block is gone through from the state it is entered in.  On the way out, the
types its variables have are added to what is known throughout the routine, and
its states are joined into the inputs of its successors, which are queued if
that changes them.
-/
import ShapeFlow.Infer.Expr

namespace ShapeFlow
namespace Infer

open ShapeFlow.Flow

/-- Goes through an operation. -/
def op (c : Setting) : Op Nat → Walk Unit
  | .eval e => discard (e.meaning c).value
  | .static name init => do
    addFlags { statics := true }
    let var ← useVar name
    let first ← match init with
      | some e => (e.meaning c).value
      | none => pure .null
    modifyRoutine fun r => { r with sites := (var, c.block) :: r.sites.filter (·.1 != var) }
    -- an earlier call may have left whatever the routine gives the variable
    let held ← ofExcept ((← getRoutine).scope.get var)
    let all := first ∪ held.types.plain
    if ← updateScope (·.addKept var all) then
      queue Graph.entry
      queue c.block
    let kept := ((← getRoutine).scope.kept? var).getD all
    modifyState (·.assign var kept)
  | .global names => do
    addFlags { globals := true }
    names.forM fun name => do
      let var ← useVar name
      markAliased var
      modifyState (·.assign var .any)
  | .unset names =>
    names.forM fun name => do
      let var ← useVar name
      modifyState (·.unset var)

/-- Adds the types of the variables in `s` to those they have throughout the
routine.  A static variable that grew is declared anew. -/
def commit (s : State) : Walk Unit :=
  s.entries.forM fun (var, types) => do
    let r ← getRoutine
    let types := if r.scope.isAliased var then types.withRef else types
    if ← updateScope (·.addTypes var types) then
      if let some block := r.sites.lookup var then
        queue block
        queue Graph.entry

/-- Joins a state into the input of a block. -/
def flowInto (block : Nat) (s : State) : Walk Unit := do
  let (_, r) ← ofExcept ((← getRoutine).flowInto block s)
  modifyRoutine fun _ => r

/-- Hands the states on to the successors: `no` along the edges for a false
outcome, `yes` along the others. -/
def propagate (c : Setting) (yes no : State) : Walk Unit := do
  ((← getRoutine).graph.succs c.block).forM fun (block, label) =>
    flowInto block (if label = .onFalse then no else yes)

/-- The types of the elements that a loop over `s` sees.  Objects decide for
themselves what they hand out. -/
def loopTypes (s : TypeSet) : Walk TypeSet := do
  let t ← getTable
  if s.isAny || t.canBe s .object then return .any else elementOf (t.restrict s .array)

/-- Leaves a block. -/
def exit (c : Setting) : Exit Nat → Walk Unit
  | .fall => do
    let s ← getState
    commit s
    propagate c s s
  | .branch cond => do
    let (yes, no) ← (cond.meaning c).branchStates
    commit yes
    commit no
    propagate c yes no
  | .each source key value => do
    let s ← (source.meaning c).value
    let elem ← loopTypes s
    let done ← getState
    let next ← match key with
      | some k => do
        let var ← useVar k
        pure (done.assign var (.int ∪ .string))
      | none => pure done
    let var ← useVar value
    let next := next.assign var elem
    commit next
    commit done
    propagate c next done
  | .ret e => do
    let s ← match e with
      | some e => (e.meaning c).value
      | none => pure .null
    commit (← getState)
    modifyRoutine fun r => { r with scope := (r.scope.addReturn s.plain).2 }

/-- Goes through a block that has been reached. -/
def block (c : Setting) : Walk Unit := do
  let r ← getRoutine
  match r.input? c.block with
  | none => throw (.unreachedBlock c.block r.name)
  | some s =>
    setState s
    if let some b := r.graph.blocks[c.block]? then
      b.ops.forM (op c)
      exit c b.exit

end Infer
end ShapeFlow
