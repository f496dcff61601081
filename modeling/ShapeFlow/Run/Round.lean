/-
# Rounds

A round drains every routine that has pending blocks, in order of id, against
the signatures as they were when the round began.  Only when all are drained
does what they found out about each other take effect: arguments flow into the
callees, and callers of a routine that now returns more look again.  Rounds go
on until nothing is pending.

Key definitions: `Program.round`, `Program.settle`, `Program.roundBound`.
-/
import ShapeFlow.Infer.Drain
import ShapeFlow.Program

namespace ShapeFlow

open ShapeFlow.Flow Infer

/-- A change of a program.  One that fails keeps what it has done so far. -/
abbrev Run := EStateM Fault Program

/-- What draining some routines came to. -/
structure Drained where
  routines : List Routine
  table : ShapeTable
  calls : CallGraph
  /-- The calls made, or the first fault. -/
  reports : Except Fault (List (Nat × Tuple))

namespace Program

/-- Drains one routine. -/
def drainOne (p : Program) (sigs : List Signature) (table : ShapeTable) (calls : CallGraph)
    (r : Routine) : Drained :=
  let c (block : Nat) : Setting :=
    { directory := p.directory, resolver := p.resolver, signatures := sigs, block }
  let w : Walker :=
    { table, calls, routine := { r with status := .analyzing }, state := .start r.scope }
  match drain c r.stepBound w with
  | .ok _ w => ⟨[w.routine], w.table, w.calls, .ok w.reports.toList⟩
  | .error f w => ⟨[w.routine], w.table, w.calls, .error f⟩

/-- Drains those of the routines that have pending blocks, even after a fault. -/
def drainAll (p : Program) (sigs : List Signature) :
    List Routine → ShapeTable → CallGraph → Drained
  | [], table, calls => ⟨[], table, calls, .ok []⟩
  | r :: rs, table, calls =>
    if r.isPending then
      let one := p.drainOne sigs table calls r
      let rest := p.drainAll sigs rs one.table one.calls
      { rest with
        routines := one.routines ++ rest.routines
        reports := do return (← one.reports) ++ (← rest.reports) }
    else
      let rest := p.drainAll sigs rs table calls
      { rest with routines := r :: rest.routines }

/-- Takes a call into account: the callee has been given these arguments.  If
all its callers are known, it is entered with them too. -/
def report (callee : Nat) (args : Tuple) : Run Unit := do
  let p ← get
  match p.routines[callee]? with
  | none => throw (.unknownRoutine callee)
  | some r =>
    let seen := Routine.observe r.observed args
    if seen != r.observed then
      let r := { r with observed := seen }
      set (p.update callee fun _ => r)
      if !r.exported && r.fixed.isNone then
        match r.seed with
        | .ok (_, r) => modify fun p => p.update callee fun _ => r
        | .error f => throw f

/-- Has the callers of a routine look again, if it returns more than `sig` says. -/
def notifyCallers (p : Program) (sig : Signature) : Program :=
  if p.routines[sig.id]?.any (·.scope.returns != sig.returns) then
    (p.calls.into sig.id).foldl (fun p e => p.update e.caller (·.queue e.block)) p
  else p

/-- One round. -/
def round : Run Unit := do
  let p ← get
  let sigs := p.signatures
  let d := p.drainAll sigs p.routines p.table p.calls
  set { p with routines := d.routines, table := d.table, calls := d.calls }
  match d.reports with
  | .error f => throw f
  | .ok reports =>
    reports.forM fun (callee, args) => report callee args
    modify fun p => sigs.foldl notifyCallers p

/-- Some routine has pending blocks. -/
def isPending (p : Program) : Bool := p.routines.any (·.isPending)

/-- How often the entry states of the routines, and what they return, can grow. -/
def entryGrowth : List Routine → Nat
  | [] => 0
  | r :: rs => State.growth r.scope.size + 65 + entryGrowth rs

/-- How many rounds there are at most.  After a round, blocks are pending only
if the entry state of some routine grew, or what it returns. -/
def roundBound (p : Program) : Nat := entryGrowth p.routines + 1

/-- Rounds until nothing is pending, `bound` of them at most. -/
def rounds : (bound : Nat) → Run Unit
  | 0 => do
    if (← get).isPending then throw .stepBoundReached
  | bound + 1 => do
    if (← get).isPending then
      round
      rounds bound

/-- Rounds until nothing is pending. -/
def settle : Run Unit := do rounds (← get).roundBound

end Program
end ShapeFlow
