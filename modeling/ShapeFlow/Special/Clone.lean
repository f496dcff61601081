/-
# Specialization

After a round of analysis, strategies propose narrower parameters for the
routines.  An accepted tuple becomes a clone: an overload whose parameters are
fixed to it, to which calls with fitting arguments are then bound.

Key definitions: `accepts`, `Routine.eligible`, `Program.specialize`.
-/
import ShapeFlow.Config
import ShapeFlow.Special.Candidates
import ShapeFlow.Special.Strategy

namespace ShapeFlow

/-- Whether `tuple` may take the place of the parameters `base`: it widens none
and narrows one that may be anything to something definite. -/
def accepts (base tuple : Tuple) : Bool :=
  base.length == tuple.length && (tuple.zip base).all (fun (t, b) => t ⊆ b) &&
    (tuple.zip base).any fun (t, b) => b.isAny && !t.isAny && !t.isVoid

/-- The strategies a configuration asks for. -/
def Config.builtin (c : Config) : List Strategy :=
  (if c.strategies.calls then [Strategy.byCalls] else []) ++
  (if c.strategies.usage then [Strategy.byUsage c.maxClasses] else []) ++
  (if c.strategies.texts then [Strategy.byTexts] else []) ++
  (if c.strategies.docs then [Strategy.byDocs] else [])

namespace Routine

/-- The routine may be cloned.  One that makes dynamic calls must keep its
parameters as they are. -/
def eligible (c : Config) (r : Routine) : Bool :=
  !r.params.isEmpty && (r.origin.isNone || c.incremental) && !r.flags.dynamicCall &&
    r.applied.length < c.maxClones

/-- The first candidate that is acceptable and has not been applied. -/
def choice? (r : Routine) : Option Tuple :=
  r.candidates.find? fun t => accepts r.paramTypes t && !r.applied.contains t

end Routine

namespace Program

/-- What the strategies propose for a routine, in order. -/
def gather (strategies : List Strategy) (p : Program) (r : Routine) (t : ShapeTable) :
    Except Fault (List Tuple × ShapeTable) := do
  let (set, t) ← strategies.foldlM (fun (set, t) s =>
    let (tuples, t) := (s p r).run t
    match Candidates.insertAll set t tuples with
    | some set => .ok (set, t)
    | none => .error .unknownShape) (Candidates.empty, t)
  return (set.toList, t)

/-- What the strategies propose for each of the routines; all of them look at
the same program. -/
def gatherAll (strategies : List Strategy) (p : Program) :
    List Routine → ShapeTable → Except Fault (List (Nat × List Tuple) × ShapeTable)
  | [], t => return ([], t)
  | r :: rs, t => do
    let (set, t) ← p.gather strategies r t
    let (sets, t) ← gatherAll strategies p rs t
    return ((r.id, set) :: sets, t)

/-- Clones a routine for a tuple.  Blocks that call the routine bind their calls
again. -/
def applyClone (p : Program) (r : Routine) (tuple : Tuple) : Except Fault Program := do
  let id := p.size
  let p := p.addClone r tuple
  let p := p.update r.id fun r => { r with applied := r.applied ++ [tuple] }
  let p ← match p.routines[id]? with
    | some clone => do
      let (_, clone) ← clone.seed
      pure (p.update id fun _ => clone)
    | none => pure p
  return p.requeueCallers r.id

/-- Takes over what was proposed and makes the clones accepted from it.  Gives
the number of clones. -/
def applyAll : List (Nat × List Tuple) → Program → Except Fault (Nat × Program)
  | [], p => return (0, p)
  | (id, set) :: sets, p => do
    let p := p.update id fun r => { r with candidates := set }
    match p.routines[id]? >>= fun r => r.choice?.map (r, ·) with
    | some (r, tuple) =>
      let p ← p.applyClone r tuple
      let (n, p) ← applyAll sets p
      return (n + 1, p)
    | none => applyAll sets p

/-- The routines that may be cloned. -/
def eligible (c : Config) (p : Program) : List Routine := p.routines.filter (·.eligible c)

/-- Gathers proposals for all routines and makes clones.  Gives the number of
clones. -/
def specialize (c : Config) (strategies : List Strategy) (p : Program) :
    Except Fault (Nat × Program) := do
  if strategies.isEmpty then return (0, p)
  let (sets, table) ← p.gatherAll strategies (p.eligible c) p.table
  applyAll sets { p with table }

end Program
end ShapeFlow
