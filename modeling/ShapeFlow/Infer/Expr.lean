/-
# The meaning of expressions

To the analysis an expression means four things to do: find its types; find
them without reporting what may be uninitialized; go through it as a condition
that comes out a given way; store into it.  `Expr.meaning` builds the four from
those of the operands, so that each construct has one rule, whatever it is used
for.

Key definitions: `Meaning`, `Expr.meaning`.
-/
import ShapeFlow.Infer.Narrow
import ShapeFlow.Infer.Operator

namespace ShapeFlow
namespace Infer

open ShapeFlow.Flow

/-- What an expression does to a walk. -/
structure Meaning where
  /-- Evaluates it. -/
  value : Walk TypeSet
  /-- Evaluates it and reports no uninitialized variable it reads. -/
  quiet : Walk TypeSet
  /-- Goes through it as a condition; the state after it is the one in which
  the condition came out so. -/
  assume : Branch → Walk TypeSet
  /-- Stores a value of the given types into it. -/
  store : TypeSet → Walk Unit

instance : Inhabited Meaning := ⟨⟨pure .void, pure .void, fun _ => pure .void, fun _ => pure ()⟩⟩

namespace Meaning

/-- The meaning of `e`, which no value can be stored into, from the step that
finds its types.  Storing only evaluates it. -/
def ofValue (e : Expr Nat) (step : Walk TypeSet) : Meaning where
  value := recorded e.tag step
  quiet := recorded e.tag step
  assume b := recorded e.tag do
    let s ← step
    narrowTo e b
    return s
  store _ := discard (recorded e.tag step)

/-- The meaning of `e`, which is true or false by the outcome of its operands. -/
def ofCondition (e : Expr Nat) (step : Branch → Walk Unit) : Meaning :=
  let assume (b : Branch) := recorded e.tag do
    step b
    return .bool
  { value := assume .either
    quiet := assume .either
    assume
    store := fun _ => discard (assume .either) }

/-- The states in which a condition came out true and false. -/
def branchStates (m : Meaning) : Walk (State × State) := do
  let start ← getState
  let _ ← m.assume .holds
  let yes ← getState
  setState start
  let _ ← m.assume .fails
  return (yes, ← getState)

/-- Goes one way where the condition came out true and another where it came out
false. -/
def choose (cond : Meaning) (yes no : Walk TypeSet) : Walk TypeSet := do
  let (onTrue, onFalse) ← cond.branchStates
  setState onTrue
  let s ← yes
  let after ← getState
  setState onFalse
  let t ← no
  joinWith after
  return (s ∪ t).plain

/-- As in `l && r` and `l || r`.  The right operand runs only if the left one came
out as `runs`; otherwise the left one has decided, and what holds then is joined
in after. -/
def shortCircuit (runs : Branch) (l r : Meaning) (b : Branch) : Walk Unit := do
  if b = runs then
    let _ ← l.assume runs
    let _ ← r.assume b
  else
    let start ← getState
    let _ ← l.assume runs.negate
    let decided ← getState
    setState start
    let _ ← l.assume runs
    let _ ← r.assume b
    joinWith decided

/-- Evaluates `m` on the chance that it runs: what held before may still hold. -/
def maybeValue (m : Meaning) : Walk TypeSet := do
  let before ← getState
  let s ← m.value
  joinWith before
  return s

/-- Stores a value into an element of `m`.  What is not there yet becomes an
array. -/
def storeElement (m : Meaning) (value : TypeSet) : Walk Unit := do
  let old ← m.quiet
  match (← getTable).updated old value with
  | some (new, table) =>
    modify fun w => { w with table }
    m.store new
  | none => throw .unknownShape

end Meaning

/-! ### Calls -/

/-- Makes one call: leaves an edge and a report, and gives what the callee
returns.  The callee may store anything through its references. -/
def callOne (c : Setting) (id : Nat) (name : String) (args : List (Expr Nat)) (types : Tuple)
    (callee : Nat) : Walk TypeSet := do
  let some sig := c.signatures[callee]? | throw (.unknownCallee name callee)
  modify fun w =>
    let edge : CallEdge :=
      { caller := w.routine.id, callee, site := id, block := c.block
        argExprs := args.map Expr.tag, argTypes := types }
    { w with calls := (w.calls.add edge).2, reports := w.reports.push (callee, types) }
  args.zipIdx.forM fun (arg, i) => do
    if sig.isByRef i then
      if let some var ← varOf? arg then
        markAliased var
        modifyState (·.assign var .any)
  return sig.returns

/-- A call to `name`.  Arguments that some candidate takes by reference are
evaluated quietly: the callee may be what initializes them. -/
def call (c : Setting) (id : Nat) (name : String) (args : List (Expr Nat)) (ms : List Meaning) :
    Walk TypeSet := do
  let cands := (c.directory.candidates name).filterMap (c.signatures[·]?)
  let types ← ms.zipIdx.mapM fun (m, i) => do
    let s ← if cands.any (·.isByRef i) then m.quiet else m.value
    return s.plain
  if cands.isEmpty then
    match Library.find? name with
    | some f =>
      if f.dynamic then addFlags { dynamicCall := true }
      bindCall id (.library name)
      return f.returns
    | none =>
      bindCall id .unresolved
      return .any
  else
    let target := c.resolver cands types
    let start := if target.callees.isEmpty then TypeSet.any else .void
    let s ← target.callees.foldlM
      (fun s callee => return s ∪ (← callOne c id name args types callee)) start
    bindCall id target
    return s

end Infer

open ShapeFlow.Flow Infer

mutual

/-- What an expression does to a walk in the given setting. -/
def Expr.meaning (c : Setting) : Expr Nat → Meaning
  | e@(.lit _ kind) => .ofValue e (pure kind.types)
  | e@(.var id name) =>
    { Meaning.ofValue e (readVariable id name false) with
      quiet := recorded id (readVariable id name true)
      store := fun s => do
        let var ← useVar name
        modifyState (·.assign var s)
        record id s }
  | e@(.assign _ target value) =>
    .ofValue e do
      let s := (← (value.meaning c).value).plain
      (target.meaning c).store s
      return s
  | e@(.update _ op target value) =>
    .ofValue e do
      let old ← (target.meaning c).value
      let s ← match op with
        | .coalesce => do
          let v ← (value.meaning c).maybeValue
          pure (old.remove .null ∪ v)
        | op => do
          let v ← (value.meaning c).value
          pure ((← getTable).binaryTypes op old v)
      (target.meaning c).store s
      return s
  | e@(.step _ op target) =>
    .ofValue e do
      let old := (← (target.meaning c).value).plain
      let limit := if op.isUp then Limit.belowMax else .aboveMin
      let safe ← match ← varOf? target with
        | some var => do
          let t ← getTable
          let s ← getState
          pure (t.isKind old .int && s.hasNote ⟨var, limit⟩)
        | none => pure false
      let new := ShapeTable.stepTypes old safe
      (target.meaning c).store new
      return if op.givesNew then new else old
  | e@(.binary _ .and l r) =>
    .ofCondition e (Meaning.shortCircuit .holds (l.meaning c) (r.meaning c))
  | e@(.binary _ .or l r) =>
    .ofCondition e (Meaning.shortCircuit .fails (l.meaning c) (r.meaning c))
  | e@(.binary _ .coalesce l r) =>
    .ofValue e do
      let s ← (l.meaning c).quiet
      let t ← (r.meaning c).maybeValue
      return s.remove .null ∪ t
  | e@(.binary _ op l r) =>
    .ofValue e do
      let s ← (l.meaning c).value
      let t ← (r.meaning c).value
      return (← getTable).binaryTypes op s t
  | e@(.unary _ .not operand) =>
    .ofCondition e fun b => discard ((operand.meaning c).assume b.negate)
  | e@(.unary _ op operand) =>
    .ofValue e do
      let s ← (operand.meaning c).value
      return (← getTable).unaryTypes op s.plain
  | e@(.cast _ kind operand) =>
    .ofValue e do
      let s ← (operand.meaning c).value
      return (← getTable).castTypes kind s.plain
  | e@(.choose _ cond yes no) =>
    .ofValue e ((cond.meaning c).choose (yes.meaning c).value (no.meaning c).value)
  | e@(.orElse _ cond no) =>
    -- the condition itself, where it is true
    .ofValue e ((cond.meaning c).choose (do return (← recordedTypes cond.tag).remove .null)
      (no.meaning c).value)
  | e@(.call id name args) => .ofValue e (call c id name args (Expr.meanings c args))
  | e@(.method _ object _ args) =>
    -- bound at run time
    .ofValue e do
      let _ ← (object.meaning c).value
      (Expr.meanings c args).forM fun m => discard m.value
      return .any
  | e@(.new _ className args) =>
    .ofValue e do
      (Expr.meanings c args).forM fun m => discard m.value
      intern (·.named className)
  | e@(.field _ object _) =>
    { Meaning.ofValue e (do
        let _ ← (object.meaning c).value
        return .any) with
      store := fun s => do
        let _ ← (object.meaning c).value
        record e.tag s }
  | e@(.item id array key) =>
    { Meaning.ofValue e (do
        let s ← (array.meaning c).value
        let _ ← (key.meaning c).value
        elementOf s) with
      quiet := recorded id do
        let s ← (array.meaning c).quiet
        let _ ← (key.meaning c).value
        elementOf s
      store := fun s => do
        let _ ← (key.meaning c).value
        (array.meaning c).storeElement s
        record id s }
  | e@(.append id array) =>
    { Meaning.ofValue e (do
        let _ ← (array.meaning c).value
        return .any) with
      store := fun s => do
        (array.meaning c).storeElement s
        record id s }
  | e@(.array _ entries) =>
    .ofValue e do
      let s ← (Entry.meanings c entries).foldlM (fun s (key, value) => do
        if let some k := key then discard k.value
        return s ∪ (← value.value).plain) TypeSet.void
      intern (·.arrayOf s)
  | e@(.instanceOf _ operand _) =>
    .ofValue e do
      let _ ← (operand.meaning c).value
      return .bool
  | e@(.isset _ operands) =>
    .ofValue e do
      (Expr.meanings c operands).forM fun m => discard m.quiet
      return .bool
  | e@(.concat _ parts) =>
    .ofValue e do
      (Expr.meanings c parts).forM fun m => discard m.value
      return .string

/-- The meanings of each of the expressions. -/
def Expr.meanings (c : Setting) : List (Expr Nat) → List Meaning
  | [] => []
  | e :: es => e.meaning c :: Expr.meanings c es

/-- The meanings of the keys and values of an array. -/
def Entry.meanings (c : Setting) : List (Entry Nat) → List (Option Meaning × Meaning)
  | [] => []
  | .value v :: es => (none, v.meaning c) :: Entry.meanings c es
  | .pair k v :: es => (some (k.meaning c), v.meaning c) :: Entry.meanings c es

end

end ShapeFlow
