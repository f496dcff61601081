/-
# Checks that a routine hides

A routine hides the library function of its name: calls are bound to the routine.  What a
condition tells of a variable is looked up by the name alone.  So where a routine goes by the
name of a check, a call of it narrows its argument as the check would, in either branch; under
any other name both branches are left as the call left them.

The two branches go through the call one after the other.  The second time names are known and
facts have been recorded, but the state is the one before the call, and the call does to it
what it did the first time.

Key definitions: `Narrowing.ofCheck`, `afterCall`, `Reached`.
Key theorems: `callVar_run`, `assumeCall_run`, `call_narrows_by_name`.
-/
import ShapeFlow.Proofs.Conditions
import ShapeFlow.Proofs.References

namespace ShapeFlow

open ShapeFlow.Flow

/-- What the check of a name tells of a variable. -/
def Narrowing.ofCheck (name : String) (x : Nat) (outcome : Bool) : Narrowing :=
  ((Library.checks? name).map (Narrowing.ofKind x · outcome)).getD .nothing

namespace Infer

section Calls

variable {c : Setting} {w w' : Walker} {k j i : Nat} {name x : String} {s : State}

/-- What a call with variable `i` as its one argument makes of a state. -/
def afterCall (c : Setting) (name : String) (arg : Expr Nat) (i : Nat) (s : State) : State :=
  s.overwrite ((c.overwritten [arg] (c.bind name [(current s i).plain])).map fun _ => i)

/-- The walker has come to state `s` and knows variable `x` by the index `i`. -/
structure Reached (w : Walker) (x : String) (i : Nat) (s : State) (w' : Walker) : Prop where
  table : w'.table = w.table
  size : w'.routine.facts.size = w.routine.facts.size
  mem : x ∈ w'.routine.scope.names
  index : w'.routine.index x = i
  state : w'.state = s

theorem Reached.withFact {s : State} (h : Reached w x i s w') (k : Nat) (f : Fact → Fact) :
    Reached w x i s (withFact w' k f) :=
  { h with size := (Array.size_modify ..).trans h.size }

theorem Reached.use (h : Reached w x i s w') : (w'.routine.scope.use x).1 = i := by
  rw [Scope.use_eq h.mem]
  exact h.index

theorem argTypes_var (hj : j < w.routine.facts.size) (name x : String) : ∃ w0,
    argTypes c name [.var j x] w =
        .ok [(current w.state (w.routine.scope.use x).1).plain] w0 ∧ Finds w x w0 := by
  have hread : ∀ quiet, ∃ w0,
      (do let s ← recorded j (readVariable j x quiet); return s.plain) w =
        .ok (current w.state (w.routine.scope.use x).1).plain w0 ∧ Finds w x w0 := by
    intro quiet
    obtain ⟨w0, hrun, hfinds⟩ := var_reads hj x quiet
    rw [hfinds.index] at hrun
    exact ⟨w0, bind_of_ok hrun, hfinds⟩
  rw [argTypes_eq, show [Expr.var j x].zipIdx = [(Expr.var j x, 0)] from rfl, List.mapM_cons]
  dsimp only
  rw [Expr.meaning]
  split
  · obtain ⟨w0, hrun, hfinds⟩ := hread true
    exact ⟨w0, bind_of_ok hrun, hfinds⟩
  · obtain ⟨w0, hrun, hfinds⟩ := hread false
    exact ⟨w0, bind_of_ok hrun, hfinds⟩

theorem eq_of_mem_overwritten {target : Target} {y : String}
    (h : y ∈ c.overwritten [.var j x] target) : y = x := by
  obtain ⟨callee, -, sig, -, hy⟩ := Setting.mem_overwritten.1 h
  obtain ⟨n, m, hn, -⟩ := Signature.mem_references.1 hy
  have hmem := List.mem_of_getElem? hn
  simp only [List.mem_singleton, Expr.var.injEq] at hmem
  exact hmem.2

theorem callVar_run (hj : j < w.routine.facts.size) (hi : (w.routine.scope.use x).1 = i)
    (hcallees : c.Has (c.bind name [(current w.state i).plain])) (k : Nat) : ∃ s w',
    call c k name [.var j x] (Expr.meanings c [.var j x]) w = .ok s w' ∧
      Reached w x i (afterCall c name (.var j x) i w.state) w' := by
  subst hi
  obtain ⟨w0, hargs, hfinds⟩ := argTypes_var (c := c) hj name x
  obtain ⟨s, w', hrun, hover, -⟩ := call_run hargs hcallees k
  obtain ⟨hmem, hindex⟩ := Routine.index_of_le hover.scope hfinds.mem
  refine ⟨s, w', hrun, hover.table.trans hfinds.table, hover.size.trans hfinds.size, hmem,
    hindex.trans hfinds.index, ?_⟩
  rw [hover.state, hfinds.state, afterCall]
  apply congrArg (w.state.overwrite [] |>.overwrite ·)
  apply List.map_congr_left
  intro y hy
  rw [eq_of_mem_overwritten hy, hindex, hfinds.index]

theorem narrowByKind_run (i : Nat) (kind : Kind) (outcome : Bool) (w : Walker) :
    narrowByKind i kind outcome w =
      .ok () { w with state := (Narrowing.ofKind i kind outcome).apply w.table w.state } := by
  unfold narrowByKind
  rw [getTable_bind]
  by_cases hkind : kind = .null
  · subst hkind
    cases outcome
    · rfl
    · have hnull := w.table.found_null (current w.state i)
      show EStateM.Result.ok () { w with state := w.state.narrow i (w.table.found (current w.state i) .null) } = _
      rw [hnull]
      rfl
  · cases outcome
    · simp only [Bool.false_eq_true, if_false, hkind, Narrowing.ofKind]
      rfl
    · simp only [if_true, hkind, if_false, Narrowing.ofKind]
      rfl

/-- A call narrows by the check of its name, whatever it is bound to. -/
theorem narrowCall_run (h : Reached w x i s w') (k j : Nat) (name : String) (outcome : Bool) :
    ∃ w'', narrow (.call k name [.var j x]) outcome w' = .ok () w'' ∧
      Reached w x i ((Narrowing.ofCheck name i outcome).apply w.table s) w'' := by
  simp only [narrow, Narrowing.ofCheck]
  rcases Library.checks? name with _ | kind
  · exact ⟨w', rfl, h⟩
  · have hfinds := finds_lookedUp w' x
    have hindex : (lookedUp w' x).routine.index x = i := hfinds.index.trans h.use
    have hvar : varOf? (.var j x) w' = .ok (some i) (lookedUp w' x) := by
      rw [← hindex]
      show (useVar x >>= fun i => Pure.pure (some i) : Walk (Option Nat)) w' = _
      exact bind_of_ok (useVar_lookedUp w' x)
    refine ⟨_, (bind_of_ok hvar).trans (narrowByKind_run ..), h.table, h.size, hfinds.mem, hindex, ?_⟩
    show (Narrowing.ofKind i kind outcome).apply w'.table w'.state = _
    rw [h.table, h.state]
    rfl

theorem assumeCall_run (hk : k < w.routine.facts.size) (hj : j < w.routine.facts.size)
    (hi : (w.routine.scope.use x).1 = i)
    (hcallees : c.Has (c.bind name [(current w.state i).plain])) (outcome : Bool) : ∃ s w',
    ((Expr.call k name [.var j x]).meaning c).assume (if outcome then .holds else .fails) w = .ok s w' ∧
      Reached w x i ((Narrowing.ofCheck name i outcome).apply w.table
        (afterCall c name (.var j x) i w.state)) w' := by
  obtain ⟨s, w1, hcall, h1⟩ := callVar_run hj hi hcallees k
  obtain ⟨w2, hnarrow, h2⟩ := narrowCall_run h1 k j name outcome
  have hstep : (do
      let s ← call c k name [.var j x] (Expr.meanings c [.var j x])
      narrowTo (.call k name [.var j x]) (if outcome then .holds else .fails)
      return s) w = .ok s w2 := by
    refine (bind_of_ok hcall).trans ?_
    cases outcome <;> exact bind_of_ok hnarrow
  rw [Expr.meaning]
  exact ⟨s, _, recorded_run hstep (h2.size.symm ▸ hk), h2.withFact k _⟩

theorem lt_size_of_argTypes {types : Tuple} (h : argTypes c name [.var j x] w = .ok types w') :
    j < w.routine.facts.size := by
  rw [argTypes_eq, show [Expr.var j x].zipIdx = [(Expr.var j x, 0)] from rfl, List.mapM_cons] at h
  obtain ⟨s, w1, hfirst, -⟩ := ok_of_bind h
  dsimp only at hfirst
  rw [Expr.meaning] at hfirst
  have hlt : ∀ quiet, (do let s ← recorded j (readVariable j x quiet); return s.plain) w =
      .ok s w1 → j < w.routine.facts.size := by
    intro quiet hrun
    obtain ⟨t, w2, hrecorded, -⟩ := ok_of_bind hrun
    obtain ⟨w3, hread, hj, -⟩ := of_recorded hrecorded
    obtain ⟨w4, hread', hfinds⟩ := readVariable_run j x quiet w
    obtain ⟨-, rfl⟩ := EStateM.Result.ok.inj (hread'.symm.trans hread)
    exact hfinds.size ▸ hj
  split at hfirst
  · exact hlt true hfirst
  · exact hlt false hfirst

/-- **Conditions go by the name of a check.**  A call `f($x)` that is branched on narrows `$x` in
each branch as the library's check of that name does, whatever the call is bound to.  If the library
has no check of that name, both branches begin with the state that the call leaves. -/
theorem call_narrows_by_name {s : TypeSet}
    (h : ((Expr.call k name [.var j x]).meaning c).value w = .ok s w') :
    ∃ types w'', w'.routine.target? k = some (c.bind name types) ∧
      ((Expr.call k name [.var j x]).meaning c).branchStates w = .ok
        ((Narrowing.ofCheck name (w'.routine.index x) true).apply w.table w'.state,
          (Narrowing.ofCheck name (w'.routine.index x) false).apply w.table w'.state) w'' ∧
      (Library.checks? name = none →
        ((Expr.call k name [.var j x]).meaning c).branchStates w = .ok (w'.state, w'.state) w'') := by
  obtain ⟨types, w₀, hargs, hhas, -, htarget⟩ := call_overwrites h
  have hj := lt_size_of_argTypes hargs
  obtain ⟨w₀', hargs', -⟩ := argTypes_var (c := c) hj name x
  obtain ⟨rfl, -⟩ := EStateM.Result.ok.inj (hargs'.symm.trans hargs)
  -- what the call leaves
  obtain ⟨s', w₁, hcall, h₁⟩ := callVar_run hj rfl hhas k
  rw [Expr.meaning] at h
  obtain ⟨w₂, hcall', hk, rfl⟩ := of_recorded h
  obtain ⟨rfl, rfl⟩ := EStateM.Result.ok.inj (hcall.symm.trans hcall')
  have hk : k < w.routine.facts.size := h₁.size ▸ hk
  -- the branches, the second of which begins with the state before the call
  obtain ⟨_, y, hyes, hy⟩ := assumeCall_run hk hj rfl hhas true
  obtain ⟨_, n, hno, hn⟩ := assumeCall_run (w := { y with state := w.state }) (hy.size.symm ▸ hk)
    (hy.size.symm ▸ hj) hy.use hhas false
  have hbranches : ((Expr.call k name [.var j x]).meaning c).branchStates w =
      .ok (y.state, n.state) n := by
    refine (bind_of_ok rfl).trans ((bind_of_ok hyes).trans ((bind_of_ok rfl).trans ?_))
    exact (bind_of_ok rfl).trans ((bind_of_ok hno).trans rfl)
  have hleft := h₁.withFact k fun f => { f with types := f.types ∪ s' }
  have hn := hn.state
  rw [show ({ y with state := w.state } : Walker).table = w.table from hy.table] at hn
  rw [hy.state, hn, ← hleft.state, ← hleft.index] at hbranches
  refine ⟨_, n, htarget, hbranches, fun hnone => ?_⟩
  simp only [Narrowing.ofCheck, hnone] at hbranches
  exact hbranches

end Calls

/-- The call `is_int($p)`. -/
def disguised : Expr Nat := .call 0 "is_int" [.var 1 "p"]

/-- A program whose one routine is called `is_int`. -/
def disguisedSetting : Setting where
  directory := { routines := [("is_int", [0])] }
  resolver := .mostSpecific
  signatures := [{ id := 0, params := [.any], required := 1, returns := .bool }]
  block := 0

/-- Just before `disguised`, where `$p` is a string. -/
def disguisedWalker : Walker := walkerWith .standard 2 [("p", .string)]

/-- The call is bound to the routine and leaves a string; where it came out true, `$p` is taken for
an integer. -/
theorem disguised_narrows : ∃ s w' yes no w'',
    (disguised.meaning disguisedSetting).value disguisedWalker = .ok s w' ∧
    w'.routine.target? 0 = some (.resolved 0) ∧ w'.state.slots = [.string] ∧
    (disguised.meaning disguisedSetting).branchStates disguisedWalker = .ok (yes, no) w'' ∧
    yes.slots = [.int] ∧ no.slots = [.string] := by
  obtain ⟨s, w', hrun, hgood⟩ := exists_ok_of_good (s := disguisedWalker)
    (m := (disguised.meaning disguisedSetting).value) (fun _ w' =>
      w'.routine.target? 0 == some (.resolved 0) && w'.state.slots == [.string] &&
      ((Narrowing.ofCheck "is_int" (w'.routine.index "p") true).apply disguisedWalker.table
        w'.state).slots == [.int] &&
      ((Narrowing.ofCheck "is_int" (w'.routine.index "p") false).apply disguisedWalker.table
        w'.state).slots == [.string]) (by decide +kernel)
  simp only [Bool.and_eq_true, beq_iff_eq] at hgood
  obtain ⟨⟨⟨htarget, hslots⟩, hyes⟩, hno⟩ := hgood
  obtain ⟨-, w'', -, hbranches, -⟩ := call_narrows_by_name hrun
  exact ⟨s, w', _, _, w'', hrun, htarget, hslots, hbranches, hyes, hno⟩

end Infer

end ShapeFlow
