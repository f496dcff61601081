/-
# What calls do to variables

A call goes through its arguments; then each variable that is passed by reference may hold
anything, whichever of several callees it is passed to, and nothing else of the state changes.
An element is no variable: where one is passed by reference, the array it belongs to is left
as it was, and so is what is read from it.

Variables are found by name in a scope that may grow on the way, so what a call does is said
with the indices the variables have after it.

Key definitions: `State.overwrite`, `Signature.references`, `Setting.overwritten`, `Overwrites`,
`Expr.IsElement`.
Key theorems: `call_run`, `element_reads`, `references_overwritten`.
-/
import ShapeFlow.Proofs.Replays

namespace ShapeFlow

open ShapeFlow.Flow List

variable {name : String}

theorem exists_ok_of_good {ε σ α : Type} {m : EStateM ε σ α} {s : σ} (good : α → σ → Bool)
    (h : (match m s with
      | .ok a s' => good a s'
      | .error _ _ => false) = true) : ∃ a s', m s = .ok a s' ∧ good a s' = true := by
  rcases hrun : m s with ⟨a, s'⟩ | ⟨e, s'⟩ <;> rw [hrun] at h
  · exact ⟨a, s', rfl, h⟩
  · cases h

/-! ### Names in scopes that grow -/

namespace Flow.Scope

variable {s s' : Scope} {name : String}

theorem names_prefix (h : s ≤ s') : s.names <+: s'.names := by
  rw [prefix_iff_getElem?]
  intro i hi
  have hi' : i < s.vars.length := by simpa [names] using hi
  obtain ⟨v, hv, hle⟩ := h.vars i s.vars[i] (getElem?_eq_getElem hi')
  have hv : s'.vars[i]? = some v := hv
  simp only [names, getElem?_map, hv, Option.map_some, getElem_map, hle.name]

theorem use_spec (s : Scope) (name : String) : name ∈ (s.use name).2.names ∧
    (s.use name).1 = (s.use name).2.names.idxOf name := by
  by_cases hmem : name ∈ s.names
  · rw [use_eq hmem]
    exact ⟨hmem, rfl⟩
  · have hnone : s.find? name = none := by
      rw [find?, findIdx?_eq_none_iff]
      intro v hv
      rw [beq_eq_false_iff_ne]
      rintro rfl
      exact hmem (mem_map_of_mem hv)
    have hnames : (s.use name).2.names = s.names ++ [name] := by
      rw [use, declare, hnone]
      simp [names]
    rw [hnames, idxOf_append_of_notMem hmem]
    refine ⟨by simp, ?_⟩
    rw [use, declare, hnone]
    simp

end Flow.Scope

theorem Routine.index_of_le {r r' : Routine} (h : r.scope ≤ r'.scope) (hname : name ∈ r.scope.names) :
    name ∈ r'.scope.names ∧ r'.index name = r.index name := by
  obtain ⟨rest, hrest⟩ := Scope.names_prefix h
  rw [Routine.index, Routine.index, ← hrest]
  exact ⟨mem_append_left rest hname, idxOf_append_of_mem hname⟩

/-! ### Variables that may hold anything -/

namespace Flow.State

/-- The given variables may hold anything. -/
def overwrite (s : State) (vars : List Nat) : State := vars.foldl (fun s i => s.assign i .any) s

theorem overwrite_append (s : State) (l k : List Nat) :
    s.overwrite (l ++ k) = (s.overwrite l).overwrite k := foldl_append

end Flow.State

namespace Infer

theorem current_assign_any (s : State) (j i : Nat) :
    current (s.assign j .any) i = if j = i then .any else current s i := by
  have hany : TypeSet.any.plain = .any ∧ TypeSet.any.plain ∪ .null = .any := by decide
  by_cases hji : j = i
  · subst hji
    have hget : (s.assign j .any).get j = .any := by
      rw [State.get, State.slot_assign, if_pos rfl, ite_self]
    rw [if_pos rfl, current, hget, hany.2, hany.1, ite_self]
  · have hget : (s.assign j .any).get i = s.get i := by
      rw [State.get, State.get, State.slot_assign, if_neg hji]
    have hcertainly : (s.assign j .any).certainly.contains i = s.certainly.contains i := by
      simp [State.assign, VarSet.contains_insert, hji]
    rw [if_neg hji, current, current, hget, hcertainly]

/-- A read of what has been overwritten may give anything; all else reads as before. -/
theorem current_overwrite (s : State) (vars : List Nat) (i : Nat) :
    current (s.overwrite vars) i = if i ∈ vars then .any else current s i := by
  induction vars generalizing s with
  | nil => rfl
  | cons j vars ih =>
    rw [State.overwrite, foldl_cons]
    refine (ih (s.assign j .any)).trans ?_
    rw [current_assign_any]
    by_cases hi : i ∈ vars
    · simp [hi]
    · simp [hi, eq_comm]

end Infer

/-! ### Calls -/

/-- The variables among the arguments that a routine of this signature takes by reference. -/
def Signature.references (sig : Signature) (args : List (Expr Nat)) : List String :=
  args.zipIdx.filterMap fun (a, i) => if sig.isByRef i then a.varName? else none

/-- The variables that a call bound to `target` passes by reference. -/
def Infer.Setting.overwritten (c : Setting) (args : List (Expr Nat)) (target : Target) : List String :=
  target.callees.flatMap fun callee => (c.signatures[callee]?.map (·.references args)).getD []

theorem Expr.varName?_eq_some {e : Expr Nat} : e.varName? = some name ↔ ∃ k, e = .var k name := by
  cases e <;> simp [Expr.varName?]

theorem Signature.mem_references {sig : Signature} {args : List (Expr Nat)} :
    name ∈ sig.references args ↔ ∃ i k, args[i]? = some (.var k name) ∧ sig.isByRef i = true := by
  unfold references
  rw [mem_filterMap]
  constructor
  · rintro ⟨⟨a, i⟩, hmem, hname⟩
    dsimp only at hname
    split at hname
    next href =>
      obtain ⟨k, rfl⟩ := Expr.varName?_eq_some.1 hname
      exact ⟨i, k, mem_zipIdx_iff_getElem?.1 hmem, href⟩
    next => cases hname
  · rintro ⟨i, k, hi, href⟩
    refine ⟨(.var k name, i), mem_zipIdx_iff_getElem?.2 hi, ?_⟩
    simp [href, Expr.varName?]

namespace Infer

variable {c : Setting} {w w' w'' : Walker} {k : Nat} {step : Walk TypeSet} {l : List String}
  {s : TypeSet}

theorem Setting.mem_overwritten {args : List (Expr Nat)} {target : Target} :
    name ∈ c.overwritten args target ↔ ∃ callee ∈ target.callees, ∃ sig,
      c.signatures[callee]? = some sig ∧ name ∈ sig.references args := by
  unfold Setting.overwritten
  rw [mem_flatMap]
  refine exists_congr fun callee => and_congr_right fun _ => ?_
  rcases c.signatures[callee]? with _ | sig <;> simp

/-- The walker after it has looked up a variable. -/
def lookedUp (w : Walker) (name : String) : Walker :=
  { w with routine := { w.routine with scope := (w.routine.scope.use name).2 } }

theorem useVar_lookedUp (w : Walker) (name : String) :
    useVar name w = .ok ((lookedUp w name).routine.index name) (lookedUp w name) := by
  show EStateM.Result.ok (w.routine.scope.use name).1 (lookedUp w name) = _
  rw [(w.routine.scope.use_spec name).2]
  rfl

/-- All the walker has done is to let the variables hold anything, and to look up names. -/
structure Overwrites (w : Walker) (l : List String) (w' : Walker) : Prop where
  table : w'.table = w.table
  size : w'.routine.facts.size = w.routine.facts.size
  scope : w.routine.scope ≤ w'.routine.scope
  names : ∀ name ∈ l, name ∈ w'.routine.scope.names
  state : w'.state = w.state.overwrite (l.map w'.routine.index)

theorem Overwrites.nil (w : Walker) : Overwrites w [] w :=
  ⟨rfl, rfl, Scope.le_refl _, by simp, rfl⟩

theorem Overwrites.trans {k : List String} (h : Overwrites w l w') (h' : Overwrites w' k w'') :
    Overwrites w (l ++ k) w'' where
  table := h'.table.trans h.table
  size := h'.size.trans h.size
  scope := Scope.le_trans h.scope h'.scope
  names name hname := (mem_append.1 hname).elim
    (fun hl => (Routine.index_of_le h'.scope (h.names name hl)).1) (h'.names name)
  state := by
    have hkept : l.map w''.routine.index = l.map w'.routine.index :=
      map_congr_left fun name hname => (Routine.index_of_le h'.scope (h.names name hname)).2
    rw [h'.state, h.state, map_append, State.overwrite_append, hkept]

theorem Overwrites.bindCall (h : Overwrites w l w') (k : Nat) (target : Target) :
    ∃ w'', bindCall k target w' = .ok () w'' ∧ Overwrites w l w'' ∧
      (k < w.routine.facts.size → w''.routine.target? k = some target) := by
  refine ⟨_, rfl, ⟨h.table, ?_, h.scope, h.names, h.state⟩, fun hk => ?_⟩
  · exact (Array.size_modify ..).trans h.size
  · rw [← h.size] at hk
    refine (w'.routine.target?_modify k k _).trans ?_
    rw [if_pos rfl, Array.getElem?_eq_getElem hk]
    rfl

theorem markAliased_run {i : Nat} (h : i < w.routine.scope.size) : ∃ scope,
    markAliased i w = .ok () { w with routine := { w.routine with scope } } ∧
      w.routine.scope ≤ scope ∧ scope.names = w.routine.scope.names := by
  have hscope : w.routine.scope.markAliased i =
      .ok { w.routine.scope with aliased := w.routine.scope.aliased.insert i } := by
    rw [Scope.markAliased, Scope.get_eq h]
    rfl
  refine ⟨{ w.routine.scope with aliased := w.routine.scope.aliased.insert i }, ?_,
    w.routine.scope.le_alias _, rfl⟩
  unfold markAliased updateScope
  refine (bind_of_ok (show getRoutine w = .ok w.routine w from rfl)).trans ?_
  simp only [hscope]
  rfl

theorem overwrites_one (w : Walker) (name : String) : ∃ w',
    (do let var ← useVar name; markAliased var; modifyState (·.assign var .any) : Walk Unit) w =
      .ok () w' ∧ Overwrites w [name] w' := by
  have hmem : name ∈ (lookedUp w name).routine.scope.names := (w.routine.scope.use_spec name).1
  have hlt : (lookedUp w name).routine.index name < (lookedUp w name).routine.scope.size := by
    rw [← Scope.length_names]
    exact idxOf_lt_length_iff.2 hmem
  obtain ⟨scope, halias, hscope, hnames⟩ := markAliased_run hlt
  refine ⟨_, (bind_of_ok (useVar_lookedUp w name)).trans ((bind_of_ok halias).trans rfl), ?_⟩
  refine ⟨rfl, rfl, Scope.le_trans (Scope.le_use w.routine.scope name) hscope, ?_, ?_⟩
  · intro x hx
    obtain rfl := mem_singleton.1 hx
    exact hnames ▸ hmem
  · show w.state.assign _ .any = w.state.assign (scope.names.idxOf name) .any
    rw [hnames]
    rfl

theorem overwrites_args (sig : Signature) (l : List (Expr Nat × Nat)) (w : Walker) : ∃ w',
    (l.forM fun (arg, i) => do
      if sig.isByRef i then
        if let some var ← varOf? arg then
          markAliased var
          modifyState (·.assign var .any)) w = .ok () w' ∧
      Overwrites w (l.filterMap fun (a, i) => if sig.isByRef i then a.varName? else none) w' := by
  induction l generalizing w with
  | nil => exact ⟨w, rfl, .nil w⟩
  | cons p l ih =>
    obtain ⟨a, i⟩ := p
    -- what is done for the first argument
    obtain ⟨w1, hrun1, h1⟩ : ∃ w1, (do
        if sig.isByRef i then
          if let some var ← varOf? a then
            markAliased var
            modifyState (·.assign var .any) : Walk Unit) w = .ok () w1 ∧
        Overwrites w (if sig.isByRef i then a.varName? else none).toList w1 := by
      split
      · rcases hname : a.varName? with _ | name
        · refine ⟨w, ?_, .nil w⟩
          rw [varOf?, hname]
          rfl
        · obtain ⟨w1, hrun, h⟩ := overwrites_one w name
          refine ⟨w1, ?_, h⟩
          rw [varOf?, hname]
          exact hrun
      · exact ⟨w, rfl, .nil w⟩
    obtain ⟨w', hrun, h⟩ := ih w1
    refine ⟨w', ?_, ?_⟩
    · exact (bind_of_ok hrun1).trans hrun
    · have hcons := h1.trans h
      rw [filterMap_cons]
      dsimp only
      rcases hfirst : (if sig.isByRef i then a.varName? else none) with _ | name
      · rwa [hfirst] at hcons
      · rwa [hfirst] at hcons

theorem callOne_run {callee : Nat} {sig : Signature} (hsig : c.signatures[callee]? = some sig)
    (k : Nat) (name : String) (args : List (Expr Nat)) (types : Tuple) (w : Walker) : ∃ w',
    callOne c k name args types callee w = .ok sig.returns w' ∧
      Overwrites w (sig.references args) w' := by
  unfold callOne
  rw [hsig]
  obtain ⟨w', hrun, h⟩ := overwrites_args sig args.zipIdx (withCall w
    { caller := w.routine.id, callee, site := k, block := c.block
      argExprs := args.map Expr.tag, argTypes := types })
  refine ⟨w', ?_, h.table, h.size, h.scope, h.names, h.state⟩
  exact (bind_of_ok rfl).trans (bind_of_ok hrun)

/-- All callees exist. -/
def Setting.Has (c : Setting) (target : Target) : Prop :=
  ∀ callee ∈ target.callees, callee < c.signatures.length

section Callees

variable {k : Nat} {name : String} {args : List (Expr Nat)} {types : Tuple} {l : List Nat}
  {s : TypeSet}

theorem callees_run (k : Nat) (name : String) (args : List (Expr Nat)) (types : Tuple)
    (hl : ∀ callee ∈ l, callee < c.signatures.length) (s : TypeSet) (w : Walker) : ∃ t w',
    (l.foldlM (fun s callee => return s ∪ (← callOne c k name args types callee)) s :
      Walk TypeSet) w = .ok t w' ∧
      Overwrites w (l.flatMap fun callee => (c.signatures[callee]?.map (·.references args)).getD [])
        w' := by
  induction l generalizing s w with
  | nil => exact ⟨s, w, rfl, .nil w⟩
  | cons callee l ih =>
    obtain ⟨sig, hsig⟩ : ∃ sig, c.signatures[callee]? = some sig :=
      ⟨_, getElem?_eq_getElem (hl callee (.head _))⟩
    obtain ⟨w1, hrun1, h1⟩ := callOne_run hsig k name args types w
    obtain ⟨t, w', hrun, h⟩ := ih (fun d hd => hl d (.tail _ hd))
      (s ∪ sig.returns) w1
    refine ⟨t, w', ?_, ?_⟩
    · rw [foldlM_cons]
      have hone : (do return s ∪ (← callOne c k name args types callee) : Walk TypeSet) w =
        .ok (s ∪ sig.returns) w1 := bind_of_ok hrun1
      exact (bind_of_ok hone).trans hrun
    · rw [flatMap_cons, hsig]
      exact h1.trans h

theorem callees_exist {t : TypeSet}
    (h : (l.foldlM (fun s callee => return s ∪ (← callOne c k name args types callee)) s :
      Walk TypeSet) w = .ok t w') : ∀ callee ∈ l, callee < c.signatures.length := by
  induction l generalizing s w with
  | nil => simp
  | cons callee l ih =>
    rw [foldlM_cons] at h
    obtain ⟨u, w1, hfirst, hrest⟩ := ok_of_bind h
    have hhere : callee < c.signatures.length := by
      by_contra hnot
      have hnone : c.signatures[callee]? = none := getElem?_eq_none (by omega)
      obtain ⟨v, w2, hone, -⟩ := ok_of_bind hfirst
      unfold callOne at hone
      rw [hnone] at hone
      cases hone
    exact forall_mem_cons.2 ⟨hhere, ih hrest⟩

theorem Setting.callees_bind (h : ((c.directory.candidates name).filterMap (c.signatures[·]?)).isEmpty = true)
    (types : Tuple) : (c.bind name types).callees = [] := by
  unfold Setting.bind
  rw [if_pos h]
  split <;> rfl

theorem call_run {w0 : Walker} (hargs : argTypes c name args w = .ok types w0)
    (hcallees : c.Has (c.bind name types)) (k : Nat) : ∃ s w',
    call c k name args (Expr.meanings c args) w = .ok s w' ∧
      Overwrites w0 (c.overwritten args (c.bind name types)) w' ∧
      (k < w0.routine.facts.size → w'.routine.target? k = some (c.bind name types)) := by
  rw [call_eq, bind_of_ok hargs]
  by_cases hnone : ((c.directory.candidates name).filterMap (c.signatures[·]?)).isEmpty = true
  · have hkept : ∀ flags, Overwrites w0 (c.overwritten args (c.bind name types))
        { w0 with routine := { w0.routine with flags } } := by
      intro flags
      rw [Setting.overwritten, Setting.callees_bind hnone]
      exact ⟨rfl, rfl, Scope.le_refl _, by simp, rfl⟩
    rw [if_pos hnone]
    rcases Library.find? name with _ | f
    · obtain ⟨w', hrun, h⟩ := (hkept w0.routine.flags).bindCall k (c.bind name types)
      exact ⟨_, w', bind_of_ok hrun, h⟩
    · by_cases hdynamic : f.dynamic = true
      · obtain ⟨w', hrun, h⟩ := (hkept (w0.routine.flags ∪ { dynamicCall := true })).bindCall k
          (c.bind name types)
        refine ⟨f.returns, w', ?_, h⟩
        simp only [hdynamic, if_true]
        exact (bind_of_ok rfl).trans (bind_of_ok hrun)
      · obtain ⟨w', hrun, h⟩ := (hkept w0.routine.flags).bindCall k (c.bind name types)
        refine ⟨f.returns, w', ?_, h⟩
        simp only [hdynamic, Bool.false_eq_true, if_false]
        exact bind_of_ok hrun
  · obtain ⟨s, w1, hrun1, h1⟩ := callees_run k name args types hcallees
      (if (c.bind name types).callees.isEmpty then TypeSet.any else .void) w0
    obtain ⟨w', hrun, h⟩ := h1.bindCall k (c.bind name types)
    rw [if_neg hnone]
    exact ⟨s, w', (bind_of_ok hrun1).trans (bind_of_ok hrun), h⟩

theorem call_ok (h : call c k name args (Expr.meanings c args) w = .ok s w') :
    ∃ types w0, argTypes c name args w = .ok types w0 ∧ c.Has (c.bind name types) := by
  rw [call_eq] at h
  obtain ⟨types, w0, hargs, hrest⟩ := ok_of_bind h
  refine ⟨types, w0, hargs, ?_⟩
  by_cases hnone : ((c.directory.candidates name).filterMap (c.signatures[·]?)).isEmpty = true
  · intro callee hcallee
    rw [Setting.callees_bind hnone] at hcallee
    cases hcallee
  · rw [if_neg hnone] at hrest
    obtain ⟨t, w1, hcalls, -⟩ := ok_of_bind hrest
    exact callees_exist hcalls

end Callees

/-! ### Reading variables and elements -/

theorem of_recorded (h : recorded k step w = .ok s w') :
    ∃ w1, step w = .ok s w1 ∧ k < w1.routine.facts.size ∧
      w' = withFact w1 k fun x => { x with types := x.types ∪ s } := by
  obtain ⟨a, w1, hstep, hrest⟩ := ok_of_bind h
  obtain ⟨_, w2, hrecord, hpure⟩ := ok_of_bind hrest
  cases hpure
  obtain ⟨hk, rfl⟩ := of_record hrecord
  exact ⟨w1, hstep, hk, rfl⟩

theorem recorded_run (h : step w = .ok s w') (hk : k < w'.routine.facts.size) :
    recorded k step w = .ok s (withFact w' k fun x => { x with types := x.types ∪ s }) :=
  (bind_of_ok h).trans (bind_of_ok (record_eq hk s))

theorem lt_size_of_recorded (h : recorded k step w = .ok s w') :
    k < w'.routine.facts.size := by
  obtain ⟨w1, -, hk, rfl⟩ := of_recorded h
  exact lt_of_lt_of_eq hk (Array.size_modify ..).symm

theorem Overwrites.withFact (h : Overwrites w l w') (k : Nat) (f : Fact → Fact) :
    Overwrites w l (withFact w' k f) :=
  ⟨h.table, (Array.size_modify ..).trans h.size, h.scope, h.names, h.state⟩

/-- The walker has looked a variable up. -/
structure Finds (w : Walker) (name : String) (w' : Walker) : Prop extends Overwrites w [] w' where
  mem : name ∈ w'.routine.scope.names
  index : w'.routine.index name = (w.routine.scope.use name).1

theorem finds_lookedUp (w : Walker) (name : String) : Finds w name (lookedUp w name) where
  table := rfl
  size := rfl
  scope := Scope.le_use _ _
  names := by simp
  state := rfl
  mem := (w.routine.scope.use_spec name).1
  index := (w.routine.scope.use_spec name).2.symm

theorem Finds.withFact (h : Finds w name w') (k : Nat) (f : Fact → Fact) :
    Finds w name (withFact w' k f) :=
  { h.toOverwrites.withFact k f with mem := h.mem, index := h.index }

theorem readVariable_run (k : Nat) (name : String) (quiet : Bool) (w : Walker) : ∃ w',
    readVariable k name quiet w = .ok (current w.state (w'.routine.index name)) w' ∧
      Finds w name w' := by
  unfold readVariable
  rw [bind_of_ok (useVar_lookedUp w name)]
  cases quiet
  · exact ⟨_, rfl, (finds_lookedUp w name).withFact k _⟩
  · exact ⟨_, rfl, finds_lookedUp w name⟩

theorem var_reads (hk : k < w.routine.facts.size) (name : String) (quiet : Bool) : ∃ w',
    recorded k (readVariable k name quiet) w = .ok (current w.state (w'.routine.index name)) w' ∧
      Finds w name w' := by
  obtain ⟨w1, hread, h1⟩ := readVariable_run k name quiet w
  refine ⟨withFact w1 k fun x => { x with types := x.types ∪ current w.state (w1.routine.index name) },
    ?_, h1.withFact k _⟩
  exact recorded_run hread (h1.size.symm ▸ hk)

end Infer

/-- An element of a variable, or the variable itself: `$x[k₁]...[kₙ]`. -/
inductive Expr.IsElement (name : String) : Nat → Expr Nat → Prop
  | var (k : Nat) : IsElement name 0 (.var k name)
  | item {n : Nat} {array : Expr Nat} (k : Nat) (key : Expr Nat) :
    IsElement name n array → IsElement name (n + 1) (.item k array key)

namespace ShapeTable

variable {t t' : ShapeTable} {s r : TypeSet}

/-- What reading elements of elements gives, `n` of them. -/
def elementAt (t : ShapeTable) (s : TypeSet) : Nat → Option TypeSet
  | 0 => some s
  | n + 1 => t.elementAt s n >>= t.element

theorem shapesOf_mono (h : t.Extends t') {l : List Shape} (hl : t.shapesOf s = some l) :
    t'.shapesOf s = some l := by
  unfold shapesOf at hl ⊢
  generalize s.members = is at hl ⊢
  induction is generalizing l with
  | nil => exact hl
  | cons i is ih =>
    rw [mapM_cons] at hl ⊢
    obtain ⟨sh, hsh, hrest⟩ := Option.bind_eq_some_iff.1 hl
    obtain ⟨l', hl', hcons⟩ := Option.bind_eq_some_iff.1 hrest
    have hi : i < t.size := (lt_of_getElem? hsh)
    rw [h.getElem? hi, hsh, ih hl']
    exact hcons

theorem element_mono (h : t.Extends t') (hr : t.element s = some r) :
    t'.element s = some r := by
  unfold element at hr ⊢
  split
  next hany => rwa [if_pos hany] at hr
  next hany =>
    rw [if_neg hany] at hr
    split
    next hvoid => rwa [if_pos hvoid] at hr
    next hvoid =>
      rw [if_neg hvoid] at hr
      obtain ⟨l, hl, hr⟩ := Option.bind_eq_some_iff.1 hr
      exact Option.bind_eq_some_iff.2 ⟨l, shapesOf_mono h hl, hr⟩

theorem elementAt_mono (h : t.Extends t') {n : Nat} (hr : t.elementAt s n = some r) :
    t'.elementAt s n = some r := by
  induction n generalizing r with
  | zero => exact hr
  | succ n ih =>
    obtain ⟨u, hu, hr⟩ := Option.bind_eq_some_iff.1 hr
    exact Option.bind_eq_some_iff.2 ⟨u, ih hu, element_mono h hr⟩

theorem elementAt_any (t : ShapeTable) (n : Nat) : t.elementAt .any n = some .any := by
  induction n with
  | zero => rfl
  | succ n ih =>
    rw [elementAt, ih]
    show t.element .any = some .any
    rw [element, if_pos (by decide)]

end ShapeTable

namespace Infer

variable {c : Setting} {w w' w'' : Walker} {e : Expr Nat} {args : List (Expr Nat)} {l : List String}
  {name x : String} {s : TypeSet} {k : Nat}

theorem value_gains (h : (e.meaning c).value w = .ok s w') :
    w.Gains True (fun _ => False) w' :=
  ((composed_self c e).value.made_any.gains w).ok h

theorem value_succeeds {g : Place} (hfree : g.Free) (he : Fits g e) (hw : Sane g w)
    (hwithin : g.setting.resolver.Within g.routines) :
    ∃ s w', (e.meaning g.setting).value w = .ok s w' := by
  have hruns := (meaning_sound hfree e he).value w hw
  rcases hrun : (e.meaning g.setting).value w with ⟨s, w'⟩ | ⟨f, w'⟩
  · exact ⟨s, w', rfl⟩
  · exact absurd hwithin (Ends.error hruns hrun).1

theorem lt_size_of_gains (h : w.Gains True (fun _ => False) w') (hk : k < w.routine.facts.size) :
    k < w'.routine.facts.size := by
  obtain ⟨f, hf, -⟩ := h.routine.facts k _ (Array.getElem?_eq_getElem hk)
  exact (Array.getElem?_eq_some_iff.1 hf).1

theorem value_tag (h : (e.meaning c).value w = .ok s w') :
    e.tag < w'.routine.facts.size := by
  obtain ⟨step, heq⟩ := value_eq_recorded c e
  rw [heq] at h
  exact lt_size_of_recorded h

/-- **An element is read off the variable it belongs to.**  The variable is looked at first, before
any key is evaluated. -/
theorem element_reads {n : Nat} (he : e.IsElement name n) (h : (e.meaning c).value w = .ok s w') :
    name ∈ w'.routine.scope.names ∧
      w'.table.elementAt (current w.state (w'.routine.index name)) n = some s := by
  induction he generalizing s w' with
  | var k =>
    rw [Expr.meaning] at h
    obtain ⟨w1, hread, hk, rfl⟩ := of_recorded h
    obtain ⟨w2, hrun, hfinds⟩ := readVariable_run k name false w
    obtain ⟨rfl, rfl⟩ := EStateM.Result.ok.inj (hrun.symm.trans hread)
    exact ⟨hfinds.mem, rfl⟩
  | item k key _ ih =>
    rw [Expr.meaning] at h
    obtain ⟨w3, hstep, hk, rfl⟩ := of_recorded h
    obtain ⟨u, w1, harray, hstep⟩ := ok_of_bind hstep
    obtain ⟨v, w2, hkey, helement⟩ := ok_of_bind hstep
    obtain ⟨helement, rfl⟩ := of_elementOf helement
    obtain ⟨hmem, hu⟩ := ih harray
    have hgains := value_gains hkey
    obtain ⟨hmem', hindex⟩ := Routine.index_of_le hgains.routine.scope hmem
    refine ⟨hmem', Option.bind_eq_some_iff.2 ⟨u, ?_, helement⟩⟩
    rw [← hindex] at hu
    exact ShapeTable.elementAt_mono hgains.table hu

/-! ### What a call leaves -/

theorem argTypes_tags {types : Tuple} {a : Expr Nat} (h : argTypes c name args w = .ok types w')
    (ha : a ∈ args) : a.tag < w'.routine.facts.size := by
  rw [argTypes_eq] at h
  obtain ⟨i, hi⟩ := getElem?_of_mem ha
  have hmem : (a, i) ∈ args.zipIdx := mem_zipIdx_iff_getElem?.2 hi
  generalize args.zipIdx = l at h hmem
  induction l generalizing w types with
  | nil => cases hmem
  | cons p l ih =>
    rw [mapM_cons] at h
    obtain ⟨s, w1, hfirst, hrest⟩ := ok_of_bind h
    obtain ⟨rest, w2, hrest, hpure⟩ := ok_of_bind hrest
    cases hpure
    rcases mem_cons.1 hmem with rfl | hmem
    · -- it was recorded, and nothing is forgotten while the others are gone through
      have hrecorded : ∀ {m : Walk TypeSet}, (∃ step, m = recorded a.tag step) →
          (do let s ← m; return s.plain) w = .ok s w1 → a.tag < w1.routine.facts.size := by
        rintro m ⟨step, rfl⟩ hrun
        obtain ⟨u, w2, hvalue, hpure⟩ := ok_of_bind hrun
        cases hpure
        exact lt_size_of_recorded hvalue
      have htag : a.tag < w1.routine.facts.size := by
        dsimp only at hfirst
        split at hfirst
        · exact hrecorded (quiet_eq_recorded c a) hfirst
        · exact hrecorded (value_eq_recorded c a) hfirst
      have hgains : w1.Gains True (fun _ => False) w' := by
        refine Ends.ok (Q := fun _ u => w1.Gains _ _ u)
          ((Composed.mapM (c := c) (E := Set.univ) fun p _ => ?_).made_any.gains w1) hrest
        have hcomposed : (p.1.meaning c).IsComposed c Set.univ :=
          composed_meaning fun _ _ => Set.mem_univ _
        dsimp only
        split
        · exact hcomposed.quiet.bind fun _ => composed_pure _
        · exact hcomposed.value.bind fun _ => composed_pure _
      exact lt_size_of_gains hgains htag
    · exact ih hrest hmem

theorem call_overwrites (h : ((Expr.call k name args).meaning c).value w = .ok s w') :
    ∃ types w0, argTypes c name args w = .ok types w0 ∧ c.Has (c.bind name types) ∧
      Overwrites w0 (c.overwritten args (c.bind name types)) w' ∧
      w'.routine.target? k = some (c.bind name types) := by
  rw [Expr.meaning] at h
  obtain ⟨w1, hcall, hk, rfl⟩ := of_recorded h
  obtain ⟨types, w0, hargs, hcallees⟩ := call_ok hcall
  obtain ⟨s', w1', hrun, hover, htarget⟩ := call_run hargs hcallees k
  obtain ⟨rfl, rfl⟩ := EStateM.Result.ok.inj (hrun.symm.trans hcall)
  refine ⟨types, w0, hargs, hcallees, hover.withFact k _, ?_⟩
  refine (w1'.routine.target?_modify k k _).trans ?_
  rw [if_pos rfl]
  exact htarget (hover.size ▸ hk)

theorem Overwrites.current_eq_any (h : Overwrites w l w')
    (hgrown : w'.routine.scope ≤ w''.routine.scope) (hx : x ∈ l) :
    current w'.state (w''.routine.index x) = .any := by
  rw [(Routine.index_of_le hgrown (h.names x hx)).2, h.state, current_overwrite,
    if_pos (mem_map_of_mem hx)]

theorem Overwrites.current_eq (h : Overwrites w l w')
    (hgrown : w'.routine.scope ≤ w''.routine.scope) (hmem : x ∈ w''.routine.scope.names)
    (hx : x ∉ l) :
    current w'.state (w''.routine.index x) = current w.state (w''.routine.index x) := by
  have hother : w''.routine.index x ∉ l.map w'.routine.index := by
    intro hindex
    obtain ⟨y, hy, heq⟩ := mem_map.1 hindex
    have hkept := (Routine.index_of_le hgrown (h.names y hy)).2
    have hxy : x = y := (idxOf_inj hmem).1 (hkept.trans heq).symm
    exact hx (hxy ▸ hy)
  rw [h.state, current_overwrite, if_neg hother]

/-- **References are overwritten, elements are not.**  After a call each variable that one of the
callees takes by reference reads as the any-type.  An element reads so if its variable is itself
passed by reference.  Otherwise the call leaves the variable as the arguments left it, also where
the element is passed by reference; and all that a call changes in the state, once its arguments
have been gone through, are the variables it passes.  A sane walker can read any element. -/
theorem references_overwritten {k : Nat} {name : String} {args : List (Expr Nat)} {s : TypeSet}
    (h : ((Expr.call k name args).meaning c).value w = .ok s w') :
    ∃ types w₀, argTypes c name args w = .ok types w₀ ∧
      w'.routine.target? k = some (c.bind name types) ∧
      w'.state =
        w₀.state.overwrite ((c.overwritten args (c.bind name types)).map w'.routine.index) ∧
      (∀ callee ∈ (c.bind name types).callees, ∀ sig, c.signatures[callee]? = some sig →
        ∀ i, sig.isByRef i = true → ∀ j x, args[i]? = some (.var j x) →
          ∃ w'', ((Expr.var j x).meaning c).value w' = .ok .any w'') ∧
      ∀ x n (e : Expr Nat), e.IsElement x n →
        (∀ g : Place, g.setting = c → g.Free → Fits g e → Sane g w' →
          c.resolver.Within c.signatures.length → ∃ u w'', (e.meaning c).value w' = .ok u w'') ∧
        ∀ u w'', (e.meaning c).value w' = .ok u w'' →
          (x ∈ c.overwritten args (c.bind name types) → u = .any) ∧
          (x ∉ c.overwritten args (c.bind name types) →
            w''.table.elementAt (current w₀.state (w''.routine.index x)) n = some u) := by
  obtain ⟨types, w₀, hargs, -, hover, htarget⟩ := call_overwrites h
  refine ⟨types, w₀, hargs, htarget, hover.state, ?_, ?_⟩
  · intro callee hcallee sig hsig i href j x hx
    have hj : j < w₀.routine.facts.size := argTypes_tags hargs (List.mem_of_getElem? hx)
    have hmem : x ∈ c.overwritten args (c.bind name types) := Setting.mem_overwritten.2
      ⟨callee, hcallee, sig, hsig, Signature.mem_references.2 ⟨i, j, hx, href⟩⟩
    obtain ⟨w'', hread, hfinds⟩ := var_reads (hover.size.symm ▸ hj) x false
    rw [hover.current_eq_any hfinds.scope hmem] at hread
    rw [Expr.meaning]
    exact ⟨w'', hread⟩
  · intro x n e he
    refine ⟨?_, fun u w'' hread => ?_⟩
    · rintro g rfl hfree hfits hsane hwithin
      exact value_succeeds hfree hfits hsane hwithin
    · obtain ⟨hx, helement⟩ := element_reads he hread
      have hgrown := (value_gains hread).routine.scope
      refine ⟨fun hmem => ?_, fun hnot => ?_⟩
      · rw [hover.current_eq_any hgrown hmem, ShapeTable.elementAt_any] at helement
        exact (Option.some.inj helement).symm
      · rwa [hover.current_eq hgrown hx hnot] at helement

/-- The call `f($x, $a[0])`. -/
def filling : Expr Nat := .call 0 "f" [.var 1 "x", .item 2 (.var 3 "a") (.lit 4 .int)]

/-- A program whose one routine takes both its parameters by reference. -/
def fillingSetting : Setting where
  directory := { routines := [("f", [0])] }
  resolver := .mostSpecific
  signatures := [{ id := 0, params := [.any, .any], byRef := [true, true], required := 2 }]
  block := 0

/-- Just before `filling`, where `$x` is a string and `$a` an array of integers. -/
def fillingWalker : Walker :=
  walkerWith (ShapeTable.standard.arrayOf .int).2 5
    [("x", .string), ("a", (ShapeTable.standard.arrayOf .int).1)]

/-- The variable may hold anything after it; the element of the array is still an integer. -/
theorem filling_overwritten : ∃ s w', (filling.meaning fillingSetting).value fillingWalker = .ok s w' ∧
    (∃ w'', ((Expr.var 1 "x").meaning fillingSetting).value w' = .ok .any w'') ∧
    ∃ w'', ((Expr.item 2 (.var 3 "a") (.lit 4 .int)).meaning fillingSetting).value w' = .ok .int w'' := by
  obtain ⟨t, w'', hrun, ht⟩ := exists_ok_of_good (s := fillingWalker) (m := do
    let _ ← (filling.meaning fillingSetting).value
    ((Expr.item 2 (.var 3 "a") (.lit 4 .int)).meaning fillingSetting).value) (fun t _ => t == .int)
    (by decide +kernel)
  obtain ⟨s, w', hcall, hitem⟩ := ok_of_bind hrun
  obtain ⟨types, w₀, -, -, -, hvars, -⟩ := references_overwritten hcall
  have hcands : fillingSetting.directory.candidates "f" = [0] := by decide +kernel
  have hbind : fillingSetting.bind "f" types = .resolved 0 := by
    rw [Setting.bind, hcands]
    rfl
  refine ⟨s, w', hcall, ?_, w'', beq_iff_eq.1 ht ▸ hitem⟩
  exact hvars 0 (by rw [hbind]; exact List.mem_singleton_self 0) _ rfl 0 rfl 1 "x" rfl

end Infer

end ShapeFlow
