/-
# Knowledge only grows

An operation on a program, a run that fails included, takes nothing back: shapes keep
their indices, calls and their arguments stay recorded, and of every routine that it does
not invalidate as much is known as before, or more.  For a routine this is `Routine.Le`:
inputs of blocks rise in the order of states, types of expressions, variables, statics,
returns and observed arguments become larger sets, and a read that was possibly
uninitialized stays so.

Key definitions: `Strategy.Appends`, `Program.Accrues`.
Key theorems: `Strategy.builtin_appends`, `Program.Stride.accrues`, `Program.operation_accrues`.
-/
import ShapeFlow.Proofs.Strides

namespace ShapeFlow

open ShapeFlow.Flow ShapeTable List

/-! ### Reading hints -/

section Appends

variable {α β : Type}

/-- The step adds shapes to the table at most. -/
def Appends (m : StateM ShapeTable α) : Prop := ∀ t : ShapeTable, t.Extends (m.run t).2

theorem appends_pure (a : α) : Appends (pure a) := fun t => .refl t

variable {f : α → StateM ShapeTable β}

theorem Appends.bind {m : StateM ShapeTable α} (h : Appends m) (hf : ∀ a, Appends (f a)) :
    Appends (m >>= f) :=
  fun t => (h t).trans (hf _ _)

theorem appends_mapM (hf : ∀ a, Appends (f a)) :
    ∀ l : List α, Appends (l.mapM f)
  | [] => by
    rw [mapM_nil]
    exact appends_pure []
  | a :: l => by
    rw [mapM_cons]
    exact (hf a).bind fun b => (appends_mapM hf l).bind fun bs => appends_pure (b :: bs)

theorem appends_mapOption (hf : ∀ a, Appends (f a)) : ∀ o : Option α, Appends (o.mapM f)
  | none => appends_pure none
  | some a => (hf a).bind fun b => appends_pure (some b)

theorem appends_foldlM {f : β → α → StateM ShapeTable β} (hf : ∀ b a, Appends (f b a)) :
    ∀ (l : List α) (b : β), Appends (l.foldlM f b)
  | [], b => appends_pure b
  | a :: l, b => by
    rw [foldlM_cons]
    exact (hf b a).bind fun b' => appends_foldlM hf l b'

theorem appends_named (name : String) : Appends (modifyGet fun t => t.named name) :=
  fun t => extends_intern t (.named name)

theorem appends_arrayOf (s : TypeSet) : Appends (modifyGet fun t => t.arrayOf s) :=
  fun t => extends_arrayOf t s

end Appends

theorem Hint.appends_types (h : Hint) : Appends h.types := fun t => (h.interned_types t).extends

theorem ParamDecl.appends_defaultTypes (e : Expr Unit) : Appends (ParamDecl.defaultTypes e) := by
  unfold ParamDecl.defaultTypes
  split
  · exact appends_pure _
  · exact appends_arrayOf .void
  · exact appends_pure _

theorem ParamDecl.appends_param (d : ParamDecl) : Appends d.param := by
  have hrest : ∀ s : TypeSet, Appends (do
      let doc ← d.doc.mapM Hint.types
      let default ← d.default.mapM ParamDecl.defaultTypes
      return { name := d.name, var := 0, declared := s, doc, byRef := d.byRef, default : Param }) :=
    fun s => (appends_mapOption Hint.appends_types d.doc).bind fun doc =>
      (appends_mapOption ParamDecl.appends_defaultTypes d.default).bind fun default =>
        appends_pure _
  unfold ParamDecl.param
  rcases d.hint with _ | h
  · exact (appends_pure TypeSet.any).bind hrest
  · exact (Hint.appends_types h).bind hrest

theorem Routine.ofDecl_extends {id : Nat} {d : RoutineDecl} {t t' : ShapeTable} {r : Routine}
    (h : Routine.ofDecl id d t = .ok (r, t')) : t.Extends t' := by
  obtain ⟨params, graph, -, hparams⟩ := Routine.ofDecl_eq h
  have hext := appends_mapM ParamDecl.appends_param d.params t
  rwa [hparams] at hext

/-! ### Strategies -/

namespace Strategy

/-- The strategy adds shapes to the table at most. -/
def Appends (s : Strategy) : Prop := ∀ p r, ShapeFlow.Appends (s p r)

theorem byUsage_appends (maxClasses : Nat) : (byUsage maxClasses).Appends := by
  intro p r
  have hproposal : ∀ ev : Evidence, ShapeFlow.Appends (ev.proposal maxClasses) := by
    intro ev
    have hlast : ∀ s : TypeSet, ShapeFlow.Appends (pure (if s.isVoid then none else some s)) :=
      fun s => appends_pure _
    unfold Evidence.proposal
    simp only
    split
    · exact (appends_pure _).bind hlast
    · exact (appends_foldlM (fun s name => (appends_named name).bind fun new => appends_pure _)
        _ _).bind hlast
  unfold byUsage
  exact (appends_mapM (fun i => hproposal _) _).bind fun proposed => appends_pure _

theorem builtin_appends (c : Config) : ∀ s ∈ c.builtin, s.Appends := by
  intro s hs
  simp only [Config.builtin, mem_append] at hs
  rcases hs with ((hs | hs) | hs) | hs
  all_goals
    split at hs
    · obtain rfl := mem_singleton.1 hs
      first
        | exact byUsage_appends c.maxClasses
        | exact fun p r => appends_pure _
    · cases hs

end Strategy

namespace Program

variable {p p' p'' : Program} {lost : Option Nat}

/-! ### What is not taken back -/

/-- Nothing that was known is taken back, except of the routine that was lost, if one was. -/
structure Accrues (lost : Option Nat) (p p' : Program) : Prop where
  table : p.table.Extends p'.table
  calls : ∀ i : Nat, Climbs p.calls.edges[i]? p'.calls.edges[i]?
  routines : ∀ i : Nat, lost ≠ some i → Climbs p.routines[i]? p'.routines[i]?

theorem routines_climb_refl (p : Program) (i : Nat) : Climbs p.routines[i]? p.routines[i]? :=
  .refl Routine.le_refl _

theorem Accrues.refl (p : Program) : p.Accrues lost p :=
  ⟨.refl _, calls_climb_refl p, fun i _ => routines_climb_refl p i⟩

theorem Accrues.trans (h : p.Accrues lost p') (h' : p'.Accrues lost p'') : p.Accrues lost p'' where
  table := h.table.trans h'.table
  calls i := (h.calls i).trans (fun _ _ _ => CallEdge.le_trans) (h'.calls i)
  routines i hi := (h.routines i hi).trans (fun _ _ _ => Routine.le_trans) (h'.routines i hi)

theorem Gains.accrues (h : p.Gains p') : p.Accrues lost p' where
  table := h.table
  calls := h.calls
  routines i _ := by
    obtain ⟨hlen, hall⟩ := forall₂_iff_get.1 h.routines
    intro r hr
    obtain ⟨hi, rfl⟩ := List.getElem?_eq_some_iff.1 hr
    exact ⟨_, getElem?_eq_getElem (hlen ▸ hi), (hall i hi (hlen ▸ hi)).toLe⟩

theorem accrues_put {i : Nat} {r r' : Routine} (hr : p.routines[i]? = some r)
    (h : lost ≠ some i → r ≤ r') : p.Accrues lost (p.put i r') where
  table := .refl _
  calls := calls_climb_refl p
  routines j hj := by
    rw [routines_put hr]
    split
    next heq =>
      subst heq
      rw [hr]
      exact persists_some (h hj)
    next => exact routines_climb_refl p j

theorem accrues_push (p : Program) (r : Routine) : p.Accrues lost (p.push r) where
  table := .refl _
  calls := calls_climb_refl p
  routines i _ := persists_append Routine.le_refl _ _ i

theorem accrues_table {table : ShapeTable} (h : p.table.Extends table) :
    p.Accrues lost { p with table } :=
  ⟨h, calls_climb_refl p, fun i _ => routines_climb_refl p i⟩

/-! ### Operations -/

variable {plan : Plan}

theorem Stride.accrues (hplan : ∀ s ∈ plan.strategies, s.Appends) (h : Stride plan p p') :
    p.Accrues lost p' := by
  cases h with
  | gain h => exact h.accrues
  | consult q r hs => exact accrues_table (hplan _ hs q r p.table)
  | @propose i r set hr =>
    exact accrues_put hr fun _ => { Routine.le_refl r with text := rfl }
  | @clone i r tuple hr =>
    have hnote : p.Accrues lost (p.put i (noting r tuple)) :=
      accrues_put hr fun _ => { Routine.le_refl r with text := rfl }
    exact hnote.trans (accrues_push _ _)

theorem Strides.accrues (hplan : ∀ s ∈ plan.strategies, s.Appends) (h : Strides plan p p') :
    p.Accrues lost p' := by
  induction h with
  | refl => exact .refl p
  | tail _ hstride ih => exact ih.trans (hstride.accrues hplan)

/-- The plan's own strategies only add shapes. -/
def Appending (plan : Plan) : Prop := ∀ s ∈ plan.extra, s.Appends

theorem Appending.strategies (h : Appending plan) : ∀ s ∈ plan.strategies, s.Appends := by
  intro s hs
  rcases mem_append.1 hs with hs | hs
  · exact Strategy.builtin_appends plan.config s hs
  · exact h s hs

/-- The routine that is invalidated, if one is. -/
def Action.invalidated : Action → Option Nat
  | .invalidate id => some id
  | _ => none

/-- **Knowledge only grows.**  Whatever has been done to a program, one more operation takes
nothing back of what is known, except of the routine it invalidates.  This holds of runs with
any outcome and of runs that fail. -/
theorem operation_accrues {P : Plan → Prop} (hlife : Lives P .empty p)
    {e : Action} (h : Operation Appending e p p') : p.Accrues e.invalidated p' := by
  have hp : p.Numbered := hlife.numbered
  cases h with
  | addRoutine h =>
    obtain ⟨r, table, hdecl, -, rfl⟩ := addRoutine_cases h
    have htable : p.Accrues none { p with table } := accrues_table (Routine.ofDecl_extends hdecl)
    exact (htable.trans (accrues_push _ r)).trans (gains_rest _ _ _ _ _).accrues
  | declareClass | setResolver => exact (gains_rest p _ _ _ _).accrues
  | @invalidate _ _ id h =>
    obtain ⟨r, hr, hgains⟩ := invalidate_gains h
    exact (accrues_put hr fun hne => absurd rfl hne).trans hgains.accrues
  | requeue h => exact (requeue_gains h).accrues
  | analyze hplan h => exact ((analyze_strides hp).ok h).1.accrues hplan.strategies
  | fail hplan h => exact ((analyze_strides hp).error h).accrues hplan.strategies

/-- The call is redirected, also by another run once the first routine has been invalidated. -/
def redirectedAgain (p : Program) : Bool :=
  p.redirected && match p.invalidate 0 with
    | .ok p' => match p'.analyze {} with
      | .ok o q => o.isConverged && q.redirected
      | .error _ _ => false
    | .error _ => false

theorem rerun_recursive_accrues : ∃ n p' p'' m q,
    (ofDecls recursive).analyze {} = .ok (.converged n) p' ∧ p'.redirected = true ∧
    p'.invalidate 0 = .ok p'' ∧ p'.Accrues (some 0) p'' ∧
    p''.analyze {} = .ok (.converged m) q ∧ p''.Accrues none q ∧ q.redirected = true := by
  obtain ⟨n, p', hrun, hgood⟩ :=
    exists_converged (ofDecls recursive) {} redirectedAgain (by decide +kernel)
  obtain ⟨htarget, hagain⟩ := Bool.and_eq_true_iff.1 hgood
  have hplan : Appending {} := by simp [Appending]
  have hlife : Lives Appending .empty p' :=
    (operations_ofDecls trivial recursive).tail ⟨_, trivial, .analyze hplan hrun⟩
  rcases hinvalidate : p'.invalidate 0 with _ | p'' <;> rw [hinvalidate] at hagain
  · cases hagain
  obtain ⟨m, q, hrerun, hkept⟩ := exists_converged p'' {} redirected hagain
  have hlife' : Lives Appending .empty p'' := hlife.tail ⟨_, trivial, .invalidate hinvalidate⟩
  exact ⟨n, p', p'', m, q, hrun, htarget, hinvalidate,
    operation_accrues hlife (.invalidate hinvalidate), hrerun,
    operation_accrues hlife' (.analyze hplan hrerun), hkept⟩

end Program
end ShapeFlow
