/-
# Results that can be used

How far the analysis of a routine has come, and which of its blocks are pending, is kept apart:
entering queues the entry only if something new flows into it, draining empties the queue, and
operations between runs touch one or the other.  What ties them together: a routine that has
not been drained since it was made or invalidated is pending from the time it is entered.  So
when nothing is pending, all routines have been drained; and the program is only said to have
converged when they are stable and nothing is pending.

Key definitions: `Routine.Raw`, `Routine.DueIfEntered`, `Routine.Due`, `Program.Rests`, `Program.Ready`.
Key theorems: `Routine.Touch.due`, `Program.rests_of_converged`, `Program.stable_of_results`.
-/
import ShapeFlow.Proofs.Cloning

namespace ShapeFlow

open ShapeFlow.Flow Infer
open List hiding set

/-! ### Routines that have not been drained -/

namespace Routine

variable {r r' : Routine} {changed : Bool}

/-- It has not been drained since it was made or invalidated. -/
def Raw (r : Routine) : Prop := r.status = .unanalyzed ∨ r.status = .invalidated

/-- If it has not been drained, it is pending. -/
def Due (r : Routine) : Prop := r.Raw → r.isPending = true

/-- If it has been entered and has not been drained, it is pending. -/
def DueIfEntered (r : Routine) : Prop :=
  r.Raw → (r.input? Graph.entry).isSome = true → r.isPending = true

theorem dueIfEntered_of_unreached (h : r.input? Graph.entry = none) : r.DueIfEntered := by
  intro _ hentered
  rw [h] at hentered
  cases hentered

theorem isPending_queue (r : Routine) (b : Nat) : (r.queue b).isPending = true := by
  rw [Program.isPending_iff]
  exact ne_nil_of_mem (Agenda.mem_insert.2 (.inr rfl))

theorem Piles.isPending (h : r.Piles r') (hr : r.isPending = true) : r'.isPending = true := by
  obtain ⟨b, hb⟩ := exists_mem_of_ne_nil _ (Program.isPending_iff.1 hr)
  exact Program.isPending_iff.2 (ne_nil_of_mem (h.kept b hb))

theorem seed_cases (h : r.seed = .ok (changed, r')) :
    r'.isPending = true ∨ r' = r ∧ (r.input? Graph.entry).isSome = true := by
  unfold seed flowInto at h
  split at h
  · cases h
    exact .inl (isPending_queue _ _)
  next old hold =>
    obtain ⟨new, -, h⟩ := ok_of_except h
    split at h <;> cases h
    · exact .inr ⟨rfl, by rw [hold]; rfl⟩
    · exact .inl (isPending_queue _ _)

theorem isPending_clone {clone : Routine} {id : Nat} {tuple : Tuple}
    (h : (r.clone id tuple).seed = .ok (changed, clone)) : clone.isPending = true := by
  refine (seed_cases h).resolve_right fun hentered => ?_
  rw [input?_replicate (m := r.graph.size) rfl] at hentered
  cases hentered.2

theorem Touch.raw (h : Touch r r') (hraw : r'.Raw) :
    r.Raw ∧ (r.isPending = true → r'.isPending = true) := by
  cases h with
  | queue h =>
    rw [Raw, h.frame] at hraw
    exact ⟨hraw, h.isPending⟩
  | enter h =>
    rw [Raw, (heeds_flowInto (d := True) (N := fun _ => False) h).status] at hraw
    refine ⟨hraw, fun hpending => ?_⟩
    rcases seed_cases h with hqueued | ⟨rfl, -⟩
    · exact hqueued
    · exact hpending
  | drain _ h =>
    rw [Raw, h.status] at hraw
    rcases hraw with hraw | hraw <;> cases hraw
  | rest => rcases hraw with hraw | hraw <;> cases hraw
  | observe | mark => exact ⟨hraw, fun h => h⟩

theorem Touch.due (h : Touch r r') (hr : r.Due) : r'.Due := fun hraw =>
  (h.raw hraw).2 (hr (h.raw hraw).1)

theorem Touch.dueIfEntered (h : Touch r r') (hr : r.DueIfEntered) : r'.DueIfEntered := by
  intro hraw hentered
  obtain ⟨hraw0, hkept⟩ := h.raw hraw
  by_cases hpending : r'.isPending = true
  · exact hpending
  -- then the touch has not entered the routine, so it was entered before
  have hbefore : (r.input? Graph.entry).isSome = true := by
    cases h with
    | queue h =>
      rw [h.frame] at hentered
      exact hentered
    | enter h => exact ((seed_cases h).resolve_left hpending).2
    | drain _ h =>
      rw [Raw, h.status] at hraw
      rcases hraw with hraw | hraw <;> cases hraw
    | observe | rest | mark => exact hentered
  exact hkept (hr hraw0 hbefore)

theorem DueIfEntered.enter (hr : r.DueIfEntered) (h : r.enter = .ok r') : r'.Due := by
  intro hraw
  rcases Program.enterOne_cases h with ⟨changed, hseed⟩ | ⟨rfl, hstatus⟩
  · rcases seed_cases hseed with hqueued | ⟨rfl, hentered⟩
    · exact hqueued
    · exact hr hraw hentered
  · rcases hstatus with hstatus | hstatus <;> rw [Raw, hstatus] at hraw <;>
      rcases hraw with hraw | hraw <;> cases hraw

end Routine

namespace Program

variable {p p' : Program} {plan : Plan}

/-! ### Programs at rest -/

/-- Every routine is stable, with nothing pending. -/
def Rests (p : Program) : Prop := ∀ r ∈ p.routines, r.status = .stable ∧ r.pending.toList = []

theorem rests_markStable (hquiet : p.Quiet) (hdue : ∀ r ∈ p.routines, r.Due) :
    p.markStable.Rests := by
  intro r' hr'
  obtain ⟨r, hr, rfl⟩ := mem_map.1 hr'
  have hidle : r.isPending = false := by
    rw [← Bool.not_eq_true, isPending_iff, not_not]
    exact hquiet r hr
  have hnotRaw : ¬ r.Raw := fun hraw => by
    rw [hdue r hr hraw] at hidle
    cases hidle
  by_cases hanalyzing : r.status = .analyzing
  · rw [if_pos (by simp [hanalyzing, hidle])]
    exact ⟨rfl, hquiet r hr⟩
  · rw [if_neg (by simp [hanalyzing])]
    refine ⟨?_, hquiet r hr⟩
    rcases hstatus : r.status with _ | _ | _ | _
    · exact absurd (.inl hstatus) hnotRaw
    · exact absurd hstatus hanalyzing
    · rfl
    · exact absurd (.inr hstatus) hnotRaw

theorem Rests.sameDue (h : p.Rests) (hp : p.SameDue p') : p'.Rests := by
  intro r' hr'
  obtain ⟨r, hr, hstatus, hpending⟩ := hp r' hr'
  rw [hstatus, hpending]
  exact h r hr

/-! ### Runs -/

theorem Paces.keep {P : Routine → Prop} (hP : ∀ {r r' : Routine}, Routine.Touch r r' → P r → P r')
    (hset : ∀ {r : Routine} (candidates applied : List Tuple), P r → P { r with candidates, applied })
    (hclone : ∀ {r clone : Routine} {id : Nat} {tuple : Tuple} {changed : Bool},
      (r.clone id tuple).seed = .ok (changed, clone) → P clone)
    (h : Paces plan p p') (hp : ∀ r ∈ p.routines, P r) : ∀ r ∈ p'.routines, P r := by
  have hput : ∀ {p : Program} {i : Nat} {r : Routine} (candidates applied : List Tuple),
      (∀ r ∈ p.routines, P r) → p.routines[i]? = some r →
      ∀ s ∈ (p.put i { r with candidates, applied }).routines, P s := by
    intro p i r candidates applied hp hr s hs
    rcases mem_or_eq_of_mem_set hs with hs | rfl
    · exact hp s hs
    · exact hset _ _ (hp r (mem_of_getElem? hr))
  induction h with
  | refl => exact hp
  | tail _ hpace ih =>
    cases hpace with
    | tend h => exact h.keep hP ih
    | say | consult => exact ih
    | propose set hr => exact hput set _ ih hr
    | clone hr _ _ _ hseed =>
      intro s hs
      rcases mem_append.1 hs with hs | hs
      · exact hput _ _ ih hr s hs
      · exact mem_singleton.1 hs ▸ hclone hseed

theorem Paces.due (h : Paces plan p p') (hp : ∀ r ∈ p.routines, r.Due) : ∀ r ∈ p'.routines, r.Due :=
  h.keep Routine.Touch.due (fun _ _ h => h) (fun hseed _ => Routine.isPending_clone hseed) hp

theorem Paces.dueIfEntered (h : Paces plan p p') (hp : ∀ r ∈ p.routines, r.DueIfEntered) :
    ∀ r ∈ p'.routines, r.DueIfEntered :=
  h.keep Routine.Touch.dueIfEntered (fun _ _ h => h) (fun hseed _ _ => Routine.isPending_clone hseed) hp

theorem rests_of_converged (hp : p.Numbered) (hdueIf : ∀ r ∈ p.routines, r.DueIfEntered) {o : Outcome}
    (h : p.analyze plan = .ok o p') (ho : o.isConverged = true) : p'.Rests := by
  obtain ⟨-, -, -, hends⟩ := (analyze_paces hp).ok h
  obtain ⟨rs, p1, hrun, hpaces, hquiet, hidles⟩ := hends ho
  have hdue : ∀ r ∈ rs, r.Due := by
    intro s hs
    obtain ⟨hlength, hget⟩ := forall₂_iff_get.1 (enterAll_enter hrun)
    obtain ⟨i, hi, rfl⟩ := mem_iff_getElem.1 hs
    exact (hdueIf _ (getElem_mem _)).enter (hget i (hlength ▸ hi) hi)
  exact (rests_markStable hquiet (hpaces.due hdue)).sameDue hidles

/-! ### Operations -/

/-- What is kept of a program: routines that were entered and not drained are pending, and a
program that is said to have converged is at rest. -/
structure Ready (p : Program) : Prop where
  numbered : p.Numbered
  dueIfEntered : ∀ r ∈ p.routines, r.DueIfEntered
  rests : p.outcome.any Outcome.isConverged = true → p.Rests

variable {P : Plan → Prop}

theorem Ready.unsaid (hnumbered : p.Numbered) (hdueIf : ∀ r ∈ p.routines, r.DueIfEntered)
    (houtcome : p.outcome = none) : p.Ready :=
  ⟨hnumbered, hdueIf, fun h => by rw [houtcome] at h; cases h⟩

theorem Operation.ready {e : Action} (h : Operation P e p p') (hp : p.Ready) : p'.Ready := by
  cases h with
  | addRoutine h =>
    obtain ⟨r, table, hdecl, -, rfl⟩ := addRoutine_cases h
    obtain ⟨params, graph, rfl, -⟩ := Routine.ofDecl_eq hdecl
    refine .unsaid (numbered_push (p := { p with table }) hp.numbered rfl) (fun s hs => ?_) rfl
    rcases mem_append.1 hs with hs | hs
    · exact hp.dueIfEntered s hs
    · obtain rfl := mem_singleton.1 hs
      exact Routine.dueIfEntered_of_unreached (Routine.input?_replicate (m := graph.size) rfl _)
  | declareClass | setResolver => exact ⟨hp.numbered, hp.dueIfEntered, hp.rests⟩
  | @invalidate _ _ id h =>
    obtain ⟨r, hr, rfl⟩ := invalidate_eq h
    obtain ⟨q, hq⟩ : ∃ q, q = p.put id (p.forgotten id r) := ⟨_, rfl⟩
    have hnumbered : q.Numbered := hq ▸ numbered_put hp.numbered hr rfl
    have hdueIf : ∀ s ∈ q.routines, s.DueIfEntered := by
      intro s hs
      rw [hq] at hs
      rcases mem_or_eq_of_mem_set hs with hs | rfl
      · exact hp.dueIfEntered s hs
      · exact Routine.dueIfEntered_of_unreached (Routine.input?_replicate (m := r.graph.size) rfl _)
    have htends := tends_requeueCallers q id
    have hdueIf' := htends.keep Routine.Touch.dueIfEntered hdueIf
    rw [← hq]
    exact .unsaid (htends.gains.numbered hnumbered) hdueIf' rfl
  | @requeue _ _ id h =>
    obtain ⟨r, hr, rfl⟩ := requeue_cases h
    have htends : p.Tends (p.put id { r with pending := r.pending.insertAll r.reached }) :=
      tends_put hr (.single (.queue (Routine.queues_reached r).toPiles))
    have hdueIf := htends.keep Routine.Touch.dueIfEntered hp.dueIfEntered
    exact .unsaid (htends.gains.numbered hp.numbered) hdueIf rfl
  | analyze _ h =>
    obtain ⟨hpaces, houtcome, -⟩ := (analyze_paces hp.numbered).ok h
    refine ⟨hpaces.numbered (p := p.cleared) hp.numbered, hpaces.dueIfEntered (p := p.cleared)
      hp.dueIfEntered, fun hconverged => rests_of_converged hp.numbered hp.dueIfEntered h ?_⟩
    rw [houtcome] at hconverged
    exact hconverged
  | fail _ h =>
    have hpaces := (analyze_paces hp.numbered).error h
    exact .unsaid (hpaces.numbered (p := p.cleared) hp.numbered)
      (hpaces.dueIfEntered (p := p.cleared) hp.dueIfEntered) hpaces.outcome

theorem Lives.ready (h : Lives P .empty p) : p.Ready := by
  induction h with
  | refl => exact .unsaid numbered_empty (fun _ hr => by cases hr) rfl
  | tail _ hop ih =>
    obtain ⟨_, -, hop⟩ := hop
    exact hop.ready ih

/-- **Results can be used only at rest.**  Whatever has been done to a program, failed runs
included: if it gives its results, every routine is stable and nothing is pending. -/
theorem stable_of_results (h : Lives P .empty p) {q : Program} (hresults : p.results = .ok q) :
    ∀ r ∈ q.routines, r.status = .stable ∧ r.pending.toList = [] := by
  unfold results at hresults
  split at hresults
  next hconverged =>
    cases hresults
    exact (Lives.ready h).rests hconverged
  next => cases hresults

/-- What a run that goes astray leaves of `pairing`, with another resolver and without what was found
out about `main`. -/
def recovered : Program :=
  match ({ astray pairing with resolver := .mostSpecific } : Program).invalidate 1 with
  | .ok p => p
  | .error _ => astray pairing

theorem lives_recovered : Lives (fun _ => True) .empty recovered := by
  have hastray : Lives (fun _ => True) .empty (astray pairing) := by
    obtain ⟨f, hrun⟩ := analyze_misled pairing (by decide +kernel)
    exact ((operations_ofDecls trivial pairing).tail ⟨_, trivial, .setResolver _⟩).tail
      ⟨_, trivial, .fail trivial hrun⟩
  unfold recovered
  rcases hrun : ({ astray pairing with resolver := .mostSpecific } : Program).invalidate 1 with f | p
  · exact hastray
  · exact (hastray.tail ⟨_, trivial, .setResolver _⟩).tail ⟨_, trivial, .invalidate hrun⟩

theorem recovered_stable : recovered.results.isOk = false ∧
    ∃ n p, recovered.analyze (repeatedly true) = .ok (.converged n) p ∧ p.results = .ok p ∧
      0 < p.cloneCount ∧ ∀ r ∈ p.routines, r.status = .stable ∧ r.pending.toList = [] := by
  refine ⟨by decide +kernel, ?_⟩
  obtain ⟨n, p, hrun, hgood⟩ := exists_converged recovered (repeatedly true)
    (fun p => p.outcome.any Outcome.isConverged && decide (0 < p.cloneCount)) (by decide +kernel)
  rw [Bool.and_eq_true, decide_eq_true_eq] at hgood
  have hresults : p.results = .ok p := if_pos hgood.1
  have hlife := lives_recovered.tail ⟨_, trivial, .analyze trivial hrun⟩
  exact ⟨n, p, hrun, hresults, hgood.2, stable_of_results hlife hresults⟩

end Program
end ShapeFlow
