/-
# Runs that fail

A run fails if the resolver picks a routine that does not exist.  It stops in the
middle of a block, which is not queued again: a later run does not go through it,
and may converge although successors of the block have not been reached and calls
in it are not bound.  The routine was being analysed when the run failed, and it
is made good by queueing or invalidating it.  Everywhere else a run that converges
leaves nothing out.

Key definitions: `Happens`, `Program.Past`, `Routine.Followed`.
Key theorem: `Program.Past.whole_of_converged`.
-/
import ShapeFlow.Proofs.Evolution
import ShapeFlow.Proofs.Histories

namespace ShapeFlow

open ShapeFlow.Flow Infer

/-! ### Blocks that have been followed -/

namespace Routine

variable {t : ShapeTable} {n : Nat} {m : Mid} {r r' : Routine}

/-- The calls of the block have been bound. -/
def Answered (r : Routine) (b : Nat) : Prop := ∀ k name args,
  .call k name args ∈ r.graph.exprsOf b → (r.target? k).isSome = true

/-- Blocks that have been reached, and are not pending, have been gone through to the end. -/
structure Followed (r : Routine) : Prop where
  spread : r.Spread
  answered : ∀ b, (r.input? b).isSome = true → b ∈ r.pending.toList ∨ r.Answered b

theorem followed_of_unreached (h : ∀ b, r.input? b = none) : r.Followed where
  spread := Program.spread_of_unreached h
  answered b hb := by
    rw [h b] at hb
    cases hb

theorem followed_of_pending (h : ∀ b, (r.input? b).isSome = true → b ∈ r.pending.toList) :
    r.Followed where
  spread b hb := .inl (h b hb)
  answered b hb := .inl (h b hb)

theorem Followed.pile (h : r.Followed) (hp : Piles r r') : r'.Followed where
  spread b hb := by
    rw [hp.frame] at hb ⊢
    exact (h.spread b hb).imp_left (hp.kept b)
  answered b hb := by
    rw [hp.frame] at hb ⊢
    exact (h.answered b hb).imp_left (hp.kept b)

theorem Followed.grow (h : r.Followed) (hgrows : r.Grows r')
    (htargets : ∀ k, (r.target? k).isSome = true → (r'.target? k).isSome = true) : r'.Followed where
  spread := h.spread.grow hgrows
  answered b hb := by
    rcases hgrows.changed b with hsame | hpending
    · rw [hsame] at hb
      refine (h.answered b hb).imp (hgrows.pending b) fun hall k name args hcall => ?_
      rw [hgrows.graph] at hcall
      exact htargets k (hall k name args hcall)
    · exact .inl hpending

theorem Flows.followed {b : Nat} {s : State} (hflows : Flows r r' b s) (h : r.Followed) :
    r'.Followed :=
  h.grow hflows.grows fun k hk => by
    unfold target? at hk ⊢
    rw [hflows.frame]
    exact hk

theorem Tweak.followed (ht : Tweak t r r') (h : r.Followed) (hr : r.Valid t n) (htable : t.Valid) :
    r'.Followed := by
  cases ht with
  | queue hq => exact h.pile hq.toPiles
  | mark hm =>
    rw [hm.frame]
    exact { h with }
  | seed hs => exact (hr.seed_flows htable hs).2.followed h

theorem Followed.walk {c : Setting} {w w' : Walker} {q : Agenda Nat} (h : r.Followed)
    (hpop : r.pending.pop? = some (c.block, q))
    (hroutine : w.routine = { r with status := .analyzing, pending := q }) (hwalk : Walks c w w') :
    w'.routine.Followed := by
  have hgrows := hwalk.advances.toGrows
  have hreached := hwalk.reached
  rw [hroutine] at hgrows hreached
  have htargets : ∀ k, (r.target? k).isSome = true → (w'.routine.target? k).isSome = true := by
    intro k hk
    rcases hwalk.advances.targets k (fun hb => hb) with hsame | ⟨t, ht, -⟩
    · rw [hsame, hroutine]
      exact hk
    · rw [ht]
      rfl
  refine ⟨Spread.walk (r := { r with status := .analyzing }) h.spread (Agenda.pop?_spec hpop).1
    hgrows hreached, fun b hb => ?_⟩
  by_cases hblock : b = c.block
  · refine .inr fun k name args hcall => ?_
    rw [hwalk.advances.graph, hblock] at hcall
    obtain ⟨t, ht, -⟩ := hwalk.bound_of_call hcall
    rw [ht]
    rfl
  · rcases hgrows.changed b with hsame | hpending
    · rw [hsame] at hb
      rcases h.answered b hb with hpending | hall
      · rw [(Agenda.pop?_spec hpop).1] at hpending
        exact .inl (hgrows.pending b ((List.mem_cons.1 hpending).resolve_left hblock))
      · refine .inr fun k name args hcall => htargets k (hall k name args ?_)
        rw [hgrows.graph] at hcall
        exact hcall
    · exact .inl hpending

theorem Evolves.followed {i : Nat} (h : r.Evolves m r') (hm : m.Kept)
    (hr : m.program.routines[i]? = some r) (hf : r.Followed) : r'.Followed := by
  cases h with
  | stir hstirs =>
    cases hstirs with
    | tweak ht => exact ht.followed hf (hm.program.valid hr) hm.program.table
    | forget observed heq =>
      subst heq
      exact followed_of_unreached (input?_replicate (m := r.graph.size) rfl)
    | observe _ heq =>
      subst heq
      exact { hf with }
    | enter hobserving hseed =>
      have hflows := (hobserving.seed_flows hm.program.table hseed).2
      exact hflows.followed { hf with }
  | walk hpop _ _ hroutine hwalk heq =>
    subst heq
    exact hf.walk hpop hroutine hwalk

end Routine

/-! ### What runs leave to be made good -/

/-- All blocks have been followed, but for the routines in `D`. -/
def Mid.FollowedBut (m : Mid) (D : Set Nat) : Prop :=
  ∀ (i : Nat) (r : Routine), m.program.routines[i]? = some r → i ∉ D → r.Followed

variable {m m' : Mid} {D : Set Nat}

theorem Move.followedBut (h : Move m m') (hm : m.Kept) (hf : m.FollowedBut D) :
    m'.FollowedBut D := by
  intro i r' hr' hi
  rcases (h.evolves hm).back hr' with ⟨r, hr, hevolves⟩ | hfresh
  · exact hevolves.followed hm hr (hf i r hr hi)
  · exact Routine.followed_of_unreached hfresh.input?

theorem Turn.followedBut (h : Turn m m') (hm : m.Kept) (hf : m.FollowedBut D) :
    m'.FollowedBut D := by
  cases h with
  | move h => exact h.followedBut hm hf
  | @notify p sigs =>
    intro i r' hr' hi
    obtain ⟨r, hr, hpiles⟩ := (Program.notify_piles sigs p).back hr'
    exact (hf i r hr hi).pile hpiles

theorem Turns.followedBut (h : Turns m m') (hm : m.Kept) (hf : m.FollowedBut D) :
    m'.FollowedBut D := by
  induction h with
  | refl => exact hf
  | tail hturns hturn ih => exact hturn.followedBut (Turns.kept hturns hm) ih

/-- The routine is being analysed. -/
def Program.Analyzing (p : Program) (i : Nat) : Prop :=
  ∃ r, p.routines[i]? = some r ∧ r.status = .analyzing

/-- A round that fails leaves the routines it went into under analysis. -/
theorem Slip.followedBut (h : Slip m m')
    (hf : m.FollowedBut (D ∪ {i | m.program.Analyzing i})) :
    m'.FollowedBut (D ∪ {i | m'.program.Analyzing i}) := by
  cases h with
  | @enter p _ _ i _ r _ w w' hr _ _ _ hroutine henters =>
    have hstatus : w'.routine.status = .analyzing := by
      rw [henters.advances.frame, hroutine]
    intro j s hs hj
    rcases Program.of_put hr hs with ⟨rfl, rfl⟩ | ⟨-, hs'⟩
    · exact absurd (.inr ⟨w'.routine, hs, hstatus⟩) hj
    · refine hf j s hs' fun hmem => hj (hmem.imp_right ?_)
      rintro ⟨s', hget', hanalyzing⟩
      obtain rfl := Option.mem_unique hget' hs'
      exact ⟨s', hs, hanalyzing⟩
  | drop => exact hf

theorem Slips.followedBut (h : Slips m m')
    (hf : m.FollowedBut (D ∪ {i | m.program.Analyzing i})) :
    m'.FollowedBut (D ∪ {i | m'.program.Analyzing i}) := by
  induction h with
  | refl => exact hf
  | tail _ hslip ih => exact hslip.followedBut ih

/-! ### Histories with failures -/

/-- One thing that happens to a program, in a round that goes well or in one that fails. -/
def Happens (m m' : Mid) : Prop := Turn m m' ∨ Slip m m'

/-- One thing after the other. -/
abbrev Elapses : Mid → Mid → Prop := Relation.ReflTransGen Happens

theorem Elapses.kept {m m' : Mid} (h : Elapses m m') (hm : m.Kept) : m'.Kept := by
  induction h with
  | refl => exact hm
  | tail _ hone ih => exact hone.elim (·.kept ih) (·.kept ih)

namespace Program

variable {p p' : Program} {plan : Plan}

/-- The routines that were being analysed when a run failed, and have not been queued or invalidated
since, after one more operation that leads to `p`. -/
def halted (p : Program) : Action → Set Nat → Set Nat
  | .invalidate id, D | .requeue id, D => D \ {id}
  | .fail, D => D ∪ {i | p.Analyzing i}
  | .declare, D | .resolve, D | .analyze, D => D

/-- A program as it comes about, where runs of the analysis may have failed.  `D` are the
routines that were being analysed when a run failed, and have not been queued or invalidated
since. -/
abbrev Past : Program → Set Nat → Prop :=
  Recorded (fun plan => ∀ s ∈ plan.extra, s.Robust) (fun _ => True) (fun e _ p => p.halted e) ∅

theorem serves_of_robust (h : ∀ s ∈ plan.extra, s.Robust) :
    ∀ s ∈ plan.extra, s.Serves p := fun s hs => .inl (h s hs)

theorem analyze_continues (hp : p.Kept) (hextra : ∀ s ∈ plan.extra, s.Robust) {o : Outcome}
    (h : p.analyze plan = .ok o p') : Continues p p' ∧ (o.isConverged = true → p'.Quiet) :=
  (analyze_ends hp (serves_of_robust hextra)).ok h

theorem analyze_fails (hp : p.Kept) (hextra : ∀ s ∈ plan.extra, s.Robust) {f : Fault}
    (h : p.analyze plan = .error f p') : Fails p f p' := by
  have hends := analyze_ends hp (serves_of_robust hextra)
  unfold Ends at hends
  rwa [h] at hends

theorem kept_of_elapses (h : Elapses (.of .empty) (.of p)) : p.Kept :=
  (Elapses.kept h (Mid.kept_of sound_empty.toKept)).program

/-- All that has been done to a program has happened to it, from the beginning. -/
theorem Past.elapses (h : p.Past D) : Elapses (.of .empty) (.of p) := by
  have hturns : ∀ {m m' : Mid}, Turns m m' → Elapses m m' := .mono (fun _ _ => .inl) _ _
  induction h with
  | empty => exact .refl
  | next _ _ hop ih =>
    have hkept := kept_of_elapses ih
    refine ih.trans ?_
    cases hop with
    | addRoutine hadd => exact hturns (addRoutine_acts hkept hadd).moves.turns
    | declareClass name members => exact hturns (Change.declare name members).moves.turns
    | setResolver resolver => exact hturns (Change.resolve resolver).moves.turns
    | invalidate hrun => exact hturns (invalidate_moves hrun).turns
    | requeue hrun => exact hturns (requeue_acts hrun).moves.turns
    | analyze hextra hrun => exact hturns (analyze_continues hkept hextra hrun).1.turns
    | fail hextra hrun =>
      obtain ⟨p₁, hfirst, hslips⟩ := (analyze_fails hkept hextra hrun).slips
      exact (hturns hfirst).trans (.mono (fun _ _ => .inr) _ _ hslips)

theorem Past.kept (h : p.Past D) : p.Kept := kept_of_elapses h.elapses

theorem followed_of_turns (h : Turns (.of p) (.of p')) (hp : p.Kept)
    (hfollowed : ∀ r ∈ p.routines, r.Followed) : ∀ r ∈ p'.routines, r.Followed := by
  have hbut : (Mid.of p).FollowedBut ∅ := fun i r hr _ => hfollowed r (List.mem_of_getElem? hr)
  intro r hr
  obtain ⟨i, hi⟩ := List.getElem?_of_mem hr
  exact h.followedBut (Mid.kept_of hp) hbut i r hi (Set.notMem_empty i)

theorem History.followed (h : p.History) : ∀ r ∈ p.routines, r.Followed :=
  followed_of_turns h.moves.turns sound_empty.toKept fun r hr => by cases hr

theorem followedBut_put {id : Nat} {r r' : Routine} (hr : p.routines[id]? = some r)
    (hf : (Mid.of p).FollowedBut D) (hr' : r'.Followed) :
    (Mid.of (p.put id r')).FollowedBut (D \ {id}) := by
  intro i s hs hi
  rcases of_put hr hs with ⟨-, rfl⟩ | ⟨hne, hs⟩
  · exact hr'
  · exact hf i s hs fun hmem => hi ⟨hmem, fun heq => hne heq.symm⟩

theorem Past.followedBut (h : p.Past D) : (Mid.of p).FollowedBut D := by
  induction h with
  | empty => exact fun i r hr => by cases hr
  | @next p _ D _ hpast _ hop ih =>
    have hkept := Past.kept hpast
    have hmoves : ∀ {p' : Program}, Moves (.of p) (.of p') → (Mid.of p').FollowedBut D :=
      fun h => Turns.followedBut h.turns (Mid.kept_of hkept) ih
    cases hop with
    | addRoutine hadd => exact hmoves (addRoutine_acts hkept hadd).moves
    | declareClass name members => exact hmoves (Change.declare name members).moves
    | setResolver resolver => exact hmoves (Change.resolve resolver).moves
    | invalidate hrun =>
      obtain ⟨r, hr, hrest⟩ := invalidate_cases hrun
      refine Turns.followedBut hrest.moves.turns (Mid.kept_of ((Change.forget hr).kept hkept))
        (followedBut_put hr ih ?_)
      exact Routine.followed_of_unreached (Routine.input?_replicate (m := r.graph.size) rfl)
    | requeue hrun =>
      obtain ⟨r, hr, rfl⟩ := requeue_cases hrun
      refine followedBut_put hr ih (Routine.followed_of_pending fun b hb => ?_)
      exact Agenda.mem_insertAll.2 (.inr (Routine.mem_reached.2 hb))
    | analyze hextra hrun =>
      exact Turns.followedBut (analyze_continues hkept hextra hrun).1.turns (Mid.kept_of hkept) ih
    | fail hextra hrun =>
      obtain ⟨p1, hturns, hslips⟩ := (analyze_fails hkept hextra hrun).slips
      have hf := Turns.followedBut hturns (Mid.kept_of hkept) ih
      exact Slips.followedBut hslips fun i r hr hi => hf i r hr fun hmem => hi (.inl hmem)

/-! ### What a run that converges leaves out -/

/-- **After a failure**, a run that converges has gone through everything, but perhaps not in
the routines that were being analysed when a run failed and have not been queued or
invalidated since: every block that can be reached has an input, and every call in it a
target. -/
theorem Past.whole_of_converged (h : p.Past D) {plan : Plan} (hextra : ∀ s ∈ plan.extra, s.Robust)
    {n : Nat} (hrun : p.analyze plan = .ok (.converged n) p') {i : Nat} {r : Routine}
    (hr : p'.routines[i]? = some r) (hi : i ∉ D) {b : Nat} (hb : r.graph.Reach b) :
    (r.input? b).isSome = true ∧ ∀ k name args, .call k name args ∈ r.graph.exprsOf b →
      (r.target? k).isSome = true := by
  obtain ⟨hcont, hquiet⟩ := analyze_continues h.kept hextra hrun
  have hmem := List.mem_of_getElem? hr
  have hidle := hquiet rfl r hmem
  have hfollowed : r.Followed :=
    Turns.followedBut hcont.turns (Mid.kept_of h.kept) h.followedBut i r hr hi
  have hreached := hfollowed.spread.complete (hcont.entered r hmem) hidle b hb
  refine ⟨hreached, ?_⟩
  rcases hfollowed.answered b hreached with hpending | hall
  · rw [hidle] at hpending
    cases hpending
  · exact hall

theorem past_ofDecls (ds : List RoutineDecl) : (ofDecls ds).Past ∅ :=
  ofDecls_induct (P := fun p => p.Past ∅) .empty (fun _ _ _ _ h hadd => h.next trivial (.addRoutine hadd)) ds

/-- `main` calls `f`, then perhaps again. -/
def twice : List RoutineDecl :=
  [{ name := "main"
     body := [.eval (.call () "f" []), .branch (.var () "x") [.eval (.call () "f" [])] []] },
   { name := "f", body := [] }]

/-- What a run that goes astray leaves of `twice`, with another resolver and `main` queued again. -/
def resumed : Program :=
  match ({ astray twice with resolver := .mostSpecific } : Program).requeue 0 with
  | .ok p => p
  | .error _ => astray twice

theorem past_astray : (astray twice).Past (∅ ∪ {i | (astray twice).Analyzing i}) := by
  obtain ⟨f, hrun⟩ := analyze_misled twice (by decide +kernel)
  exact ((past_ofDecls twice).next trivial (.setResolver _)).next trivial (.fail (by simp) hrun)

theorem past_resumed : resumed.Past ((∅ ∪ {i | (astray twice).Analyzing i}) \ {0}) := by
  have hok : (({ astray twice with resolver := .mostSpecific } : Program).requeue 0).isOk = true := by
    decide +kernel
  unfold resumed
  rcases hrun : ({ astray twice with resolver := .mostSpecific } : Program).requeue 0 with f | p'
  · rw [hrun] at hok
    cases hok
  · exact (past_astray.next trivial (.setResolver _)).next trivial (.requeue hrun)

theorem resumed_whole : ∃ n p' r, resumed.analyze {} = .ok (.converged n) p' ∧
    p'.routines[0]? = some r ∧ r.graph.Reach 1 ∧ (r.input? 1).isSome = true ∧
    ∀ k name args, .call k name args ∈ r.graph.exprsOf 1 → (r.target? k).isSome = true := by
  obtain ⟨n, p', hrun, hgood⟩ := exists_converged resumed {}
    (fun p' => p'.routines[0]?.any fun r => (r.input? 1).isSome) (by decide +kernel)
  have hkept := (analyze_continues past_resumed.kept (by simp) hrun).1.kept past_resumed.kept
  rcases hr : p'.routines[0]? with _ | r
  · rw [hr] at hgood
    cases hgood
  · rw [hr] at hgood
    have hreach := (hkept.valid hr).reach 1 hgood
    obtain ⟨hinput, hcalls⟩ :=
      past_resumed.whole_of_converged (by simp) hrun hr (fun h => h.2 rfl) hreach
    exact ⟨n, p', r, hrun, hr, hreach, hinput, hcalls⟩

end Program

end ShapeFlow
