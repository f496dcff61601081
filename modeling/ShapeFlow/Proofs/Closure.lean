/-
# Closure across routines

Routines are analysed one by one, against signatures that may be out of date, so
what they find out about each other has to be carried over: arguments into the
callees, return types back to the callers.  At any time whatever has not been
carried over is still due: a call whose callee returns more than it knows is in
a pending block, and an argument its callee has not seen is in a report.  Once
nothing is pending, nothing is left out.

Key definitions: `Mid.Returned`, `Mid.Observed`, `Routine.Received`.
Key theorems: `Move.returned`, `Move.observed`, `Program.History.closed_of_converged`.
-/
import ShapeFlow.Proofs.Evolution
import ShapeFlow.Proofs.Histories

namespace ShapeFlow

open ShapeFlow.Flow Infer List TypeSet

/-! ### The entry covers what was seen -/

namespace Routine

variable {r r' : Routine} {f : Nat → Param → TypeSet} {q : Param} {i : Nat} {m : Mid}

theorem slot_enter_of_ne {v : Nat} :
    ∀ {ps : List Param} {k : Nat} {s : State}, (∀ p ∈ ps, p.var ≠ v) →
    ((ps.zipIdx k).foldl (fun s x => s.assign x.1.var (f x.2 x.1)) s).slot v = s.slot v
  | [], _, _, _ => rfl
  | p :: ps, k, s, h => by
    rw [zipIdx_cons, foldl_cons,
      slot_enter_of_ne fun q hq => h q (.tail _ hq), State.slot_assign,
      if_neg (h p (.head _))]

theorem slot_enter :
    ∀ {ps : List Param} {i k : Nat} {s : State}, ps[i]? = some q →
    (∀ j p, ps[j]? = some p → p.var = q.var → j = i) →
    ((ps.zipIdx k).foldl (fun s x => s.assign x.1.var (f x.2 x.1)) s).slot q.var = f (k + i) q
  | [], i, _, _, h, _ => by simp at h
  | p :: ps, 0, k, s, h, hone => by
    obtain rfl : p = q := by simpa using h
    rw [zipIdx_cons, foldl_cons, slot_enter_of_ne, State.slot_assign, if_pos rfl]
    · rfl
    · intro p' hp' heq
      obtain ⟨j, hj⟩ := getElem?_of_mem hp'
      have := hone (j + 1) p' (by simpa using hj) heq
      omega
  | p :: ps, i + 1, k, s, h, hone => by
    rw [zipIdx_cons, foldl_cons, slot_enter (i := i) (by simpa using h)]
    · rw [Nat.add_right_comm, Nat.add_assoc]
    · intro j p' hj heq
      have := hone (j + 1) p' (by simpa using hj) heq
      omega

theorem Valid.slot_entryState {t : ShapeTable} {n : Nat} (h : r.Valid t n)
    (hnames : (r.params.map (·.name)).Nodup) (hq : r.params[i]? = some q) :
    r.entryState.slot q.var = (r.entryTypes i q).plain := by
  have hone : ∀ j p, r.params[j]? = some p → p.var = q.var → j = i := by
    intro j p hp hvar
    have hp' := (h.params p (mem_of_getElem? hp)).1
    have hq' := (h.params q (mem_of_getElem? hq)).1
    rw [hvar, hq'] at hp'
    have hname : q.name = p.name := Option.some.inj hp'
    have hj : (r.params.map (·.name))[j]? = some p.name := by rw [getElem?_map, hp]; rfl
    have hi : (r.params.map (·.name))[i]? = some p.name := by rw [getElem?_map, hq, ← hname]; rfl
    exact (getElem?_inj (lt_of_getElem? hj) hnames).1 (hj.trans hi.symm)
  have := slot_enter (f := fun i p => (r.entryTypes i p).plain) (k := 0)
    (s := State.start r.scope) hq hone
  rwa [Nat.zero_add] at this

/-- The entry block has taken in the state that the routine is entered in. -/
def Received (r : Routine) : Prop := ∀ s, r.input? Graph.entry = some s → r.entryState ≤ s

theorem entryState_observing {args : Tuple} (h : r.exported = true ∨ r.fixed ≠ none) :
    (Program.observing r args).entryState = r.entryState := by
  have htypes : (Program.observing r args).entryTypes = r.entryTypes := by
    funext i p
    unfold entryTypes Program.observing
    rcases h with h | h
    · simp [h]
    · rcases hf : r.fixed with _ | tuple
      · exact absurd hf h
      · rfl
  unfold Routine.entryState
  rw [htypes]
  rfl

theorem SameText.entryState (h : SameText r r') (hobserved : r'.observed = r.observed) :
    r'.entryState = r.entryState := by
  have htypes : r'.entryTypes = r.entryTypes := by
    funext i p
    unfold entryTypes
    rw [h.fixed, h.exported, hobserved]
  have hstart : State.start r'.scope = State.start r.scope := by
    unfold State.start
    rw [h.scope, ← Scope.length_names, h.names, Scope.length_names]
  unfold Routine.entryState
  rw [htypes, h.params, hstart]

theorem Flows.received (h : Flows r r' Graph.entry r.entryState) : r'.Received := by
  intro s hs
  obtain ⟨s', hs', hle, -⟩ := h.input
  obtain rfl := Option.mem_unique hs hs'
  rw [h.frame]
  exact hle

theorem received_of_unreached (h : r.input? Graph.entry = none) : r.Received := by
  intro s hs
  rw [h] at hs
  cases hs

theorem Evolves.received (h : r.Evolves m r') (hm : m.Kept) (hr : m.program.routines[i]? = some r)
    (hs : r.Received) : r'.Received := by
  have hvalid := hm.program.valid hr
  have htext := h.text hm hr
  cases h with
  | stir hstirs =>
    cases hstirs with
    | tweak ht =>
      cases ht with
      | queue hq =>
        rw [hq.frame]
        exact hs
      | mark hmarks =>
        rw [hmarks.frame]
        exact hs
      | seed hseed => exact (hvalid.seed_flows hm.program.table hseed).2.received
    | forget observed heq =>
      subst heq
      exact received_of_unreached (input?_replicate (m := r.graph.size) rfl _)
    | observe hcond heq =>
      subst heq
      intro s hs'
      rw [entryState_observing hcond]
      exact hs s hs'
    | enter hobserving hseed => exact (hobserving.seed_flows hm.program.table hseed).2.received
  | walk hpop htable hcalls hroutine hwalk heq =>
    subst heq
    intro s' hs'
    have hgrows := hwalk.advances.toGrows
    have hentry := hwalk.before.routine.entry _ hwalk.here
    rw [hroutine] at hgrows hentry
    obtain ⟨s, hs0⟩ := Option.isSome_iff_exists.1 hentry
    obtain ⟨s1, hs1, hle⟩ := hgrows.inputs _ s hs0
    obtain rfl := Option.mem_unique hs' hs1
    rw [htext.entryState (by rw [hgrows.frame])]
    exact State.le_trans (hs s hs0) hle

end Routine

/-! ### Arguments reach the callees -/

namespace Routine

variable {x : Nat}

theorem mem_observe : ∀ {seen args : List TypeSet} {j : Nat}, j < seen.length →
    (x ∈ (observe seen args).getD j .void ↔ x ∈ seen.getD j .void ∨ x ∈ args.getD j .void)
  | [], _, _, h => absurd h (Nat.not_lt_zero _)
  | s :: seen, [], j, _ => by
    rw [observe]
    · exact ⟨.inl, fun h => h.resolve_right (not_mem_void x)⟩
    · exact fun _ _ _ _ _ h => by cases h
  | s :: seen, a :: args, 0, _ => by
    rw [show observe (s :: seen) (a :: args) = (s ∪ a.plain) :: observe seen args from rfl]
    exact mem_union
  | s :: seen, a :: args, j + 1, h => by
    rw [show observe (s :: seen) (a :: args) = (s ∪ a.plain) :: observe seen args from rfl]
    exact mem_observe (Nat.lt_of_succ_lt_succ h)

theorem mem_observeAll {j : Nat} : ∀ {edges : List CallEdge} {seen : List TypeSet},
    j < seen.length → (∃ e ∈ edges, x ∈ e.argTypes.getD j .void) ∨ x ∈ seen.getD j .void →
    x ∈ (edges.foldl (fun seen e => observe seen e.argTypes) seen).getD j .void
  | [], _, _, h => h.resolve_left fun ⟨_, he, _⟩ => by cases he
  | e :: edges, seen, hj, h => by
    rw [foldl_cons]
    refine mem_observeAll (length_observe.symm ▸ hj) ?_
    rcases h with ⟨d, hd, hx⟩ | hx
    · rcases mem_cons.1 hd with rfl | hd
      · exact .inr ((mem_observe hj).2 (.inr hx))
      · exact .inl ⟨d, hd, hx⟩
    · exact .inr ((mem_observe hj).2 (.inl hx))

end Routine

namespace Mid

/-- What a call gives a routine has been seen there, or is about to be reported. -/
def Observed (m : Mid) : Prop :=
  ∀ e ∈ m.program.calls.edges, ∀ r : Routine, m.program.routines[e.callee]? = some r →
    ∀ j x, j < r.observed.length → x ∈ e.argTypes.getD j .void →
      x ∈ r.observed.getD j .void ∨ ∃ rep ∈ m.reports, rep.1 = e.callee ∧ x ∈ rep.2.getD j .void

variable {m m' : Mid}

/-- Edges may be added that have been reported, and reports may be taken into account. -/
theorem Observed.step (h : m.Observed)
    (hedges : ∀ e' ∈ m'.program.calls.edges, ∀ j x, x ∈ e'.argTypes.getD j .void →
      (∃ e ∈ m.program.calls.edges, e.callee = e'.callee ∧ x ∈ e.argTypes.getD j .void) ∨
        ∃ rep ∈ m'.reports, rep.1 = e'.callee ∧ x ∈ rep.2.getD j .void)
    (hroutines : ∀ (i : Nat) (r' : Routine), m'.program.routines[i]? = some r' →
      i < m.program.size → ∃ r, m.program.routines[i]? = some r ∧
        r'.observed.length = r.observed.length ∧
        ∀ j x, x ∈ r.observed.getD j .void → x ∈ r'.observed.getD j .void)
    (hsize : ∀ e ∈ m.program.calls.edges, e.callee < m.program.size)
    (hreports : ∀ rep ∈ m.reports, rep ∈ m'.reports ∨ ∀ r' : Routine,
      m'.program.routines[rep.1]? = some r' → ∀ j x, j < r'.observed.length →
        x ∈ rep.2.getD j .void → x ∈ r'.observed.getD j .void) :
    m'.Observed := by
  intro e' he' r' hr' j x hj hx
  rcases hedges e' he' j x hx with ⟨e, he, hcallee, hx⟩ | hrep
  · rw [← hcallee] at hr' ⊢
    obtain ⟨r, hr, hlen, hsub⟩ := hroutines _ r' hr' (hsize e he)
    rcases h e he r hr j x (hlen ▸ hj) hx with hseen | ⟨rep, hrep, hcallee', hx'⟩
    · exact .inl (hsub j x hseen)
    · rcases hreports rep hrep with hkept | htaken
      · exact .inr ⟨rep, hkept, hcallee', hx'⟩
      · exact .inl (htaken r' (hcallee' ▸ hr') j x hj hx')
  · exact .inr hrep

theorem Observed.frame (h : m.Observed) (hm : m.Sound)
    (hcalls : m'.program.calls = m.program.calls) (hreports : m'.reports = m.reports)
    (hroutines : ∀ (i : Nat) (r' : Routine), m'.program.routines[i]? = some r' →
      i < m.program.size → ∃ r, m.program.routines[i]? = some r ∧ r'.observed = r.observed) :
    m'.Observed := by
  refine h.step (fun e' he' j x hx => .inl ⟨e', hcalls ▸ he', rfl, hx⟩) (fun i r' hr' hi => ?_)
    (fun e he => (hm.program.edges e he).callee) fun rep hrep => .inl (hreports ▸ hrep)
  obtain ⟨r, hr, heq⟩ := hroutines i r' hr' hi
  exact ⟨r, hr, by rw [heq], fun j x hx => heq ▸ hx⟩

end Mid

variable {m m' : Mid} {p p' : Program} {r : Routine} {i c : Nat} {sigs : List Signature}

theorem Program.Change.observed (h : p.Change p') (hp : p.Sound) (ho : (Mid.of p).Observed) :
    (Mid.of p').Observed := by
  have hm := Mid.sound_of hp
  cases h with
  | adjust ha =>
    cases ha with
    | relabel | extend => exact ho.frame hm rfl rfl fun i r' hr' _ => ⟨r', hr', rfl⟩
    | tweak he =>
      refine ho.frame hm (show p'.calls = p.calls by rw [he.frame]) rfl fun i r' hr' _ => ?_
      obtain ⟨r, hr, ht⟩ := he.back hr'
      exact ⟨r, hr, by rw [ht.frame (hp.valid hr) hp.table]⟩
    | push hfresh =>
      refine ho.frame hm rfl rfl fun i r' hr' hi => ?_
      rcases getElem?_push hr' with hr' | ⟨rfl, -⟩
      · exact ⟨r', hr', rfl⟩
      · exact absurd hi (Nat.lt_irrefl _)
  | declare | resolve => exact ho.frame hm rfl rfl fun i r' hr' _ => ⟨r', hr', rfl⟩
  | @forget i r hr =>
    intro e he s hs j x hj hx
    rcases Program.of_put hr hs with ⟨heq, rfl⟩ | ⟨-, hs⟩
    · have hlen : (p.forgotten i r).observed.length = r.forget.observed.length :=
        (Program.forgotten_valid hp.toKept hr).arity.trans
          (show r.params.length = _ from ((Routine.forget_valid (hp.valid hr)).arity).symm)
      refine .inl (Routine.mem_observeAll (hlen ▸ hj) (.inl ⟨e, ?_, hx⟩))
      exact CallGraph.mem_into.2 ⟨he, heq.symm⟩
    · exact ho e he s hs j x hj hx

theorem Move.observed (h : Move m m') (hm : m.Sound) (ho : m.Observed) : m'.Observed := by
  have hsize : ∀ e ∈ m.program.calls.edges, e.callee < m.program.size :=
    fun e he => (hm.program.edges e he).callee
  cases h with
  | change hc => exact hc.observed hm.program ho
  | @walk p sigs reports i b r q w w' hr hpop htable hcalls hroutine hwalk =>
    have hadv := hwalk.advances
    have hkept : ∀ rep ∈ reports ++ w.reports.toList, rep ∈ reports ++ w'.reports.toList := by
      intro rep hrep
      rcases mem_append.1 hrep with hrep | hrep
      · exact mem_append_left _ hrep
      · exact mem_append_right _
          (Array.mem_toList_iff.2 (hadv.reports rep (Array.mem_toList_iff.1 hrep)))
    refine ho.step (fun e' he' j x hx => ?_) (fun k s hs _ => ?_) hsize
      fun rep hrep => .inl (hkept rep hrep)
    · rcases hadv.evidence e' he' j x hx with ⟨e, he, hcallee, hx⟩ | ⟨rep, hrep, hcallee, hx⟩
      · exact .inl ⟨e, hcalls ▸ he, hcallee, hx⟩
      · exact .inr ⟨rep, mem_append_right _ (Array.mem_toList_iff.2 hrep), hcallee, hx⟩
    · rcases Program.of_put hr hs with ⟨rfl, rfl⟩ | ⟨-, hs⟩
      · have hobserved : w'.routine.observed = r.observed := by rw [hadv.frame, hroutine]
        exact ⟨r, hr, by rw [hobserved], fun j x hx => hobserved ▸ hx⟩
      · exact ⟨s, hs, rfl, fun _ _ hx => hx⟩
  | @report p p' sigs callee args reports hrun =>
    obtain ⟨r, r', hr, rfl, -, -, hframe⟩ := hm.kept.grows hrun
    have hobserved : r'.observed = Routine.observe r.observed args := by rw [hframe]; rfl
    have hlen : r'.observed.length = r.observed.length := by
      rw [hobserved, Routine.length_observe]
    refine ho.step (fun e' he' j x hx => .inl ⟨e', he', rfl, hx⟩) (fun k s hs _ => ?_) hsize
      fun rep hrep => ?_
    · rcases Program.of_put hr hs with ⟨rfl, rfl⟩ | ⟨-, hs⟩
      · refine ⟨r, hr, hlen, fun j x hx => ?_⟩
        by_cases hj : j < r.observed.length
        · rw [hobserved]
          exact (Routine.mem_observe hj).2 (.inl hx)
        · rw [getD_eq_default _ _ (Nat.le_of_not_lt hj)] at hx
          exact absurd hx (not_mem_void x)
      · exact ⟨s, hs, rfl, fun _ _ hx => hx⟩
    · rcases mem_cons.1 hrep with rfl | hrep
      · refine .inr fun s hs j x hj hx => ?_
        obtain ⟨-, rfl⟩ := (Program.of_put hr hs).resolve_right fun h => h.1 rfl
        rw [hobserved]
        exact (Routine.mem_observe (hlen ▸ hj)).2 (.inr hx)
      · exact .inl hrep
  | @notify p sigs hcomplete =>
    obtain ⟨hq, -⟩ := Program.notify_spec sigs (hm.program.callReached hcomplete)
    refine ho.frame hm (show (sigs.foldl Program.notifyCallers p).calls = p.calls by rw [hq.frame])
      rfl fun i r' hr' _ => ?_
    obtain ⟨r, hr, hqueues⟩ := hq.back hr'
    exact ⟨r, hr, by rw [hqueues.frame]⟩

/-! ### Return types reach the callers -/

/-- The call at `k` of `r` covers what routine `c` returns, or its block is pending. -/
def Mid.Covered (m : Mid) (i : Nat) (r : Routine) (k c : Nat) : Prop :=
  ∃ e ∈ m.program.calls.edges, e.caller = i ∧ e.callee = c ∧ e.site = k ∧
    (∃ name args, .call k name args ∈ r.graph.exprsOf e.block) ∧
    (e.block ∈ r.pending.toList ∨ ∃ s, m.sigs[c]? = some s ∧ s.returns ⊆ r.exprTypes k)

/-- Every call covers what the routines it is bound to return, or its block is pending. -/
def Mid.Returned (m : Mid) : Prop :=
  ∀ (i : Nat) (r : Routine), m.program.routines[i]? = some r → ∀ k t, r.target? k = some t →
    ∀ c ∈ t.callees, m.Covered i r k c

/-- Edges stay, signatures return no more, and the block stays pending. -/
theorem Mid.Covered.step {k : Nat} {r' : Routine} (h : m.Covered i r k c)
    (hkept : ∀ e ∈ m.program.calls.edges, ∃ e' ∈ m'.program.calls.edges, e'.key = e.key)
    (hsigs : ∀ (c : Nat) (s : Signature), m.sigs[c]? = some s →
      ∃ s', m'.sigs[c]? = some s' ∧ s'.returns ⊆ s.returns)
    (hgraph : r'.graph = r.graph) (hpending : ∀ b ∈ r.pending.toList, b ∈ r'.pending.toList)
    (htypes : r.exprTypes k ≤ r'.exprTypes k) : m'.Covered i r' k c := by
  obtain ⟨e, he, hcaller, hcallee, hsite, hcall, hcover⟩ := h
  obtain ⟨e', he', hkey⟩ := hkept e he
  simp only [CallEdge.key, Prod.mk.injEq] at hkey
  obtain ⟨h1, h2, h3, h4⟩ := hkey
  refine ⟨e', he', h1.trans hcaller, h2.trans hcallee, h3.trans hsite, ?_, ?_⟩
  · rw [h4, hgraph]
    exact hcall
  · rw [h4]
    refine hcover.imp (hpending e.block) ?_
    rintro ⟨s, hs, hsub⟩
    obtain ⟨s', hs', hsub'⟩ := hsigs c s hs
    refine ⟨s', hs', subset_iff.2 fun x hx => htypes.1 x ?_⟩
    exact subset_iff.1 hsub x (subset_iff.1 hsub' x hx)

theorem Routine.target?_fresh {n : Nat} (h : r.facts = Array.replicate n {}) (k : Nat) :
    r.target? k = none := by
  unfold Routine.target?
  rw [h, Array.getElem?_replicate]
  split <;> rfl

/-- Moves other than walks keep the facts of a routine, or forget them all. -/
theorem Mid.Returned.step (h : m.Returned)
    (hkept : ∀ e ∈ m.program.calls.edges, ∃ e' ∈ m'.program.calls.edges, e'.key = e.key)
    (hsigs : ∀ (c : Nat) (s : Signature), m.sigs[c]? = some s →
      ∃ s', m'.sigs[c]? = some s' ∧ s'.returns ⊆ s.returns)
    (hroutines : ∀ (i : Nat) (r' : Routine), m'.program.routines[i]? = some r' →
      (∀ k, r'.target? k = none) ∨ ∃ r, m.program.routines[i]? = some r ∧ r'.graph = r.graph ∧
        r'.facts = r.facts ∧ ∀ b ∈ r.pending.toList, b ∈ r'.pending.toList) :
    m'.Returned := by
  intro i r' hr' k t ht c hc
  rcases hroutines i r' hr' with hnone | ⟨r, hr, hgraph, hfacts, hpending⟩
  · rw [hnone k] at ht
    cases ht
  · have htarget : r'.target? k = r.target? k := by
      unfold Routine.target?
      rw [hfacts]
    have htypes : r'.exprTypes k = r.exprTypes k := by
      unfold Routine.exprTypes
      rw [hfacts]
    exact (h i r hr k t (htarget ▸ ht) c hc).step hkept hsigs hgraph hpending
      (htypes ▸ le_refl _)

theorem Program.Change.returns (h : p.Change p') (hp : p.Sound) {s : Signature}
    (hs : p.signatures[c]? = some s) :
    ∃ s', p'.signatures[c]? = some s' ∧ s'.returns ⊆ s.returns := by
  obtain ⟨r, hr, rfl⟩ : ∃ r, p.routines[c]? = some r ∧ r.signature = s := by
    simpa [Program.signatures] using hs
  have hstay : ∀ r' : Routine, p'.routines[c]? = some r' → r'.scope.returns ⊆ r.scope.returns →
      ∃ s', p'.signatures[c]? = some s' ∧ s'.returns ⊆ r.signature.returns :=
    fun r' hr' hsub => ⟨r'.signature, by simp [Program.signatures, hr'], hsub⟩
  have hself : r.scope.returns ⊆ r.scope.returns := subset_of_le (le_refl _)
  cases h with
  | adjust ha =>
    cases ha with
    | relabel | extend => exact hstay r hr hself
    | tweak he =>
      obtain ⟨r', hr', ht⟩ := he.forth hr
      have hscope : r'.scope = r.scope := by rw [ht.frame (hp.valid hr) hp.table]
      exact hstay r' hr' (hscope ▸ hself)
    | push hfresh =>
      exact hstay r ((getElem?_append_left (lt_of_getElem? hr)).trans hr) hself
  | declare | resolve => exact hstay r hr hself
  | @forget i r0 hr0 =>
    have hget := Program.routines_put hr0 (p.forgotten i r0) c
    split at hget
    next heq =>
      refine hstay _ hget (subset_iff.2 fun x hx => ?_)
      exact absurd hx (not_mem_void x)
    next => exact hstay r (hget.trans hr) hself

theorem Program.Change.returned (h : p.Change p') (hp : p.Sound) (hr : (Mid.of p).Returned) :
    (Mid.of p').Returned := by
  have hsigs : ∀ (c : Nat) (s : Signature), (Mid.of p).sigs[c]? = some s →
      ∃ s', (Mid.of p').sigs[c]? = some s' ∧ s'.returns ⊆ s.returns := fun c s hs => h.returns hp hs
  have hsame : ∀ {q : Mid}, q.program.calls = p.calls → ∀ e ∈ (Mid.of p).program.calls.edges,
      ∃ e' ∈ q.program.calls.edges, e'.key = e.key := fun hq e he => ⟨e, hq ▸ he, rfl⟩
  cases h with
  | adjust ha =>
    cases ha with
    | relabel | extend =>
      exact hr.step (hsame rfl) hsigs fun i r' hr' => .inr ⟨r', hr', rfl, rfl, fun _ hb => hb⟩
    | tweak he =>
      refine hr.step (hsame (show p'.calls = p.calls by rw [he.frame])) hsigs fun i r' hr' => ?_
      obtain ⟨r, hr, ht⟩ := he.back hr'
      have hframe := ht.frame (hp.valid hr) hp.table
      exact .inr ⟨r, hr, by rw [hframe], by rw [hframe], (ht.stands (hp.valid hr) hp.table).pending⟩
    | push hfresh =>
      refine hr.step (hsame rfl) hsigs fun i r' hr' => ?_
      rcases getElem?_push hr' with hr' | ⟨-, rfl⟩
      · exact .inr ⟨r', hr', rfl, rfl, fun _ hb => hb⟩
      · cases hfresh
        exact .inl (Routine.target?_fresh rfl)
  | declare | resolve =>
    exact hr.step (hsame rfl) hsigs fun i r' hr' => .inr ⟨r', hr', rfl, rfl, fun _ hb => hb⟩
  | @forget j r hrj =>
    refine hr.step (hsame rfl) hsigs fun i r' hr' => ?_
    rcases Program.of_put hrj hr' with ⟨-, rfl⟩ | ⟨-, hget⟩
    · exact .inl (Routine.target?_fresh (n := r.graph.exprCount) rfl)
    · exact .inr ⟨r', hget, rfl, rfl, fun _ hb => hb⟩

theorem Mid.Returned.walk {reports : List (Nat × Tuple)} {b : Nat} {q : Agenda Nat} {w w' : Walker}
    (hm : Mid.Sound ⟨p, sigs, reports ++ w.reports.toList⟩) (hr : p.routines[i]? = some r)
    (hpop : r.pending.pop? = some (b, q)) (htable : w.table = p.table) (hcalls : w.calls = p.calls)
    (hroutine : w.routine = { r with status := .analyzing, pending := q })
    (hwalk : Walks (p.setting sigs b) w w')
    (h : Mid.Returned ⟨p, sigs, reports ++ w.reports.toList⟩) :
    Mid.Returned ⟨p.after i w', sigs, reports ++ w'.reports.toList⟩ := by
  have hsound := (hm.walk hr hpop htable hcalls hroutine hwalk).program
  have hadv := hwalk.advances
  have hkept : ∀ e ∈ p.calls.edges, ∃ e' ∈ w'.calls.edges, e'.key = e.key :=
    hcalls ▸ hadv.kept
  have hsame : ∀ (c : Nat) (s : Signature), sigs[c]? = some s →
      ∃ s', sigs[c]? = some s' ∧ s'.returns ⊆ s.returns :=
    fun c s hs => ⟨s, hs, subset_of_le (le_refl _)⟩
  have hid : w.routine.id = i := by
    rw [hroutine]
    exact hm.program.ids i r hr
  have hself : (p.after i w').routines[i]? = some w'.routine :=
    (Program.routines_put hr w'.routine i).trans (if_pos rfl)
  intro j s hs k t ht c hc
  rcases Program.of_put hr hs with ⟨rfl, rfl⟩ | ⟨-, hs⟩
  · -- a call of the block that was walked through has been bound
    have hhere : (∃ name args, .call k name args ∈ w.routine.graph.exprsOf b) →
        Mid.Covered ⟨p.after i w', sigs, reports ++ w'.reports.toList⟩ i w'.routine k c := by
      rintro ⟨name, args, hcall⟩
      obtain ⟨t', ht', -, hall⟩ := hwalk.bound_of_call hcall
      obtain rfl := Option.mem_unique ht ht'
      obtain ⟨sig, hsig, hsub, e, he, hcaller, hcallee, hsite⟩ := hall c hc
      obtain ⟨r1, hr1, -, htag⟩ := (hsound.edges e he).caller
      rw [hcaller.trans hid, hself] at hr1
      cases hr1
      rw [hadv.graph, hsite] at htag
      have hblock : e.block = b := hwalk.before.routine.graph.tagsOf_unique htag
        (mem_map_of_mem hcall)
      refine ⟨e, he, hcaller.trans hid, hcallee, hsite, ⟨name, args, ?_⟩, .inr ⟨sig, hsig, hsub⟩⟩
      rw [hadv.graph, hblock]
      exact hcall
    rcases hadv.targets k id with hsameTarget | ⟨-, -, ⟨name, args, -, hcall, -⟩, -⟩
    · have ht0 : r.target? k = some t := by
        rw [hsameTarget, hroutine] at ht
        exact ht
      obtain ⟨e, he, hcaller, hcallee, hsite, hcall, hcover⟩ := h i r hr k t ht0 c hc
      by_cases hb : e.block = b
      · refine hhere ?_
        rw [hroutine, ← hb]
        exact hcall
      · have hbefore : Mid.Covered ⟨p, sigs, reports ++ w.reports.toList⟩ i w.routine k c := by
          rw [hroutine]
          refine ⟨e, he, hcaller, hcallee, hsite, hcall, hcover.imp_left fun hpending => ?_⟩
          rw [(Agenda.pop?_spec hpop).1] at hpending
          exact (mem_cons.1 hpending).resolve_left hb
        exact hbefore.step hkept hsame hadv.graph hadv.pending (hadv.types k)
    · exact hhere ⟨name, args, hcall⟩
  · exact (h j s hs k t ht c hc).step hkept hsame rfl (fun _ hb => hb) (le_refl _)

theorem Mid.Returned.notify (hm : Mid.Sound ⟨p, sigs, []⟩)
    (hcomplete : ∀ r ∈ p.routines, r.Complete) (h : Mid.Returned ⟨p, sigs, []⟩) :
    (Mid.of (sigs.foldl Program.notifyCallers p)).Returned := by
  obtain ⟨hq, hnotified⟩ := Program.notify_spec sigs (hm.program.callReached hcomplete)
  intro i r' hr' k t ht c hc
  obtain ⟨r, hr, hqueues⟩ := hq.back hr'
  have ht0 : r.target? k = some t := by
    rw [hqueues.frame] at ht
    exact ht
  obtain ⟨e, he, hcaller, hcallee, hsite, hcall, hcover⟩ := h i r hr k t ht0 c hc
  have he' : e ∈ (sigs.foldl Program.notifyCallers p).calls.edges := by
    rw [hq.frame]
    exact he
  refine ⟨e, he', hcaller, hcallee, hsite, ?_, ?_⟩
  · rw [hqueues.frame]
    exact hcall
  · rcases hcover with hpending | ⟨s, hs, hsub⟩
    · exact .inl (hqueues.kept _ hpending)
    · obtain ⟨callee, hget, hsig, -⟩ := hm.sigs c s hs
      have hid : s.id = c := by
        rw [hsig]
        exact hm.program.ids c callee hget
      by_cases hreturns : callee.scope.returns = s.returns
      · obtain ⟨callee', hget', hqueues'⟩ := hq.forth hget
        refine .inr ⟨callee'.signature, ?_, ?_⟩
        · show (Program.signatures _)[c]? = _
          rw [Program.signatures, getElem?_map, hget']
          rfl
        · rw [show callee'.signature.returns = callee.scope.returns by rw [hqueues'.frame]; rfl,
            hreturns, show r'.exprTypes k = r.exprTypes k by rw [hqueues.frame]; rfl]
          exact hsub
      · obtain ⟨r1, hr1, hpending⟩ := hnotified s (mem_of_getElem? hs) callee (hid ▸ hget)
          hreturns e he (hcallee.trans hid.symm)
        rw [hcaller] at hr1
        obtain rfl := Option.mem_unique hr1 hr'
        exact .inl hpending

theorem Move.returned (h : Move m m') (hm : m.Sound) (hr : m.Returned) : m'.Returned := by
  cases h with
  | change hc => exact hc.returned hm.program hr
  | walk hr' hpop htable hcalls hroutine hwalk =>
    exact Mid.Returned.walk hm hr' hpop htable hcalls hroutine hwalk hr
  | @report p p' sigs callee args reports hrun =>
    obtain ⟨r, r', hrc, rfl, -, hgrows, hframe⟩ := hm.kept.grows hrun
    refine hr.step (fun e he => ⟨e, he, rfl⟩)
      (fun c s hs => ⟨s, hs, subset_of_le (le_refl _)⟩) fun i s hs => .inr ?_
    rcases Program.of_put hrc hs with ⟨rfl, rfl⟩ | ⟨-, hs⟩
    · exact ⟨r, hrc, hgrows.graph, by rw [hframe]; rfl, hgrows.pending⟩
    · exact ⟨s, hs, rfl, rfl, fun _ hb => hb⟩
  | notify hcomplete => exact Mid.Returned.notify hm hcomplete hr

/-! ### At convergence -/

/-- What is not carried over yet is still due. -/
structure Mid.Closed (m : Mid) : Prop where
  sound : m.Sound
  received : ∀ r ∈ m.program.routines, r.Received
  observed : m.Observed
  returned : m.Returned

theorem Mid.closed_empty : (Mid.of .empty).Closed where
  sound := Mid.sound_of Program.sound_empty
  received r hr := by cases hr
  observed e he := by cases he
  returned i r hr := by cases hr

theorem Move.closed (h : Move m m') (hm : m.Closed) : m'.Closed where
  sound := h.sound hm.sound
  received r' hr' := by
    obtain ⟨i, hi⟩ := getElem?_of_mem hr'
    rcases (h.evolves hm.sound.kept).back hi with ⟨r, hr, hevolves⟩ | hfresh
    · exact hevolves.received hm.sound.kept hr (hm.received r (mem_of_getElem? hr))
    · exact Routine.received_of_unreached (hfresh.input? _)
  observed := h.observed hm.sound hm.observed
  returned := h.returned hm.sound hm.returned

theorem Moves.closed (h : Moves m m') (hm : m.Closed) : m'.Closed := by
  induction h with
  | refl => exact hm
  | tail _ hmove ih => exact hmove.closed ih

namespace Program

variable {r : Routine}

theorem Closed.calls (h : (Mid.of p).Closed) (hquiet : p.Quiet) (hr : r ∈ p.routines) {k : Nat}
    {t : Target} (ht : r.target? k = some t) {c : Nat} (hc : c ∈ t.callees) :
    ∃ callee, p.routines[c]? = some callee ∧ callee.scope.returns ⊆ r.exprTypes k := by
  obtain ⟨i, hi⟩ := getElem?_of_mem hr
  obtain ⟨e, -, -, -, -, -, hcover⟩ := h.returned i r hi k t ht c hc
  rcases hcover with hpending | ⟨s, hs, hsub⟩
  · rw [hquiet r hr] at hpending
    cases hpending
  · obtain ⟨callee, hget, rfl⟩ : ∃ r, p.routines[c]? = some r ∧ r.signature = s := by
      simpa [Mid.of, signatures] using hs
    exact ⟨callee, hget, hsub⟩

theorem Closed.params (h : (Mid.of p).Closed) (hr : r ∈ p.routines) (hexported : r.exported = false)
    (hfixed : r.fixed = none) (hnames : (r.params.map (·.name)).Nodup) {i : Nat} {q : Param}
    (hq : r.params[i]? = some q) (hany : q.declared.isAny = true) {e : CallEdge}
    (he : e ∈ p.calls.into r.id) {a : TypeSet} (ha : e.argTypes[i]? = some a) {s : State}
    (hs : r.input? Graph.entry = some s) : a ⊆ s.get q.var := by
  have hvalid := h.sound.program.routines r hr
  obtain ⟨j, hj⟩ := getElem?_of_mem hr
  obtain ⟨hedge, hcallee⟩ := CallGraph.mem_into.1 he
  rw [h.sound.program.ids j r hj] at hcallee
  have hlt : i < r.observed.length := by
    rw [hvalid.arity]
    exact (lt_of_getElem? hq)
  rw [subset_iff]
  intro x hx
  have hseen : x ∈ r.observed.getD i .void := by
    have hx' : x ∈ e.argTypes.getD i .void := by
      rw [getD_eq_getElem?_getD, ha]
      exact hx
    rcases h.observed e hedge r (hcallee ▸ hj) i x hlt hx' with hseen | ⟨rep, hrep, -⟩
    · exact hseen
    · cases hrep
  have hentry : x ∈ r.entryTypes i q := by
    have hobserved : x ∈ r.observed.getD i .any := by
      rw [getD_eq_getElem?_getD, getElem?_eq_getElem hlt] at hseen ⊢
      exact hseen
    unfold Routine.entryTypes
    rw [hfixed]
    simp only [hany, hexported, Bool.not_true, Bool.false_eq_true, if_false, Bool.not_false, if_true]
    split
    · exact mem_union.2 (.inl hobserved)
    · exact hobserved
  unfold State.get
  split
  · apply ((h.received r hr s hs).slot q.var).1
    rw [hvalid.slot_entryState hnames hq]
    exact hentry
  · exact (mem_any x).2 (lt_of_mem hx)

/-- **Closure at convergence.**  The types of a call include what every routine it is bound
to returns; and an untyped parameter of a routine that only the program itself can call is
entered with the types of every argument given for it. -/
theorem History.closed_of_converged (h : p.History) {plan : Plan}
    (hextra : ∀ s ∈ plan.extra, s.Sound) {n : Nat} (hrun : p.analyze plan = .ok (.converged n) p') :
    (∀ r ∈ p'.routines, ∀ k t, r.target? k = some t → ∀ c ∈ t.callees,
      ∃ callee, p'.routines[c]? = some callee ∧ callee.scope.returns ⊆ r.exprTypes k) ∧
    ∀ r ∈ p'.routines, r.exported = false → r.fixed = none → (r.params.map (·.name)).Nodup →
      ∀ (i : Nat) (q : Param), r.params[i]? = some q → q.declared.isAny = true →
      ∀ e ∈ p'.calls.into r.id, ∀ a, e.argTypes[i]? = some a →
      ∃ s, r.input? Graph.entry = some s ∧ a ⊆ s.get q.var := by
  obtain ⟨hcont, hquiet⟩ := analyze_ok h.sound hextra hrun
  have hclosed : (Mid.of p').Closed :=
    Moves.closed (h.moves.trans (hcont.moves h.sound)) Mid.closed_empty
  refine ⟨fun r hr k t ht c hc => Closed.calls hclosed (hquiet rfl) hr ht hc,
    fun r hr hexported hfixed hnames i q hq hany e he a ha => ?_⟩
  obtain ⟨s, hs⟩ := Option.isSome_iff_exists.1 (hcont.entered r hr)
  exact ⟨s, hs, Closed.params hclosed hr hexported hfixed hnames hq hany he ha hs⟩

/-- In the converged program `main` is bound to a clone of `fact`; before, it gave `fact` itself
an integer. -/
theorem recursive_closed : ∃ n p', (ofDecls recursive).analyze {} = .ok (.converged n) p' ∧
    (p'.redirected && (p'.calls.into 0).any (fun e => e.argTypes == [.int])) = true ∧
    (∀ r ∈ p'.routines, ∀ k t, r.target? k = some t → ∀ c ∈ t.callees,
      ∃ callee, p'.routines[c]? = some callee ∧ callee.scope.returns ⊆ r.exprTypes k) ∧
    ∀ r ∈ p'.routines, r.exported = false → r.fixed = none → (r.params.map (·.name)).Nodup →
      ∀ (i : Nat) (q : Param), r.params[i]? = some q → q.declared.isAny = true →
      ∀ e ∈ p'.calls.into r.id, ∀ a, e.argTypes[i]? = some a →
      ∃ s, r.input? Graph.entry = some s ∧ a ⊆ s.get q.var := by
  obtain ⟨n, p', hrun, hgood⟩ := exists_converged (ofDecls recursive) {}
    (fun p' => p'.redirected && (p'.calls.into 0).any (fun e => e.argTypes == [.int])) (by decide +kernel)
  exact ⟨n, p', hrun, hgood, (history_ofDecls recursive).closed_of_converged (by simp) hrun⟩

end Program

end ShapeFlow
