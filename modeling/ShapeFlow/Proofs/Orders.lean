/-
# The order of a round

The routines of a round are drained one after the other, but it does not matter in which
order: no walk reads the calls that others have logged, and a walk logs calls of its own
routine only.  All that routines share in a round is the table, so as long as no shape is
added to it, each routine comes to the same whatever was drained before it; the call graph
holds the same edges, those of each caller in the same order; and what takes effect after the
round is the same.

Key definitions: `Program.drainIn`, `Program.drainBy`, `Program.roundBy`, `Program.Schedules`.
Key theorems: `Program.drainOne_logs`, `Program.round_eq_roundBy`, `Program.round_order_irrelevant`.
-/
import ShapeFlow.Proofs.Cloning

namespace ShapeFlow

open ShapeFlow.Flow Infer List

theorem ShapeTable.Extends.antisymm {t t' : ShapeTable} (h : t.Extends t') (h' : t'.Extends t) :
    t = t' := by
  exact ext_shapes (h.eq_of_length (le_antisymm h.length_le h'.length_le))

/-! ### Calls by caller -/

namespace CallGraph

variable {d e : CallEdge}

theorem addTo_same (h : d.link = e.link) (l : List CallEdge) : (addTo e (d :: l)).2 = d.take e :: l := by
  rw [addTo, if_pos h]

theorem addTo_other (h : d.link ≠ e.link) (l : List CallEdge) :
    (addTo e (d :: l)).2 = d :: (addTo e l).2 := by
  rw [addTo, if_neg h]

/-- A call is added among the calls of its caller. -/
theorem addTo_filter (e : CallEdge) (i : Nat) : ∀ l : List CallEdge,
    (addTo e l).2.filter (·.caller == i) =
      if e.caller = i then (addTo e (l.filter (·.caller == i))).2 else l.filter (·.caller == i)
  | [] => by
    by_cases he : e.caller = i
    · simp [addTo, he]
    · simp [addTo, he]
  | d :: l => by
    have ih := addTo_filter e i l
    by_cases hsame : d.link = e.link
    · have hcaller : d.caller = e.caller := congrArg (·.1) hsame
      have htake : (d.take e).caller = e.caller := hcaller
      rw [addTo_same hsame]
      by_cases he : e.caller = i
      · rw [if_pos he, filter_cons_of_pos (by simp [htake, he]),
          filter_cons_of_pos (by simp [hcaller, he]), addTo_same hsame]
      · rw [if_neg he, filter_cons_of_neg (by simp [htake, he]),
          filter_cons_of_neg (by simp [hcaller, he])]
    · rw [addTo_other hsame]
      by_cases hd : d.caller = i
      · rw [filter_cons_of_pos (by simp [hd]), filter_cons_of_pos (by simp [hd]), ih,
          addTo_other hsame]
        by_cases he : e.caller = i
        · rw [if_pos he, if_pos he]
        · rw [if_neg he, if_neg he]
      · rw [filter_cons_of_neg (by simp [hd]), filter_cons_of_neg (by simp [hd]), ih]

theorem outOf_addAll (i : Nat) : ∀ (es : List CallEdge) (g : CallGraph),
    (g.addAll es).outOf i = (es.filter (·.caller == i)).foldl (fun l e => (addTo e l).2) (g.outOf i)
  | [], _ => rfl
  | e :: es, g => by
    have hone : (g.add e).2.outOf i = if e.caller = i then (addTo e (g.outOf i)).2 else g.outOf i := by
      rw [outOf_eq, outOf_eq, edges_add, addTo_filter]
    rw [show g.addAll (e :: es) = (g.add e).2.addAll es from rfl, outOf_addAll i es, hone]
    by_cases he : e.caller = i
    · rw [if_pos he, filter_cons_of_pos (by simp [he]), foldl_cons]
    · rw [if_neg he, filter_cons_of_neg (by simp [he])]

theorem perm_of_outOf {g g' : CallGraph} (h : ∀ i, g'.outOf i = g.outOf i) :
    g'.edges.Perm g.edges := by
  rw [perm_iff_count]
  intro e
  have hcount : ∀ k : CallGraph, k.edges.count e = (k.outOf e.caller).count e := fun k => by
    rw [outOf_eq, count_filter (by simp)]
  rw [hcount g', hcount g, h]

theorem into_by (g : CallGraph) (i j : Nat) :
    (g.into j).filter (·.caller == i) = (g.outOf i).filter (·.callee == j) := by
  rw [into_eq, outOf_eq, filter_filter, filter_filter]
  exact filter_congr fun e _ => Bool.and_comm _ _

end CallGraph

namespace Program

variable {p : Program} {calls : CallGraph} {β γ : Type} {es : Routine → List CallEdge}
  {sigs : List Signature} {table : ShapeTable}

/-! ### Draining in any order -/

/-- **What was logged before makes no difference** to the draining of a routine.  It logs calls
of the routine. -/
theorem drainOne_logs (p : Program) (sigs : List Signature) (table : ShapeTable) (r : Routine) :
    ∃ rs table' reports es, (∀ e ∈ es, e.caller = r.id) ∧
      ∀ calls, p.drainOne sigs table calls r = ⟨rs, table', calls.addAll es, reports⟩ := by
  obtain ⟨w, hw⟩ : ∃ w : Walker, w =
    { table, calls := {}, routine := { r with status := .analyzing }, state := .start r.scope } := ⟨_, rfl⟩
  obtain ⟨es, hcaller, hlogs⟩ := (made_drain (p.setting sigs) r.stepBound).logs w
  rw [show w.routine.id = r.id by rw [hw]] at hcaller
  have heq : ∀ calls, p.drainOne sigs table calls r =
      Drained.ofResult (drain (p.setting sigs) r.stepBound { w with calls, reports := #[] }) :=
    fun calls => hw ▸ rfl
  rcases hrun : drain (p.setting sigs) r.stepBound w with ⟨_, w'⟩ | ⟨f, w'⟩ <;> rw [hrun] at hlogs
  · refine ⟨[w'.routine], w'.table, .ok (es.map fun e => (e.callee, e.argTypes)), es, hcaller,
      fun calls => ?_⟩
    rw [heq, hlogs]
    simp [relog, Walker.logged, Drained.ofResult]
  · refine ⟨[w'.routine], w'.table, .error f, es, hcaller, fun calls => ?_⟩
    rw [heq, hlogs]
    rfl

/-- What draining one routine came to. -/
structure Upshot where
  id : Nat
  routines : List Routine
  /-- The calls made, or a fault. -/
  reports : Except Fault (List (Nat × Tuple))

/-- Drains the routines in the order given. -/
def drainIn (p : Program) (sigs : List Signature) :
    List Routine → ShapeTable → CallGraph → List Upshot × ShapeTable × CallGraph
  | [], table, calls => ([], table, calls)
  | r :: rs, table, calls =>
    let one := p.drainOne sigs table calls r
    let rest := p.drainIn sigs rs one.table one.calls
    (⟨r.id, one.routines, one.reports⟩ :: rest.1, rest.2)

/-- Puts what the upshots came to in the places of the routines, with the calls made in the order
of the routines, or the first fault. -/
def place (upshots : List Upshot) : List Routine → List Routine × Except Fault (List (Nat × Tuple))
  | [] => ([], .ok [])
  | r :: rs =>
    let rest := place upshots rs
    match upshots.find? (·.id == r.id) with
    | some v => (v.routines ++ rest.1, do return (← v.reports) ++ (← rest.2))
    | none => (r :: rest.1, rest.2)

/-- Drains routines of the program in the order given. -/
def drainBy (p : Program) (sigs : List Signature) (order : List Routine) : Drained :=
  let (upshots, table, calls) := p.drainIn sigs order p.table p.calls
  let (routines, reports) := place upshots p.routines
  { routines, table, calls, reports }

/-- The routines that have pending blocks, in order of id. -/
def due (p : Program) : List Routine := p.routines.filter (·.isPending)

/-- One round, in which routines are drained in the order given. -/
def roundBy (order : List Routine) : Run Unit := do
  let p ← get
  let d := p.drainBy p.signatures order
  set { p with routines := d.routines, table := d.table, calls := d.calls }
  takeEffect p.signatures d

theorem upshots_ids (p : Program) (sigs : List Signature) : ∀ (order : List Routine)
    (table : ShapeTable) (calls : CallGraph),
    (p.drainIn sigs order table calls).1.map (·.id) = order.map (·.id)
  | [], _, _ => rfl
  | r :: order, table, calls => by
    unfold drainIn
    rw [map_cons, map_cons, upshots_ids p sigs order]

theorem place_congr {upshots upshots' : List Upshot} : ∀ {rs : List Routine},
    (∀ r ∈ rs, upshots'.find? (·.id == r.id) = upshots.find? (·.id == r.id)) →
    place upshots' rs = place upshots rs
  | [], _ => rfl
  | r :: rs, h => by
    unfold place
    rw [h r (.head _), place_congr fun s hs => h s (.tail _ hs)]

theorem drainAll_eq (p : Program) (sigs : List Signature) : ∀ {rs : List Routine}
    (_ : (rs.map (·.id)).Nodup) (table : ShapeTable) (calls : CallGraph),
    p.drainAll sigs rs table calls =
      let d := p.drainIn sigs (rs.filter (·.isPending)) table calls
      ⟨(place d.1 rs).1, d.2.1, d.2.2, (place d.1 rs).2⟩
  | [], _, _, _ => rfl
  | r :: rs, hnodup, table, calls => by
    rw [map_cons, nodup_cons] at hnodup
    obtain ⟨hr, hnodup⟩ := hnodup
    unfold drainAll
    by_cases hpending : r.isPending = true
    · rw [if_pos hpending, filter_cons_of_pos hpending]
      dsimp only
      rw [drainAll_eq p sigs hnodup]
      have hplace : ∀ (v : Upshot) (upshots : List Upshot), v.id = r.id →
          place (v :: upshots) rs = place upshots rs := by
        intro v upshots hv
        refine place_congr fun s hs => find?_cons_of_neg ?_
        rw [hv, beq_iff_eq]
        exact fun heq => hr (heq ▸ mem_map_of_mem hs)
      simp only [drainIn, place, find?_cons_of_pos, beq_self_eq_true]
      rw [hplace _ _ rfl]
    · rw [if_neg hpending, filter_cons_of_neg hpending]
      dsimp only
      rw [drainAll_eq p sigs hnodup]
      have hnone : (p.drainIn sigs (rs.filter (·.isPending)) table calls).1.find? (·.id == r.id) =
          none := by
        rw [find?_eq_none]
        intro v hv heq
        have hmem := mem_map_of_mem (f := Upshot.id) hv
        rw [upshots_ids, beq_iff_eq.1 heq] at hmem
        obtain ⟨s, hs, hid⟩ := mem_map.1 hmem
        exact hr (mem_map.2 ⟨s, mem_of_mem_filter hs, hid⟩)
      simp only [place, hnone]

theorem round_eq_roundBy (hp : p.Numbered) : round p = roundBy p.due p := by
  have hdrain : p.drainAll p.signatures p.routines p.table p.calls = p.drainBy p.signatures p.due :=
    drainAll_eq p p.signatures hp.nodup p.table p.calls
  calc round p = takeEffect p.signatures (p.drainAll p.signatures p.routines p.table p.calls)
        (p.withDrained [] (p.drainAll p.signatures p.routines p.table p.calls)) := rfl
    _ = takeEffect p.signatures (p.drainBy p.signatures p.due)
        (p.withDrained [] (p.drainBy p.signatures p.due)) := by rw [hdrain]
    _ = roundBy p.due p := rfl

/-! ### No matter the order -/

/-- At most one routine has a given id, so its place in the order is no matter. -/
theorem filter_id_perm {l l' : List Routine} (h : l'.Perm l) (hnodup : (l.map (·.id)).Nodup) (i : Nat) :
    l'.filter (·.id == i) = l.filter (·.id == i) := by
  have hone : (l.filter (·.id == i)).length ≤ 1 := by
    rw [← countP_eq_length_filter, countP_le_one_iff]
    refine (pairwise_map.1 hnodup).imp fun {r s} hne hr hs => ?_
    exact hne ((beq_iff_eq.1 hr).trans (beq_iff_eq.1 hs).symm)
  have hperm := h.filter (·.id == i)
  rcases hl : l.filter (·.id == i) with _ | ⟨r, _ | ⟨s, k⟩⟩ <;> rw [hl] at hperm hone
  · rw [hl, hperm.eq_nil]
  · rw [hl, hperm.eq_singleton]
  · simp at hone

theorem filter_flatMap_calls (hes : ∀ r, ∀ e ∈ es r, e.caller = r.id) (i : Nat) :
    ∀ l : List Routine,
    (l.flatMap es).filter (·.caller == i) = (l.filter (·.id == i)).flatMap es
  | [] => rfl
  | r :: l => by
    rw [flatMap_cons, filter_append, filter_flatMap_calls hes i l]
    by_cases hr : r.id = i
    · rw [filter_cons_of_pos (by simp [hr]), flatMap_cons, filter_eq_self.2]
      intro e he
      rw [beq_iff_eq, hes r e he, hr]
    · rw [filter_cons_of_neg (by simp [hr]), filter_eq_nil_iff.2, nil_append]
      intro e he
      rw [beq_iff_eq, hes r e he]
      exact hr

/-- If no shape is added, each routine is drained as if it were the first. -/
theorem drainIn_eq {upshot : Routine → Upshot} : ∀ {order : List Routine} (calls : CallGraph),
    (∀ r ∈ order, ∀ calls, p.drainOne sigs table calls r =
      ⟨(upshot r).routines, table, calls.addAll (es r), (upshot r).reports⟩) →
    (∀ r, (upshot r).id = r.id) →
    p.drainIn sigs order table calls = (order.map upshot, table, calls.addAll (order.flatMap es))
  | [], _, _, _ => rfl
  | r :: order, calls, hone, hid => by
    have hrest := drainIn_eq (calls.addAll (es r)) (fun s hs => hone s (.tail _ hs)) hid
    unfold drainIn
    simp only [hone r (.head _), hrest, map_cons, flatMap_cons,
      CallGraph.addAll_append, ← hid r]

theorem drainIn_extends (p : Program) (sigs : List Signature) : ∀ (order : List Routine)
    (table : ShapeTable) (calls : CallGraph),
    table.Extends (p.drainIn sigs order table calls).2.1
  | [], table, _ => .refl table
  | r :: order, table, calls => by
    obtain ⟨-, -, -, hone, -⟩ := p.drainOne_touch sigs table calls r
    exact hone.trans (drainIn_extends p sigs order _ _)

theorem drainOne_table : ∀ {order : List Routine} {table : ShapeTable}
    {calls : CallGraph}, (p.drainIn sigs order table calls).2.1 = table →
    ∀ r ∈ order, ∀ calls', (p.drainOne sigs table calls' r).table = table
  | [], _, _, _ => fun r hr => by cases hr
  | r :: order, table, calls, h => by
    have hstep : (p.drainIn sigs order (p.drainOne sigs table calls r).table
      (p.drainOne sigs table calls r).calls).2.1 = table := h
    have hfirst : (p.drainOne sigs table calls r).table = table := by
      obtain ⟨-, -, -, hone, -⟩ := p.drainOne_touch sigs table calls r
      have hrest := p.drainIn_extends sigs order (p.drainOne sigs table calls r).table
        (p.drainOne sigs table calls r).calls
      rw [hstep] at hrest
      exact hrest.antisymm hone
    rw [hfirst] at hstep
    intro s hs calls'
    rcases mem_cons.1 hs with rfl | hs
    · obtain ⟨rs, table', reports, es, -, hlogs⟩ := p.drainOne_logs sigs table s
      rw [hlogs] at hfirst ⊢
      exact hfirst
    · exact drainOne_table hstep s hs calls'

/-- **Draining in another order** comes to the same for every routine, and logs the same calls,
those of each caller in the same order, if no shape is added. -/
theorem drainIn_perm {order order' : List Routine} (horder : order'.Perm order)
    (hnodup : (order.map (·.id)).Nodup) (calls : CallGraph)
    (hnew : (p.drainIn sigs order table calls).2.1 = table) :
    (p.drainIn sigs order' table calls).1.Perm (p.drainIn sigs order table calls).1 ∧
      (∀ i, (p.drainIn sigs order' table calls).1.find? (·.id == i) =
        (p.drainIn sigs order table calls).1.find? (·.id == i)) ∧
      (p.drainIn sigs order' table calls).2.1 = table ∧
      ∀ i, (p.drainIn sigs order' table calls).2.2.outOf i =
        (p.drainIn sigs order table calls).2.2.outOf i := by
  choose rs table' reports es hcaller hlogs using fun r => p.drainOne_logs sigs table r
  obtain ⟨upshot, hupshot⟩ : ∃ upshot : Routine → Upshot, upshot = fun r => ⟨r.id, rs r, reports r⟩ :=
    ⟨_, rfl⟩
  have hone : ∀ r ∈ order, ∀ calls, p.drainOne sigs table calls r =
      ⟨(upshot r).routines, table, calls.addAll (es r), (upshot r).reports⟩ := by
    intro r hr calls'
    have htable := drainOne_table hnew r hr calls'
    rw [hlogs] at htable ⊢
    rw [hupshot, show table' r = table from htable]
  have hid : ∀ r, (upshot r).id = r.id := fun r => by rw [hupshot]
  rw [drainIn_eq calls hone hid, drainIn_eq calls (fun r hr => hone r (horder.mem_iff.1 hr)) hid]
  have hfilter := filter_id_perm horder hnodup
  refine ⟨horder.map upshot, fun i => ?_, rfl, fun i => ?_⟩
  · have hfind : ∀ l : List Routine, (l.map upshot).find? (·.id == i) =
        ((l.filter (·.id == i)).head?).map upshot := by
      intro l
      rw [find?_map, head?_filter]
      refine congrArg (Option.map upshot) (find?_congr fun r _ => ?_)
      rw [Function.comp_apply, hid]
    rw [hfind, hfind, hfilter]
  · rw [CallGraph.outOf_addAll, CallGraph.outOf_addAll, filter_flatMap_calls hcaller,
      filter_flatMap_calls hcaller, hfilter]

/-! ### What takes effect -/

/-- The same program with another call graph. -/
def rewired (p : Program) (calls : CallGraph) : Program := { p with calls }

/-- The same end of a step, with another call graph. -/
def rewire {β : Type} (calls : CallGraph) :
    EStateM.Result Fault Program β → EStateM.Result Fault Program β
  | .ok b p => .ok b (p.rewired calls)
  | .error f p => .error f (p.rewired calls)

variable {m : Run β} {f : β → Run γ}

theorem rewire_bind (h : m (p.rewired calls) = rewire calls (m p))
    (hf : ∀ b p', m p = .ok b p' → f b (p'.rewired calls) = rewire calls (f b p')) :
    (m >>= f) (p.rewired calls) = rewire calls ((m >>= f) p) := by
  show EStateM.bind m f _ = rewire calls (EStateM.bind m f p)
  unfold EStateM.bind
  rw [h]
  rcases hrun : m p with ⟨b, p'⟩ | ⟨e, p'⟩
  · exact hf b p' hrun
  · rfl

/-- The step neither reads nor changes the calls. -/
def GraphBlind {β : Type} (m : Run β) : Prop := ∀ p calls, m (p.rewired calls) = rewire calls (m p)

theorem GraphBlind.bind (h : GraphBlind m) (hf : ∀ b, GraphBlind (f b)) : GraphBlind (m >>= f) :=
  fun p calls => rewire_bind (h p calls) fun b p' _ => hf b p' calls

theorem GraphBlind.calls_eq (h : GraphBlind m) {b : β} {p' : Program} (hrun : m p = .ok b p') :
    p'.calls = p.calls := by
  have hsame := h p p.calls
  rw [show p.rewired p.calls = p from rfl, hrun] at hsame
  have hp' : p' = p'.rewired p.calls := (EStateM.Result.ok.inj hsame).2
  rw [hp']
  rfl

theorem report_blind (callee : Nat) (args : Tuple) : GraphBlind (report callee args) := by
  intro p calls
  rcases hr : p.routines[callee]? with _ | r
  · unfold report
    rw [bind_of_ok (show (get : Run Program) p = .ok p p from rfl), hr,
      bind_of_ok (show (get : Run Program) (p.rewired calls) = .ok _ _ from rfl),
      show (p.rewired calls).routines[callee]? = none from hr]
    rfl
  · rw [report_eq hr, report_eq (show (p.rewired calls).routines[callee]? = some r from hr)]
    split_ifs
    · rfl
    · rfl
    · rcases (observing r args).seed with f | ⟨c, r'⟩ <;> rfl

theorem reports_blind : ∀ reports : List (Nat × Tuple),
    GraphBlind (reports.forM fun (callee, args) => report callee args)
  | [] => fun _ _ => rfl
  | (callee, args) :: reports => (report_blind callee args).bind fun _ => reports_blind reports

theorem foldl_queue_get (i : Nat) : ∀ (edges : List CallEdge) (p : Program),
    (edges.foldl (fun p e => p.update e.caller (·.queue e.block)) p).routines[i]? =
      p.routines[i]?.map fun r =>
        (edges.filter (·.caller == i)).foldl (fun r e => r.queue e.block) r
  | [], p => by simp
  | e :: edges, p => by
    rw [foldl_cons, foldl_queue_get i edges]
    have hupdate : (p.update e.caller (·.queue e.block)).routines[i]? =
        if e.caller = i then p.routines[i]?.map (·.queue e.block) else p.routines[i]? := by
      show (p.routines.modify e.caller (·.queue e.block))[i]? = _
      rw [getElem?_modify]
      rcases p.routines[i]? with _ | r <;> split_ifs <;> rfl
    rw [hupdate]
    by_cases he : e.caller = i
    · rw [if_pos he, filter_cons_of_pos (by simp [he]), Option.map_map]
      rfl
    · rw [if_neg he, filter_cons_of_neg (by simp [he])]

theorem foldl_queue_frame : ∀ (edges : List CallEdge) (p : Program),
    edges.foldl (fun p e => p.update e.caller (·.queue e.block)) p =
      { p with routines :=
          (edges.foldl (fun p e => p.update e.caller (·.queue e.block)) p).routines }
  | [], _ => rfl
  | e :: edges, p => by
    rw [foldl_cons, foldl_queue_frame edges]
    rfl

theorem notifyCallers_rewired (h : ∀ i, calls.outOf i = p.calls.outOf i) (sig : Signature) :
    (p.rewired calls).notifyCallers sig = (p.notifyCallers sig).rewired calls := by
  unfold notifyCallers
  rw [show (p.rewired calls).routines = p.routines from rfl]
  split
  · have hroutines : ((calls.into sig.id).foldl (fun p e => p.update e.caller (·.queue e.block))
        (p.rewired calls)).routines =
        ((p.calls.into sig.id).foldl (fun p e => p.update e.caller (·.queue e.block)) p).routines := by
      refine ext_getElem? fun i => ?_
      rw [foldl_queue_get, foldl_queue_get, CallGraph.into_by, CallGraph.into_by, h]
      rfl
    rw [foldl_queue_frame, foldl_queue_frame (p.calls.into sig.id),
      show (p.rewired calls).calls = calls from rfl, hroutines]
    rfl
  · rfl

theorem notifyCallers_calls (p : Program) (sig : Signature) : (p.notifyCallers sig).calls = p.calls := by
  unfold notifyCallers
  split
  · rw [foldl_queue_frame]
  · rfl

theorem notifyAll_rewired : ∀ (sigs : List Signature) {p : Program},
    (∀ i, calls.outOf i = p.calls.outOf i) →
    sigs.foldl notifyCallers (p.rewired calls) = (sigs.foldl notifyCallers p).rewired calls
  | [], _, _ => rfl
  | sig :: sigs, p, h => by
    rw [foldl_cons, foldl_cons, notifyCallers_rewired h]
    exact notifyAll_rewired sigs (by rw [notifyCallers_calls]; exact h)

theorem takeEffect_rewired (h : ∀ i, calls.outOf i = p.calls.outOf i) (sigs : List Signature)
    (d : Drained) :
    takeEffect sigs { d with calls } (p.rewired calls) = rewire calls (takeEffect sigs d p) := by
  unfold takeEffect
  rcases d.reports with f | reports
  · rfl
  · have hblind := reports_blind reports
    refine rewire_bind (hblind p calls) fun _ p' hrun => ?_
    refine congrArg (EStateM.Result.ok ()) (notifyAll_rewired sigs fun i => ?_)
    rw [hblind.calls_eq hrun, h]

theorem takeEffect_drained {d d' : Drained} (hroutines : d'.routines = d.routines)
    (htable : d'.table = d.table) (hreports : d'.reports = d.reports)
    (hcalls : ∀ i, d'.calls.outOf i = d.calls.outOf i) (sigs : List Signature) (p : Program) :
    takeEffect sigs d' (p.withDrained [] d') = rewire d'.calls (takeEffect sigs d (p.withDrained [] d)) := by
  obtain ⟨routines', table', calls', reports'⟩ := d'
  obtain rfl : routines' = d.routines := hroutines
  obtain rfl : table' = d.table := htable
  obtain rfl : reports' = d.reports := hreports
  exact takeEffect_rewired (p := p.withDrained [] d) hcalls sigs d

theorem drainBy_perm (hp : p.Numbered) {order order' : List Routine}
    (horder : order.Perm p.due) (horder' : order'.Perm p.due)
    (hnew : (p.drainBy p.signatures order).table = p.table) :
    let d := p.drainBy p.signatures order
    let d' := p.drainBy p.signatures order'
    (p.drainIn p.signatures order' p.table p.calls).1.Perm
        (p.drainIn p.signatures order p.table p.calls).1 ∧
      d'.routines = d.routines ∧ d'.reports = d.reports ∧ d'.table = p.table ∧
      ∀ i, d'.calls.outOf i = d.calls.outOf i := by
  intro d d'
  have hnodup : (order.map (·.id)).Nodup := by
    rw [(horder.map _).nodup_iff]
    exact hp.nodup.sublist (List.filter_sublist.map _)
  obtain ⟨hupshots, hfind, htable, hcalls⟩ :=
    drainIn_perm (horder'.trans horder.symm) hnodup p.calls hnew
  have hplace := place_congr fun r (_ : r ∈ p.routines) => hfind r.id
  exact ⟨hupshots, congrArg Prod.fst hplace, congrArg Prod.snd hplace, htable, hcalls⟩

/-- **The order of a round does not matter.**  Take a program at the start of a round, and two
orders of the routines that have pending blocks.  If draining them in the first order adds no
shape, then neither does the second.  Every routine comes to the same, with the same calls to
report; the call graph has the same edges, those of each caller in the same order; and the round
ends in the same way, with the same program but for the order of the edges.  The order of a
round of the analysis is one of them. -/
theorem round_order_irrelevant (hp : p.Numbered) {order order' : List Routine}
    (horder : order.Perm p.due) (horder' : order'.Perm p.due)
    (hnew : (p.drainBy p.signatures order).table = p.table) :
    let d := p.drainBy p.signatures order
    let d' := p.drainBy p.signatures order'
    (p.drainIn p.signatures order' p.table p.calls).1.Perm
        (p.drainIn p.signatures order p.table p.calls).1 ∧
      d'.routines = d.routines ∧ d'.reports = d.reports ∧ d'.table = p.table ∧
      d'.calls.edges.Perm d.calls.edges ∧ (∀ i, d'.calls.outOf i = d.calls.outOf i) ∧
      roundBy order' p = rewire d'.calls (roundBy order p) ∧ roundBy p.due p = round p := by
  intro d d'
  obtain ⟨hupshots, hroutines, hreports, htable, hcalls⟩ := drainBy_perm hp horder horder' hnew
  refine ⟨hupshots, hroutines, hreports, htable, CallGraph.perm_of_outOf hcalls, hcalls, ?_,
    (round_eq_roundBy hp).symm⟩
  exact takeEffect_drained hroutines (htable.trans hnew.symm) hreports hcalls p.signatures p

/-- An order in which the threads of a run may drain a round: a single thread takes the routines
as they are listed. -/
def Schedules (c : Config) (p : Program) (order : List Routine) : Prop :=
  order.Perm p.due ∧ (c.threads = 1 → order = p.due)

theorem roundBy_of_schedules (hp : p.Numbered) {c : Config} {order : List Routine}
    (h : Schedules c p order)
    (hnew : c.threads ≠ 1 → (p.drainBy p.signatures p.due).table = p.table) :
    roundBy order p = rewire (p.drainBy p.signatures order).calls (round p) := by
  rw [round_eq_roundBy hp]
  by_cases hone : c.threads = 1
  · rw [h.2 hone]
    exact takeEffect_drained rfl rfl rfl (fun _ => rfl) p.signatures p
  · obtain ⟨-, hroutines, hreports, htable, hcalls⟩ :=
      drainBy_perm hp (Perm.refl _) h.1 (hnew hone)
    exact takeEffect_drained hroutines (htable.trans (hnew hone).symm) hreports hcalls p.signatures p

/-- The program with every routine entered, as a run of the analysis starts its first round. -/
def started (p : Program) : Program :=
  { p with routines := (p.routines.mapM Routine.enter).toOption.getD p.routines }

theorem started_numbered (hp : p.Numbered) : p.started.Numbered := by
  unfold started
  rcases hrun : p.routines.mapM Routine.enter with f | routines
  · exact hp
  · exact (tends_enter hrun).gains.numbered hp

/-- Both routines are due.  In the reverse order, the edges are too. -/
theorem recursive_order_irrelevant :
    let p := (ofDecls recursive).started
    let d := p.drainBy p.signatures p.due.reverse
    p.due.map (·.id) = [0, 1] ∧
    (p.drainBy p.signatures p.due).calls.edges.map (·.link) = [(0, 0, 6), (1, 0, 2)] ∧
    d.calls.edges.map (·.link) = [(1, 0, 2), (0, 0, 6)] ∧
    roundBy p.due.reverse p = rewire d.calls (round p) := by
  intro p d
  have hp : p.Numbered := started_numbered (numbered_ofDecls recursive)
  obtain ⟨-, -, -, -, -, -, hround, hsame⟩ := round_order_irrelevant hp (List.Perm.refl _)
    (List.reverse_perm _) (by decide +kernel)
  rw [hsame] at hround
  exact ⟨by decide +kernel, by decide +kernel, by decide +kernel, hround⟩

end Program
end ShapeFlow
