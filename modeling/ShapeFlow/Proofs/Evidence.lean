/-
# What routines have seen of their calls

Calls leave traces in two places.  A walk logs each of them in the call graph, and reports it;
when the round is over, the reports are added to what the callees have seen.  An invalidated
routine forgets what it has seen and takes it from the call graph again.  Both come to the
same: in the middle of a round, what has been seen and what is still to be reported are what
the edges of the call graph tell.

Key definitions: `Tells`, `CallGraph.evidence`, `Mid.Evident`.
Key theorems: `tells_addAll`, `Infer.Walks.logs`, `Move.evident`,
`Program.History.observed_eq_evidence`.
-/
import ShapeFlow.Proofs.Cloning

namespace ShapeFlow

open ShapeFlow.Flow Infer List TypeSet

/-! ### What calls tell -/

/-- Some of the calls gives shape `x` to parameter `k` of routine `i`. -/
def Tells (calls : List (Nat × Tuple)) (i k x : Nat) : Prop :=
  ∃ c ∈ calls, c.1 = i ∧ x ∈ c.2.getD k .void

section Tells

variable {i k x : Nat}

theorem tells_nil : ¬ Tells [] i k x := by
  rintro ⟨c, hc, -⟩
  cases hc

theorem tells_append {l l' : List (Nat × Tuple)} :
    Tells (l ++ l') i k x ↔ Tells l i k x ∨ Tells l' i k x := by
  simp only [Tells, mem_append, or_and_right, exists_or]

theorem tells_cons {c : Nat × Tuple} {l : List (Nat × Tuple)} :
    Tells (c :: l) i k x ↔ (c.1 = i ∧ x ∈ c.2.getD k .void) ∨ Tells l i k x := by
  simp only [Tells, mem_cons, or_and_right, exists_or, exists_eq_left]

end Tells

/-- The call of an edge, as it is reported. -/
def CallEdge.told (e : CallEdge) : Nat × Tuple := (e.callee, e.argTypes)

open ShapeFlow.CallEdge (told)

namespace CallGraph

variable {i k x : Nat} {g : CallGraph}

/-- What the edges into routine `id` tell of parameter `k`: the types of that argument, as far as
it is given. -/
def evidence (g : CallGraph) (id k : Nat) : TypeSet :=
  ((g.into id).map fun e => (e.argTypes.getD k .void).plain).foldr (· ∪ ·) .void

theorem tells_edges : Tells (g.edges.map told) i k x ↔
    ∃ e ∈ g.into i, x ∈ e.argTypes.getD k .void := by
  constructor
  · rintro ⟨c, hc, rfl, hx⟩
    obtain ⟨e, he, rfl⟩ := mem_map.1 hc
    exact ⟨e, mem_into.2 ⟨he, rfl⟩, hx⟩
  · rintro ⟨e, he, hx⟩
    obtain ⟨he, hcallee⟩ := mem_into.1 he
    exact ⟨e.told, mem_map_of_mem he, hcallee, hx⟩

theorem mem_evidence : x ∈ g.evidence i k ↔ Tells (g.edges.map told) i k x := by
  have hfold : ∀ l : List CallEdge,
      x ∈ (l.map fun e => (e.argTypes.getD k .void).plain).foldr (· ∪ ·) .void ↔
        ∃ e ∈ l, x ∈ e.argTypes.getD k .void := by
    intro l
    induction l with
    | nil => simp
    | cons e l ih =>
      rw [map_cons, foldr_cons, mem_union, ih, mem_plain]
      simp only [mem_cons, or_and_right, exists_or, exists_eq_left]
  exact (hfold (g.into i)).trans tells_edges.symm

theorem byRef_evidence (g : CallGraph) (id k : Nat) : (g.evidence id k).byRef = false := by
  have hfold : ∀ l : List CallEdge, ((l.map fun e : CallEdge =>
      (e.argTypes.getD k .void).plain).foldr (· ∪ ·) void).byRef = false := by
    intro l
    induction l with
    | nil => rfl
    | cons e l ih =>
      show (false || _) = false
      rw [Bool.false_or]
      exact ih
  exact hfold _

/-- A call that is added tells what it tells, beside what was told before. -/
theorem tells_add (g : CallGraph) (e : CallEdge) :
    Tells ((g.add e).2.edges.map told) i k x ↔
      Tells (g.edges.map told) i k x ∨ Tells [e.told] i k x := by
  rcases g.add_cases e with ⟨-, -, hadd⟩ | ⟨l1, d, l2, hg, hlink, -, hadd⟩
  · rw [hadd, map_append, tells_append, map_singleton]
  · -- the types are added to those of an edge with the same callee
    have hcallee : d.callee = e.callee := congrArg (·.2.1) hlink
    simp only [hadd, hg, map_append, tells_append, map_cons, tells_cons, told, CallEdge.take, hcallee,
      mem_unionArgs, tells_nil, or_false]
    tauto

theorem tells_addAll : ∀ (es : List CallEdge) (g : CallGraph),
    Tells ((g.addAll es).edges.map told) i k x ↔
      Tells (g.edges.map told) i k x ∨ Tells (es.map told) i k x
  | [], g => by
    rw [map_nil]
    exact (or_iff_left tells_nil).symm
  | e :: es, g => by
    have ih := tells_addAll es (g.add e).2
    rw [show g.addAll (e :: es) = (g.add e).2.addAll es from rfl, ih, tells_add, map_cons,
      tells_cons, tells_cons]
    simp only [tells_nil, or_false, or_assoc]

end CallGraph

theorem Infer.Walks.logs {c : Setting} {w w' : Walker} (h : Walks c w w') :
    ∃ es : List CallEdge, w'.calls = w.calls.addAll es ∧
      w'.reports.toList = w.reports.toList ++ es.map told := by
  obtain ⟨es, -, hlogs⟩ := (made_block c).logs w
  have hsame : block c w = relog w.calls w.reports es (block c w) := hlogs w.calls w.reports
  rw [h.run] at hsame
  have hw' : w' = w'.logged w.calls w.reports es := (EStateM.Result.ok.inj hsame).2
  refine ⟨es, congrArg Walker.calls hw', ?_⟩
  have hreports : w'.reports = w.reports ++ (es.map told).toArray :=
    congrArg Walker.reports hw'
  rw [hreports, Array.toList_append]

/-! ### What has been seen -/

namespace Routine

variable {r r' : Routine} {i : Nat} {calls : CallGraph} {reports : List (Nat × Tuple)}

theorem getElem?_observe : ∀ (seen args : List TypeSet) (k : Nat),
    (observe seen args)[k]? = seen[k]?.map fun s => s ∪ (args.getD k .void).plain
  | [], _, k => by
    rw [observe]
    · rfl
    · exact fun _ _ _ _ h => by cases h
  | s :: seen, [], k => by
    have hvoid : ∀ s : TypeSet, s ∪ void.plain = s := fun s =>
      ext_mem (fun x => by simp) (Bool.or_false _)
    rw [observe]
    · rcases (s :: seen)[k]? with _ | t
      · rfl
      · simp [hvoid]
    · exact fun _ _ _ _ _ h => by cases h
  | s :: seen, a :: args, 0 => rfl
  | s :: seen, a :: args, k + 1 => getElem?_observe seen args k

/-- What routine `i` has seen, with the reports still to come, is what the calls tell. -/
def HasSeen (r : Routine) (i : Nat) (calls : CallGraph) (reports : List (Nat × Tuple)) : Prop :=
  ∀ (k : Nat) (s : TypeSet), r.observed[k]? = some s → s.byRef = false ∧
    ∀ x, Tells (calls.edges.map CallEdge.told) i k x ↔ x ∈ s ∨ Tells reports i k x

/-- A report that has been seen need not come any more. -/
theorem HasSeen.observe {callee : Nat} {args : Tuple} (h : r.HasSeen i calls ((callee, args) :: reports))
    (hr' : r'.observed = if callee = i then Routine.observe r.observed args else r.observed) :
    r'.HasSeen i calls reports := by
  intro k s hs
  rw [hr'] at hs
  by_cases hcallee : callee = i
  · rw [if_pos hcallee, getElem?_observe] at hs
    obtain ⟨s0, hs0, rfl⟩ := Option.map_eq_some_iff.1 hs
    obtain ⟨href, htells⟩ := h k s0 hs0
    refine ⟨by show (s0.byRef || false) = false; rw [href]; rfl, fun x => ?_⟩
    rw [htells, tells_cons, mem_union, mem_plain, or_assoc]
    simp only [hcallee, true_and]
  · rw [if_neg hcallee] at hs
    obtain ⟨href, htells⟩ := h k s hs
    refine ⟨href, fun x => ?_⟩
    rw [htells, tells_cons]
    simp only [hcallee, false_and, false_or]

theorem observed_foldl : ∀ (edges : List CallEdge) (seen : List TypeSet) (k : Nat) (s : TypeSet),
    (edges.foldl (fun seen e => Routine.observe seen e.argTypes) seen)[k]? = some s →
    ∃ s0, seen[k]? = some s0 ∧ s.byRef = s0.byRef ∧
      ∀ x, x ∈ s ↔ x ∈ s0 ∨ ∃ e ∈ edges, x ∈ e.argTypes.getD k .void
  | [], seen, k, s, h => ⟨s, h, rfl, fun x => by simp⟩
  | e :: edges, seen, k, s, h => by
    obtain ⟨s1, hs1, href, hmem⟩ := observed_foldl edges _ k s h
    rw [getElem?_observe] at hs1
    obtain ⟨s0, hs0, rfl⟩ := Option.map_eq_some_iff.1 hs1
    refine ⟨s0, hs0, href.trans (Bool.or_false _), fun x => ?_⟩
    rw [hmem, mem_union, mem_plain, or_assoc]
    simp only [mem_cons, or_and_right, exists_or, exists_eq_left]

end Routine

/-- **What an invalidated routine takes from the call graph** is what the calls tell. -/
theorem Program.forgotten_hasSeen (p : Program) (i : Nat) (r : Routine) :
    (p.forgotten i r).HasSeen i p.calls [] := by
  intro k s hs
  obtain ⟨s0, hs0, href, hmem⟩ := Routine.observed_foldl (p.calls.into i) r.forget.observed k s hs
  obtain rfl : s0 = .void := by
    have hvoid : s0 ∈ r.forget.observed := mem_of_getElem? hs0
    obtain ⟨t, -, rfl⟩ := mem_map.1 hvoid
    rfl
  refine ⟨href, fun x => ?_⟩
  rw [hmem, CallGraph.tells_edges]
  simp only [not_mem_void, false_or, tells_nil, or_false]

/-! ### Programs -/

/-- What every routine has seen, with the reports still to come, is what the calls tell. -/
def Mid.Evident (m : Mid) : Prop := ∀ (i : Nat) (r : Routine), m.program.routines[i]? = some r →
  r.HasSeen i m.program.calls m.reports

variable {m m' : Mid} {p p' : Program}

theorem Mid.Evident.each {R : Routine → Routine → Prop} {sigs sigs' : List Signature}
    {reports : List (Nat × Tuple)} (h : Mid.Evident ⟨p, sigs, reports⟩) (he : Program.Each R p p')
    (hR : ∀ (i : Nat) (r r' : Routine), p.routines[i]? = some r → R r r' → r'.observed = r.observed) :
    Mid.Evident ⟨p', sigs', reports⟩ := by
  intro i r' hr' k s hs
  obtain ⟨r, hr, hrr'⟩ := he.back hr'
  rw [hR i r r' hr hrr'] at hs
  obtain ⟨href, htells⟩ := h i r hr k s hs
  refine ⟨href, fun x => ?_⟩
  show Tells (p'.calls.edges.map told) i k x ↔ _
  rw [he.frame]
  exact htells x

theorem Mid.Evident.adjust (h : (Mid.of p).Evident) (hp : p.Kept) (ha : p.Adjust p') :
    (Mid.of p').Evident := by
  cases ha with
  | relabel => exact h
  | extend => exact h
  | tweak he =>
    refine Mid.Evident.each h he fun i r r' hr ht => ?_
    cases ht with
    | queue hq => rw [hq.frame]
    | mark hm => rw [hm.frame]
    | seed hs => rw [((hp.valid hr).seed_flows hp.table hs).2.frame]
  | @push r hfresh _ =>
    intro i s hs
    rcases getElem?_push hs with hs | ⟨rfl, rfl⟩
    · exact h i s hs
    · -- nobody has called the new routine
      have huntold : ∀ k x, ¬ Tells (p.calls.edges.map told) p.size k x := by
        rintro k x ⟨c, hc, hcallee, -⟩
        obtain ⟨e, he, rfl⟩ := mem_map.1 hc
        exact absurd hcallee (Nat.ne_of_lt (hp.edges e he).callee)
      intro k t ht
      obtain rfl : t = .void := by
        have hmem := mem_of_getElem? ht
        cases hfresh with
        | intro =>
          obtain ⟨q, -, rfl⟩ := mem_map.1 hmem
          rfl
      refine ⟨rfl, fun x => iff_of_false (huntold k x) ?_⟩
      rintro (hx | hx)
      · exact not_mem_void x hx
      · exact tells_nil hx

theorem Mid.Evident.change (h : (Mid.of p).Evident) (hp : p.Kept) (hc : p.Change p') :
    (Mid.of p').Evident := by
  cases hc with
  | adjust ha => exact h.adjust hp ha
  | declare => exact h
  | resolve => exact h
  | @forget i r hr =>
    intro j s hs
    rcases Program.of_put hr hs with ⟨rfl, rfl⟩ | ⟨-, hs⟩
    · exact p.forgotten_hasSeen i r
    · exact h j s hs

/-- **Each move keeps seen what calls tell.** -/
theorem Move.evident (h : Move m m') (hm : m.Kept) (he : m.Evident) : m'.Evident := by
  cases h with
  | change hc => exact he.change hm.program hc
  | @walk p sigs reports i b r q w w' hr _ _ hcalls hroutine hwalk =>
    obtain ⟨es, hcalls', hreports'⟩ := hwalk.logs
    have hobserved : w'.routine.observed = r.observed := by rw [hwalk.advances.frame, hroutine]
    have hsame : ∀ (j : Nat) (s' : Routine), (p.after i w').routines[j]? = some s' →
        ∃ s, p.routines[j]? = some s ∧ s'.observed = s.observed := by
      intro j s' hs'
      rcases Program.of_put hr hs' with ⟨rfl, rfl⟩ | ⟨-, hs'⟩
      · exact ⟨r, hr, hobserved⟩
      · exact ⟨s', hs', rfl⟩
    intro j s' hs' k t ht
    obtain ⟨s, hs, hss'⟩ := hsame j s' hs'
    rw [hss'] at ht
    obtain ⟨href, htells⟩ := he j s hs k t ht
    refine ⟨href, fun x => ?_⟩
    show Tells (w'.calls.edges.map told) j k x ↔
      x ∈ t ∨ Tells (reports ++ w'.reports.toList) j k x
    have htells : Tells (p.calls.edges.map told) j k x ↔
      x ∈ t ∨ Tells (reports ++ w.reports.toList) j k x := htells x
    rw [hcalls', CallGraph.tells_addAll, hcalls, htells, hreports', ← append_assoc,
      tells_append (l := reports ++ w.reports.toList), or_assoc]
  | @report p p' sigs callee args reports hrun =>
    obtain ⟨r, r', hr, rfl, -, -, hframe⟩ := hm.grows hrun
    have hobserved : r'.observed = Routine.observe r.observed args := by rw [hframe]; rfl
    intro j s hs
    rcases Program.of_put hr hs with ⟨rfl, rfl⟩ | ⟨hne, hs⟩
    · exact (he callee r hr).observe (by rw [if_pos rfl, hobserved])
    · exact (he j s hs).observe (by rw [if_neg hne])
  | @notify p sigs _ =>
    exact Mid.Evident.each he (Program.notify_piles sigs p) fun _ r r' _ hpiles => by rw [hpiles.frame]

theorem Moves.evident (h : Moves m m') (hm : m.Kept) (he : m.Evident) : m'.Evident := by
  induction h with
  | refl => exact he
  | tail hmoves hmove ih => exact hmove.evident (Moves.kept hmoves hm) ih

namespace Program

theorem History.observed_eq (h : p.History) {i : Nat} {r : Routine} (hr : p.routines[i]? = some r) :
    r.observed = (List.range r.params.length).map (p.calls.evidence i) := by
  have hkept := h.sound.toKept
  have hempty : (Mid.of .empty).Evident := fun _ _ hr => by cases hr
  have hevident := Moves.evident h.moves (Mid.kept_of sound_empty.toKept) hempty
  have harity : r.observed.length = r.params.length := (hkept.valid hr).arity
  refine ext_getElem (by simp [harity]) fun k hk hk' => ?_
  rw [getElem_map, getElem_range]
  obtain ⟨href, htells⟩ := hevident i r hr k _ (getElem?_eq_getElem hk)
  refine ext_mem (fun x => ?_) (href.trans (CallGraph.byRef_evidence ..).symm)
  rw [CallGraph.mem_evidence]
  exact ((htells x).trans (or_iff_left tells_nil)).symm

theorem invalidate_frame {id : Nat} (h : p.invalidate id = .ok p') : p'.calls = p.calls ∧
    ∀ (i : Nat), (p'.routines[i]?).map (·.params) = (p.routines[i]?).map (·.params) := by
  obtain ⟨r, hr, rfl⟩ := invalidate_eq h
  obtain ⟨hqueues, -⟩ := requeueCallers_spec (p.put id (p.forgotten id r)) id
  refine ⟨?_, fun i => ?_⟩
  · show ((p.put id (p.forgotten id r)).requeueCallers id).calls = p.calls
    rw [hqueues.frame]
    rfl
  · have hput : Each (fun s s' => s'.params = s.params) p (p.put id (p.forgotten id r)) :=
      each_put (R := fun s s' : Routine => s'.params = s.params) (fun _ => rfl) hr rfl
    have heach := hput.trans (fun _ _ _ h h' => h'.trans h)
      (hqueues.mono fun _ s s' _ hq => by rw [hq.frame])
    show (((p.put id (p.forgotten id r)).requeueCallers id).routines[i]?).map (·.params) = _
    rcases hs : p.routines[i]? with _ | s
    · rw [getElem?_eq_none_iff.2 (heach.size.le.trans (getElem?_eq_none_iff.1 hs))]
    · obtain ⟨s', hs', hparams⟩ := heach.forth hs
      rw [hs', Option.map_some, Option.map_some, hparams]

/-- **What a routine has seen is what the calls tell.**  At any time between operations, none of
them a run that failed: for each parameter of each routine, the types seen are those that the
edges into the routine give to it; so a routine that is invalidated takes exactly what it had
seen from the call graph again. -/
theorem History.observed_eq_evidence (h : p.History) :
    (∀ r ∈ p.routines, r.observed = (List.range r.params.length).map (p.calls.evidence r.id)) ∧
    ∀ id p', p.invalidate id = .ok p' → p'.routines.map (·.observed) = p.routines.map (·.observed) := by
  constructor
  · intro r hr
    obtain ⟨i, hi⟩ := List.getElem?_of_mem hr
    rw [h.sound.toKept.ids i r hi]
    exact h.observed_eq hi
  · intro id p' hrun
    obtain ⟨hcalls, hparams⟩ := invalidate_frame hrun
    have h' : p'.History := h.tail ⟨.invalidate _, nofun, .invalidate hrun⟩
    refine List.ext_getElem? fun i => ?_
    have hsame := hparams i
    rw [List.getElem?_map, List.getElem?_map]
    rcases hr : p.routines[i]? with _ | r
    · rw [hr] at hsame
      rw [Option.map_eq_none_iff.1 hsame]
    · rw [hr] at hsame
      obtain ⟨r', hr', heq⟩ := Option.map_eq_some_iff.1 hsame
      rw [hr', Option.map_some, Option.map_some, h'.observed_eq hr', h.observed_eq hr, heq, hcalls]

/-- A routine that is called with an integer and anything, cloned twice, and then invalidated. -/
theorem pairing_observed : ∃ n p r p', (ofDecls pairing).analyze (repeatedly true) = .ok (.converged n) p ∧
    p.routines[0]? = some r ∧ r.observed = [.int, .any] ∧
    p.calls.evidence r.id 0 = .int ∧ p.calls.evidence r.id 1 = .any ∧
    p.invalidate 0 = .ok p' ∧ p'.routines.map (·.observed) = p.routines.map (·.observed) := by
  obtain ⟨n, p, hrun, hgood⟩ := exists_converged (ofDecls pairing) (repeatedly true)
    (fun p => p.routines[0]?.any fun r => r.observed == [.int, .any] && r.params.length == 2)
    (by decide +kernel)
  simp only [Option.any_eq_true, Bool.and_eq_true, beq_iff_eq] at hgood
  obtain ⟨r, hr, hseen, hparams⟩ := hgood
  have hhist := (history_ofDecls pairing).analyze (by simp [repeatedly]) hrun
  have hsize : 0 < p.size := (List.getElem?_eq_some_iff.1 hr).1
  obtain ⟨p', hinvalidate⟩ : ∃ p', p.invalidate 0 = .ok p' := by
    unfold invalidate check
    rw [if_pos hsize]
    exact ⟨_, rfl⟩
  obtain ⟨hevidence, hagain⟩ := hhist.observed_eq_evidence
  have htold : [.int, .any] = [p.calls.evidence r.id 0, p.calls.evidence r.id 1] := by
    have := hevidence r (List.mem_of_getElem? hr)
    rwa [hseen, hparams] at this
  obtain ⟨hint, hany⟩ := List.cons_eq_cons.1 htold
  exact ⟨n, p, r, p', hrun, hr, hseen, hint.symm, (List.cons_eq_cons.1 hany).1.symm, hinvalidate,
    hagain 0 p' hinvalidate⟩

end Program
end ShapeFlow
