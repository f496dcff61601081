/-
# Analysing again

A program that has been analysed until nothing was left to do can be asked to look at any of
its blocks again.  If none of its routines declares static variables, and whatever they store
into is a place, the blocks find what they found the last time: no state, fact or return type
grows, no call gives its callee anything new, and nothing is queued beyond what was asked for.

Key definitions: `Routine.Agrees`, `Mid.Repeats`, `Plan.clonesNothing`, `Program.Plain`.
Key theorems: `Act.repeats`, `Program.Plain.calm`, `Program.Plain.analyze_idempotent`.
-/
import ShapeFlow.Proofs.Records
import ShapeFlow.Proofs.Strides

namespace ShapeFlow

open ShapeFlow.Flow Infer List

/-! ### Routines of which the same is known -/

namespace Routine

variable {r r' r'' : Routine}

/-- The same has been found out about a routine: the inputs of its blocks, the types, target and
reads of its expressions, what it was given and what it returns. -/
structure Agrees (r r' : Routine) : Prop extends SameText r r' where
  inputs : r'.inputs = r.inputs
  facts : r'.facts = r.facts
  sites : r'.sites = r.sites
  observed : r'.observed = r.observed
  returns : r'.scope.returns = r.scope.returns

theorem Agrees.of_frame (h : r' = { r with
      status := r'.status, pending := r'.pending, flags := r'.flags
      candidates := r'.candidates, applied := r'.applied }) : r.Agrees r' := by
  rw [h]
  exact ⟨⟨rfl, rfl, rfl, rfl, rfl, rfl, rfl, rfl, rfl⟩, rfl, rfl, rfl, rfl, rfl⟩

theorem Agrees.refl (r : Routine) : r.Agrees r := .of_frame rfl

theorem Agrees.trans (h : r.Agrees r') (h' : r'.Agrees r'') : r.Agrees r'' where
  id := h'.id.trans h.id
  name := h'.name.trans h.name
  params := h'.params.trans h.params
  graph := h'.graph.trans h.graph
  exported := h'.exported.trans h.exported
  origin := h'.origin.trans h.origin
  fixed := h'.fixed.trans h.fixed
  scope := h'.scope.trans h.scope
  names := h'.names.trans h.names
  inputs := h'.inputs.trans h.inputs
  facts := h'.facts.trans h.facts
  sites := h'.sites.trans h.sites
  observed := h'.observed.trans h.observed
  returns := h'.returns.trans h.returns

theorem Agrees.input? (h : r.Agrees r') (b : Nat) : r'.input? b = r.input? b := by
  unfold Routine.input?
  rw [h.inputs]

theorem Agrees.signature (h : r.Agrees r') : r'.signature = r.signature := by
  unfold Routine.signature paramTypes
  simp only [h.id, h.params, h.fixed, h.returns]

theorem Agrees.undisturbed (h : r.Agrees r') (b : Nat) : r.Undisturbed r' b where
  id := h.id
  graph := h.graph
  names := h.names
  input := h.input? b
  facts _ _ := by rw [h.facts]
  inputs d s hs := ⟨s, (h.input? d).trans hs, State.le_refl s⟩
  returns := h.returns ▸ TypeSet.le_refl _

theorem Agrees.readConcern (h : r.Agrees r') (site : ReadSite) :
    r'.readConcern site = r.readConcern site := by
  have hname : r'.scope.vars[site.var]?.map (·.name) = r.scope.vars[site.var]?.map (·.name) := by
    rw [← getElem?_map, ← getElem?_map]
    exact congrArg (·[site.var]?) h.names
  unfold Routine.readConcern
  rcases hv : r.scope.vars[site.var]? with _ | v <;> rw [hv] at hname
  · rw [Option.map_eq_none_iff.1 hname]
  · obtain ⟨v', hv', heq⟩ := Option.map_eq_some_iff.1 hname
    simp only [hv', Option.map_some, heq]

theorem Agrees.diagnostics (h : r.Agrees r') : r'.diagnostics = r.diagnostics := by
  have hconcerns : r'.concerns = r.concerns := by
    funext e
    unfold concerns
    rw [h.facts, funext h.readConcern]
  unfold Routine.diagnostics
  rw [h.origin, h.graph, h.id, hconcerns]

theorem Received.seed_eq_self {t : ShapeTable} {n : Nat} (h : r.Received) (hr : r.Valid t n)
    (hentered : (r.input? Graph.entry).isSome = true) : r.seed = .ok (false, r) := by
  obtain ⟨s, hs⟩ := Option.isSome_iff_exists.1 hentered
  exact flowInto_eq_self hs (hr.fits _ s hs) hr.entryState_spec.1 (h s hs)

end Routine

theorem Infer.Idles.agrees {g : Place} {w' v v' : Walker} (h : Idles w' v v')
    (ha : Advances g v v') : v.routine.Agrees v'.routine where
  toSameText := ha.toGrows.text
  inputs := h.inputs
  facts := h.facts
  sites := h.sites
  observed := by rw [ha.frame]
  returns := h.returns

/-! ### A run that finds nothing new -/

/-- The run that began with `p` has found nothing new. -/
structure Mid.Repeats (p : Program) (m : Mid) : Prop where
  size : m.program.size = p.size
  routines : ∀ (i : Nat) (r' : Routine), m.program.routines[i]? = some r' →
    ∃ r, p.routines[i]? = some r ∧ r.Agrees r'
  directory : m.program.directory = p.directory
  resolver : m.program.resolver = p.resolver
  table : p.table.Extends m.program.table
  sigs : m.sigs = p.signatures
  reports : ∀ x ∈ m.reports, (Mid.of p).Heard x

/-- A program that has settled, with nothing pending. -/
structure Program.Settled (p : Program) : Prop extends (Mid.of p).Settling where
  quiet : p.Quiet
  entered : p.Entered
  received : ∀ r ∈ p.routines, r.Received

variable {m m' : Mid} {p p' : Program}

theorem Mid.repeats_refl (p : Program) : (Mid.of p).Repeats p where
  size := rfl
  routines i r hr := ⟨r, hr, .refl r⟩
  directory := rfl
  resolver := rfl
  table := .refl _
  sigs := rfl
  reports x hx := by cases hx

theorem Mid.Repeats.map_eq {α : Type} {f : Routine → α} (h : m.Repeats p)
    (hf : ∀ r r' : Routine, r.Agrees r' → f r' = f r) :
    m.program.routines.map f = p.routines.map f := by
  refine ext_getElem? fun i => ?_
  rw [getElem?_map, getElem?_map]
  rcases hr : m.program.routines[i]? with _ | r'
  · have hlen : p.routines.length ≤ i := h.size.symm.trans_le (getElem?_eq_none_iff.1 hr)
    rw [getElem?_eq_none_iff.2 hlen]
  · obtain ⟨r, hr, hagrees⟩ := h.routines i r' hr
    rw [hr]
    exact congrArg some (hf r r' hagrees)

theorem Mid.Repeats.signatures (h : m.Repeats p) : m.program.signatures = p.signatures :=
  h.map_eq fun _ _ h => h.signature

theorem Mid.Repeats.each {R : Routine → Routine → Prop} (h : (Mid.of p').Repeats p) {q : Program}
    (he : Program.Each R p' q) (hR : ∀ (i : Nat) (r r' : Routine), p'.routines[i]? = some r →
      R r r' → r.Agrees r') : (Mid.of q).Repeats p := by
  have hrepeats : ∀ (i : Nat) (r' : Routine), q.routines[i]? = some r' →
      ∃ r, p.routines[i]? = some r ∧ r.Agrees r' := by
    intro i r' hr'
    obtain ⟨r1, hr1, hrr'⟩ := he.back hr'
    obtain ⟨r, hr, hagrees⟩ := h.routines i r1 hr1
    exact ⟨r, hr, hagrees.trans (hR i r1 r' hr1 hrr')⟩
  have hframe := he.frame
  refine ⟨he.size.trans h.size, hrepeats, ?_, ?_, ?_, ?_, fun x hx => by cases hx⟩
  · rw [Mid.of, hframe]
    exact h.directory
  · rw [Mid.of, hframe]
    exact h.resolver
  · rw [Mid.of, hframe]
    exact h.table
  · rw [Mid.of, he.signatures fun i r r' hr hrr' => (hR i r r' hr hrr').signature]
    exact h.sigs

theorem Program.Settled.tweak_agrees (hp : p.Settled) (hm : m.Sound) (hr : m.Repeats p) {i : Nat}
    {r r' : Routine} (hri : m.program.routines[i]? = some r) (h : r.Tweak m.program.table r') :
    r.Agrees r' := by
  cases h with
  | queue h | mark h =>
    refine .of_frame ?_
    rw [h.frame]
  | seed hseed =>
    obtain ⟨s, hs, hagrees⟩ := hr.routines i r hri
    have hmem := mem_of_getElem? hs
    have hreceived : r.Received := by
      intro s' hs'
      rw [hagrees.entryState hagrees.observed]
      exact hp.received s hmem s' ((hagrees.input? _).symm.trans hs')
    have hself := hreceived.seed_eq_self (hm.program.valid hri)
      (by rw [hagrees.input?]; exact hp.entered s hmem)
    rw [hself] at hseed
    cases hseed
    exact .refl r

section Walk

variable {sigs : List Signature} {reports : List (Nat × Tuple)} {i b : Nat}
  {r : Routine} {q : Agenda Nat} {v v' : Walker}

/-- A walk finds nothing new. -/
theorem Mid.Repeats.walk (h : Mid.Repeats p ⟨p', sigs, reports ++ v.reports.toList⟩)
    (hp : p.Settled) (hr : p'.routines[i]? = some r) (htable : v.table = p'.table)
    (hroutine : v.routine = { r with status := .analyzing, pending := q })
    (hwalk : Walks (p'.setting sigs b) v v') :
    Mid.Repeats p ⟨p'.after i v', sigs, reports ++ v'.reports.toList⟩ := by
  obtain ⟨s, hs, hagrees⟩ := h.routines i r hr
  have hmem := mem_of_getElem? hs
  have hstart : s.Agrees v.routine := hagrees.trans (.of_frame (by rw [hroutine]))
  have hidle : b ∉ s.pending.toList := by
    rw [hp.quiet s hmem]
    exact not_mem_nil
  obtain ⟨c, w, w', hacc⟩ := hp.settles s hmem b (by rw [← hstart.input?]; exact hwalk.here) hidle
  have hakin : (p.setting p.signatures b).Akin (p'.setting sigs b) :=
    ⟨fun name => congrArg (Directory.candidates · name) h.directory, hp.resolver,
      h.resolver.trans hp.resolver, congrArg (map Signature.head) h.sigs⟩
  have hmemory : Remembers c (p'.setting sigs b) w w' v.table v.routine := by
    refine hacc.memory.step hakin rfl (htable ▸ h.table) (hstart.undisturbed _) fun x _ => ?_
    exact congrArg (·[x.1]?) h.sigs
  have hidles := hacc.walk.again hwalk hmemory hacc.steady hacc.sites
    (hstart.sites.trans (hp.steady s hmem).2)
  have hend : s.Agrees v'.routine := hstart.trans (hidles.agrees hwalk.advances)
  refine ⟨length_set.trans h.size, fun j r' hr' => ?_, h.directory, h.resolver, ?_, h.sigs,
    fun x hx => ?_⟩
  · rcases Program.of_put hr hr' with ⟨rfl, rfl⟩ | ⟨-, hr'⟩
    · exact ⟨s, hs, hend⟩
    · exact h.routines j r' hr'
  · show p.table.Extends v'.table
    rw [hidles.table, htable]
    exact h.table
  · rcases mem_append.1 hx with hx | hx
    · exact h.reports x (mem_append_left _ hx)
    · rcases hidles.reports x (Array.mem_toList_iff.1 hx) with hx | hx
      · exact h.reports x (mem_append_right _ (Array.mem_toList_iff.2 hx))
      · exact hacc.heard x hx

end Walk

/-- **An act after a program has settled finds nothing new.** -/
theorem Act.repeats (h : Act m m') (hp : p.Settled) (hm : m.Sound) (hr : m.Repeats p)
    (hsize : m'.program.size = m.program.size) : m'.Repeats p := by
  cases h with
  | change ha =>
    cases ha with
    | relabel => exact { hr with }
    | extend hext _ => exact { hr with table := hr.table.trans hext }
    | tweak he => exact hr.each he fun i r r' hri ht => hp.tweak_agrees hm hr hri ht
    | push _ _ => exact absurd ((Program.size_push ..).symm.trans hsize) (Nat.succ_ne_self _)
  | walk hri _ htable _ hroutine hwalk => exact hr.walk hp hri htable hroutine hwalk
  | @report q q' sigs callee args reports hrun =>
    obtain ⟨s, hs, hseen⟩ := (hr.reports _ (.head _)).resolve_left not_mem_nil
    obtain ⟨r, hri, -⟩ := Program.report_cases hrun
    obtain ⟨s', hs', hagrees⟩ := hr.routines callee r hri
    obtain rfl := Option.mem_unique hs' hs
    rw [Program.report_eq hri, if_pos (by rw [hagrees.observed]; exact hseen)] at hrun
    cases hrun
    exact { hr with reports := fun x hx => hr.reports x (.tail _ hx) }
  | @notify q sigs _ =>
    have hself : sigs.foldl Program.notifyCallers q = q := by
      refine Program.notify_eq_self fun sig hsig r hri => ?_
      rw [show sigs = p.signatures from hr.sigs] at hsig
      obtain ⟨s, hmem, rfl⟩ := mem_map.1 hsig
      obtain ⟨i, hs⟩ := getElem?_of_mem hmem
      rw [show s.signature.id = i from hp.sound.program.ids i s hs] at hri
      obtain ⟨s', hs', hagrees⟩ := hr.routines i r hri
      obtain rfl := Option.mem_unique hs' hs
      exact hagrees.returns
    rw [hself]
    exact { hr with sigs := hr.signatures, reports := fun x hx => by cases hx }

/-- **A run after a program has settled finds nothing new**, if it adds no routine. -/
theorem Acts.repeats (h : Acts m m') (hp : p.Settled) (hm : m.Sound) (hr : m.Repeats p)
    (hsize : m'.program.size = m.program.size) : m'.Repeats p :=
  h.keep hm hsize (fun hact hm hsize hr => hact.repeats hp hm hr hsize) hr

/-! ### Runs that clone nothing -/

/-- No routine is ever cloned: nobody proposes it, or it is not allowed. -/
def Plan.clonesNothing (plan : Plan) : Bool :=
  plan.strategies.isEmpty || plan.config.maxClones == 0

namespace Program

variable {plan : Plan}

theorem specialize_nothing (h : plan.clonesNothing = true) (p : Program) :
    p.specialize plan.config plan.strategies = .ok (0, p) := by
  unfold specialize
  by_cases hempty : plan.strategies.isEmpty = true
  · rw [if_pos hempty]
    rfl
  · have hmax : plan.config.maxClones = 0 := by
      simpa [Plan.clonesNothing, hempty] using h
    have hnone : p.eligible plan.config = [] :=
      filter_eq_nil_iff.2 fun r _ => by simp [Routine.eligible, hmax]
    rw [if_neg hempty, hnone]
    rfl

theorem Quiet.marked (h : p.Quiet) : p.markStable.forwardDynamic.Quiet := by
  have hstable : p.markStable.Quiet := quiet_map h fun r => by split <;> rfl
  exact quiet_map hstable fun r => by split <;> rfl

/-- An iteration that clones nothing is the last one. -/
theorem iteration_nothing (hplan : plan.clonesNothing = true) (hrun : settle p = .ok () p')
    (hquiet : p'.Quiet) :
    ∃ asked, iteration plan p = .ok (asked, true) p'.markStable.forwardDynamic := by
  refine ⟨p'.markStable.asked plan, ?_⟩
  unfold iteration
  rw [bind_of_ok hrun, bind_of_ok (show (modify markStable : Run Unit) p' = .ok () _ from rfl),
    get_bind,
    bind_of_ok (attempt_eq (specialize_nothing hplan p'.markStable))]
  show EStateM.Result.ok (p'.markStable.asked plan, 0 == 0 && !p'.markStable.forwardDynamic.isPending) _ = _
  rw [quiet_iff.1 hquiet.marked]
  rfl

theorem settle_succeeds (hp : p.Sound) (hentered : p.Entered)
    (hres : ∀ n, p.size ≤ n → p.resolver.Within n) :
    ∃ p', settle p = .ok () p' ∧ Continues p p' ∧ p'.size = p.size ∧ p'.Quiet := by
  have hends := settle_ends hp.toKept hentered
  rcases hrun : settle p with ⟨⟨⟩, p'⟩ | ⟨f, p'⟩
  · obtain ⟨hrounds, hquiet⟩ := hends.ok hrun
    exact ⟨p', rfl, hrounds.toContinues, hrounds.size_eq, hquiet⟩
  · obtain ⟨n, hn, hwithin⟩ := (hends.error hrun).astray hp
    exact absurd (hres n hn) hwithin

/-- What a run that clones nothing comes to: it is cut short before it begins, or it leaves
nothing to do. -/
structure Finishes (plan : Plan) (p : Program) (o : Outcome) (p' : Program) : Prop where
  acts : Acts (.of p) (.of p')
  size : p'.size = p.size
  entered : p'.Entered
  outcome : o = .converged 1 ∨
    o.isConverged = false ∧ (plan.config.maxIterations = 0 ∨ plan.cancelled 0 = true)
  quiet : o.isConverged = true → p'.Quiet
  diagnostics : o.isConverged = true →
    p'.diagnostics = Sorted.sortNew (p'.routines.flatMap Routine.diagnostics)

theorem analyze_nothing (hp : p.Sound) (hres : ∀ n, p.size ≤ n → p.resolver.Within n)
    (hplan : plan.clonesNothing = true) :
    ∃ o p', p.analyze plan = .ok o p' ∧ Finishes plan p o p' := by
  obtain ⟨rs, -, hcont, hlength, heq⟩ := analyze_enters hp.toKept
  have hlast : ∀ {o : Outcome} {q : Program},
      iterate plan 0 0 plan.config.maxIterations (p.entering rs) = .ok o q →
      p.analyze plan = .ok o { (if o.isConverged then q.diagnose else q) with outcome := some o } := by
    intro o q hrun
    rw [heq, bind_of_ok hrun]
    cases o <;> rfl
  -- A run that is cut short has only entered its routines.
  have hshort : ∀ (o : Outcome) (diagnostics : List Diagnostic), o.isConverged = false →
      (plan.config.maxIterations = 0 ∨ plan.cancelled 0 = true) →
      iterate plan 0 0 plan.config.maxIterations (p.entering rs) =
        .ok o { p.entering rs with diagnostics } →
      ∃ o p', p.analyze plan = .ok o p' ∧ Finishes plan p o p' := by
    intro o diagnostics ho hcut hrun
    have hrun' := hlast hrun
    rw [ho, if_neg (by decide)] at hrun'
    refine ⟨o, _, hrun', ?_, hlength, hcont.entered, .inr ⟨ho, hcut⟩, ?_, ?_⟩
    · exact (hcont.acts hp).trans (Adjust.relabel diagnostics (some o)).acts
    all_goals
      intro h
      rw [ho] at h
      cases h
  by_cases hcancel : plan.cancelled 0 = true
  · refine hshort (.cancelled 0) [] rfl (.inr hcancel) ?_
    cases plan.config.maxIterations <;>
    · unfold iterate
      rw [if_pos hcancel]
      rfl
  rcases hmax : plan.config.maxIterations with _ | left
  · refine hshort (.budgetExceeded 0) [⟨none, none, .budgetExceeded 0⟩] rfl (.inl hmax) ?_
    rw [hmax]
    unfold iterate
    rw [if_neg hcancel]
    rfl
  · obtain ⟨p2, hsettle, hcont2, hsize2, hquiet2⟩ := settle_succeeds (hcont.sound hp) hcont.entered
      fun n hn => by
        rw [hcont.resolver]
        exact hres n (hcont.size.trans hn)
    obtain ⟨asked, hiter⟩ := iteration_nothing hplan hsettle hquiet2
    have hkept2 := (hcont2.sound (hcont.sound hp)).toKept
    have hcont3 := hcont2.trans (Continues.tweak hkept2 hcont2.entered (each_markStable hkept2))
    have hkept3 := (hcont3.sound (hcont.sound hp)).toKept
    have hcont4 := hcont3.trans (Continues.tweak hkept3 hcont3.entered (each_forwardDynamic hkept3))
    have hrun' := hlast (o := .converged 1) (q := p2.markStable.forwardDynamic) (by
      rw [hmax]
      unfold iterate
      rw [if_neg hcancel, bind_of_ok hiter]
      rfl)
    have hdiag : p2.markStable.forwardDynamic.diagnostics = [] :=
      ((settle_tends _).ok hsettle).1.diagnostics
    refine ⟨.converged 1, _, hrun', ?_, ?_, hcont4.entered, .inl rfl, fun _ => ?_, fun _ => ?_⟩
    · exact (hcont.acts hp).trans ((hcont4.acts (hcont.sound hp)).trans
        (Adjust.relabel _ (some (.converged 1))).acts)
    · have hsize : p2.markStable.forwardDynamic.size = p2.size :=
        (each_forwardDynamic hkept3).size.trans (each_markStable hkept2).size
      exact hsize.trans (hsize2.trans hlength)
    · exact hquiet2.marked
    · show Sorted.sortNew (p2.markStable.forwardDynamic.diagnostics ++ _) = _
      rw [hdiag]
      rfl

/-! ### Programs that are declared, then analysed -/

instance {α : Type} (e : Expr α) : Decidable e.IsSteady :=
  inferInstanceAs (Decidable (∀ x ∈ e.walk, ∀ y ∈ x.target?, y.isPlace = true))

instance (g : Graph Nat) : Decidable g.IsSteady :=
  decidable_of_iff ((∀ blk ∈ g.blocks, ∀ o ∈ blk.ops, o.isStatic = false) ∧ ∀ e ∈ g.roots, e.IsSteady)
    ⟨fun h => ⟨h.1, h.2⟩, fun h => ⟨h.ops, h.exprs⟩⟩

/-- A program as declared, before anything is analysed. -/
abbrev Declared (p : Program) : Prop := Operations (fun _ => False) (· = .declare) .empty p

/-- A program without static variables, which stores into places only, that was declared and
then analysed by runs that clone nothing. -/
def Plain (p : Program) : Prop :=
  ∃ q, q.Declared ∧ (∀ r ∈ q.routines, r.graph.IsSteady) ∧
    Operations (·.clonesNothing = true) (fun e => e = .analyze ∨ ∃ id, e = .requeue id) q p

theorem Declared.history (h : p.Declared) : p.History := by
  refine Relation.ReflTransGen.mono (fun q q' hop => ?_) _ _ h
  obtain ⟨_, rfl, hop⟩ := hop
  cases hop with
  | addRoutine hadd => exact ⟨.declare, nofun, .addRoutine hadd⟩
  | declareClass name members => exact ⟨.declare, nofun, .declareClass name members⟩

theorem Declared.resolver (h : p.Declared) : p.resolver = .mostSpecific := by
  induction h with
  | refl => rfl
  | tail _ hop ih =>
    obtain ⟨_, rfl, hop⟩ := hop
    cases hop with
    | addRoutine hadd =>
      obtain ⟨r, table, -, -, rfl⟩ := addRoutine_cases hadd
      exact ih
    | declareClass => exact ih

theorem Declared.blank (h : p.Declared) : ∀ r ∈ p.routines, r.sites = [] ∧ ∀ b, r.input? b = none := by
  induction h with
  | refl => exact fun r hr => by cases hr
  | tail hp hop ih =>
    obtain ⟨_, rfl, hop⟩ := hop
    cases hop with
    | addRoutine hadd =>
      obtain ⟨s, table, hdecl, -, rfl⟩ := addRoutine_cases hadd
      intro r hr
      rcases mem_append.1 hr with hr | hr
      · exact ih r hr
      · obtain rfl := mem_singleton.1 hr
        obtain ⟨-, -, hfresh⟩ := Routine.ofDecl_spec (Declared.history hp).sound.table hdecl
        cases hfresh with
        | intro => exact ⟨rfl, Routine.input?_replicate rfl⟩
    | declareClass => exact ih

/-- What holds of a plain program at any time. -/
structure Calm (p : Program) : Prop extends (Mid.of p).Settling where
  received : ∀ r ∈ p.routines, r.Received

theorem Calm.acts (h : p.Calm) (hacts : Acts (.of p) (.of p')) (hsize : p'.size = p.size) :
    p'.Calm where
  toSettling := hacts.settling h.toSettling hsize
  received := by
    refine hacts.keep (P := fun m => ∀ r ∈ m.program.routines, r.Received) h.sound hsize
      (fun {m m'} hact hm hsize hr r' hr' => ?_) h.received
    obtain ⟨i, hi⟩ := getElem?_of_mem hr'
    have hlt : i < m.program.size := hsize ▸ (lt_of_getElem? hi)
    obtain ⟨r, hri⟩ : ∃ r, m.program.routines[i]? = some r := ⟨_, getElem?_eq_getElem hlt⟩
    obtain ⟨s, hs, hevolves⟩ := (hact.move.evolves hm.kept).old i r hri
    obtain rfl := Option.mem_unique hs hi
    exact hevolves.received hm.kept hri (hr r (mem_of_getElem? hri))

theorem Calm.within (h : p.Calm) (n : Nat) : p.resolver.Within n := by
  have hres : p.resolver = .mostSpecific := h.resolver
  rw [hres]
  exact Resolver.mostSpecific_within n

theorem Calm.analyze (h : p.Calm) {plan : Plan} (hplan : plan.clonesNothing = true) :
    ∃ o p', p.analyze plan = .ok o p' ∧ Finishes plan p o p' :=
  analyze_nothing h.sound.program (fun n _ => h.within n) hplan

theorem Calm.finishes (h : p.Calm) (hplan : plan.clonesNothing = true) {o : Outcome}
    (hrun : p.analyze plan = .ok o p') : Finishes plan p o p' := by
  obtain ⟨o1, p1, hrun1, hfinishes⟩ := h.analyze hplan
  rw [hrun] at hrun1
  cases hrun1
  exact hfinishes

theorem Plain.calm (h : p.Plain) : p.Calm := by
  obtain ⟨q, hq, hsteady, hops⟩ := h
  induction hops with
  | refl =>
    refine ⟨⟨Mid.sound_of hq.history.sound, hq.resolver, fun r hr => ?_, fun r hr b hb => ?_⟩,
      fun r hr => ?_⟩
    · exact ⟨hsteady r hr, (hq.blank r hr).1⟩
    · rw [(hq.blank r hr).2 b] at hb
      cases hb
    · exact Routine.received_of_unreached ((hq.blank r hr).2 _)
  | tail _ hop ih =>
    obtain ⟨_, hkind, hop⟩ := hop
    cases hop with
    | requeue hrun =>
      obtain ⟨r, hr, rfl⟩ := requeue_cases hrun
      exact ih.acts (requeue_acts hrun) length_set
    | analyze hplan hrun =>
      have hfinishes := ih.finishes hplan hrun
      exact ih.acts hfinishes.acts hfinishes.size
    | _ => simp at hkind

/-- Has some routines looked at again. -/
def requeueAll (p : Program) (ids : List Nat) : Except Fault Program := ids.foldlM requeue p

theorem requeueAll_succeeds : ∀ (ids : List Nat) (p : Program), (∀ i ∈ ids, i < p.size) →
    ∃ p', p.requeueAll ids = .ok p' ∧ Acts (.of p) (.of p') ∧ p'.size = p.size
  | [], p, _ => ⟨p, rfl, .refl, rfl⟩
  | i :: ids, p, h => by
    obtain ⟨p1, hone⟩ : ∃ p1, p.requeue i = .ok p1 := by
      unfold requeue check
      rw [if_pos (h i (.head _))]
      exact ⟨_, rfl⟩
    have hsize1 : p1.size = p.size := by
      obtain ⟨r, -, rfl⟩ := requeue_cases hone
      exact length_set
    obtain ⟨p', hrest, hacts, hsize⟩ := requeueAll_succeeds ids p1 fun j hj =>
      hsize1 ▸ h j (.tail _ hj)
    refine ⟨p', ?_, (requeue_acts hone).trans hacts, hsize.trans hsize1⟩
    unfold requeueAll
    rw [foldlM_cons, hone]
    exact hrest

theorem diagnostics_of_repeats (h : (Mid.of p').Repeats p) :
    p'.routines.flatMap Routine.diagnostics = p.routines.flatMap Routine.diagnostics := by
  have hmap : p'.routines.map Routine.diagnostics = p.routines.map Routine.diagnostics :=
    h.map_eq fun _ _ h => h.diagnostics
  rw [flatMap_def, flatMap_def, hmap]

/-- **Analysing again finds the same.**  A plain program is analysed until a run converges.  Some
of its routines are looked at again, all their blocks: a run that is not cut short converges
again, nothing is found out that was not known, and the same is told. -/
theorem Plain.analyze_idempotent (h : p.Plain) {plan plan' : Plan}
    (hplan : plan.clonesNothing = true) {n : Nat} {p₁ : Program}
    (hrun : p.analyze plan = .ok (.converged n) p₁) (ids : List Nat) (hids : ∀ i ∈ ids, i < p₁.size)
    (hplan' : plan'.clonesNothing = true) (hmax : 0 < plan'.config.maxIterations)
    (hcancel : plan'.cancelled 0 = false) :
    ∃ p₂ p₃, p₁.requeueAll ids = .ok p₂ ∧ p₂.analyze plan' = .ok (.converged 1) p₃ ∧
      p₃.size = p₁.size ∧ p₃.diagnostics = p₁.diagnostics ∧
      ∀ (i : Nat) (r : Routine), p₁.routines[i]? = some r →
        ∃ r', p₃.routines[i]? = some r' ∧ r.Agrees r' := by
  have hcalm := h.calm
  have hfirst := hcalm.finishes hplan hrun
  have hcalm₁ := hcalm.acts hfirst.acts hfirst.size
  have hsettled : p₁.Settled := ⟨hcalm₁.toSettling, hfirst.quiet rfl, hfirst.entered, hcalm₁.received⟩
  obtain ⟨p₂, hrequeue, hacts₂, hsize₂⟩ := requeueAll_succeeds ids p₁ hids
  obtain ⟨o, p₃, hrun', hagain⟩ := (hcalm₁.acts hacts₂ hsize₂).analyze hplan'
  obtain rfl : o = .converged 1 := by
    refine hagain.outcome.resolve_right fun hcut => ?_
    rcases hcut.2 with hzero | hcancelled
    · omega
    · rw [hcancel] at hcancelled
      cases hcancelled
  have hsize₃ : p₃.size = p₁.size := hagain.size.trans hsize₂
  have hrepeats : (Mid.of p₃).Repeats p₁ := Acts.repeats (hacts₂.trans hagain.acts)
    hsettled hcalm₁.sound (Mid.repeats_refl p₁) hsize₃
  refine ⟨p₂, p₃, hrequeue, hrun', hsize₃, ?_, fun i r hr => ?_⟩
  · rw [hagain.diagnostics rfl, hfirst.diagnostics rfl, diagnostics_of_repeats hrepeats]
  · have hlt : i < p₃.size := hsize₃.symm ▸ (List.getElem?_eq_some_iff.1 hr).1
    obtain ⟨r', hr'⟩ : ∃ r', p₃.routines[i]? = some r' := ⟨_, List.getElem?_eq_getElem hlt⟩
    obtain ⟨s, hs, hagrees⟩ := hrepeats.routines i r' hr'
    obtain rfl := Option.some.inj (hs.symm.trans hr)
    exact ⟨r', hr', hagrees⟩

/-- A list is filled by a routine that calls itself, then counted. -/
def filling : List RoutineDecl :=
  [{ name := "fill"
     params := [{ name := "list" }, { name := "n" }]
     exported := false
     body := [.branch (.binary () .lt (.var () "n") (.lit () .int)) [.ret (some (.var () "list"))] [],
       .eval (.assign () (.append () (.var () "list")) (.var () "n")),
       .ret (some (.call () "fill"
         [.var () "list", .binary () .sub (.var () "n") (.lit () .int)]))] },
   { name := "main"
     body := [.eval (.assign () (.var () "list") (.call () "fill" [.array () [], .lit () .int])),
       .each (.var () "list") (some "k") "v"
         [.eval (.update () .add (.item () (.var () "sums") (.var () "k")) (.var () "v"))],
       .ret (some (.var () "sums"))] }]

/-- No routine may be cloned. -/
def withoutClones : Plan where
  config := { maxClones := 0 }

theorem filling_again : ∃ n p₁ p₂ p₃, (ofDecls filling).analyze withoutClones = .ok (.converged n) p₁ ∧
    p₁.size = 2 ∧ p₁.requeueAll [1, 0] = .ok p₂ ∧ p₂.isPending = true ∧
    p₂.analyze withoutClones = .ok (.converged 1) p₃ ∧ p₃.diagnostics = p₁.diagnostics ∧
    ∀ (i : Nat) (r : Routine), p₁.routines[i]? = some r →
      ∃ r', p₃.routines[i]? = some r' ∧ r.Agrees r' := by
  have hplain : (ofDecls filling).Plain :=
    ⟨_, operations_ofDecls (E := (· = .declare)) rfl filling, by decide +kernel, .refl⟩
  obtain ⟨n, p₁, hrun, hgood⟩ := exists_converged (ofDecls filling) withoutClones
    (fun p => decide (p.size = 2) && (p.requeueAll [1, 0]).toOption.any isPending)
    (by decide +kernel)
  rw [Bool.and_eq_true, decide_eq_true_eq] at hgood
  obtain ⟨hsize, hpending⟩ := hgood
  have hmore : 0 < withoutClones.config.maxIterations := by decide
  obtain ⟨p₂, p₃, hrequeue, hagain, -, hdiagnostics, hagrees⟩ := hplain.analyze_idempotent rfl hrun
    [1, 0] (by rw [hsize]; decide) rfl hmore rfl
  rw [hrequeue] at hpending
  exact ⟨n, p₁, p₂, p₃, hrun, hsize, hrequeue, hpending, hagain, hdiagnostics, hagrees⟩

end Program
end ShapeFlow
