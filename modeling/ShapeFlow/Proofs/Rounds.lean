/-
# Rounds come to an end

Draining all routines is a sequence of walks, after which no block is pending and
every block that can be reached has been.  Blocks become pending again only if
the entry state of some routine grew or some routine returns more; so the room of
the program, which counts how often that can happen, shrinks with every round
that is followed by another, and the bound on rounds is never reached.

A round that fails does so because of the resolver, or in a program that another
failure has left behind.

Loops are run under a bound.  Here they are also described without one, by how often they go
around: the pending blocks of a routine are gone through until none is left or one fails, the
routines one after the other, and rounds until nothing is pending.

Key definitions: `Routine.Older`, `Beat`, `Program.entryRoom`, `Program.Entered`, `Program.Continues`,
`Program.Rounds`, `Program.Fails`, `Program.Drainage`, `Program.SettlesIn`.
Key theorems: `Program.drainAll_spec`, `Program.round_ends`, `Program.rounds_end`.
-/
import ShapeFlow.Proofs.Moves

namespace ShapeFlow

open ShapeFlow.Flow Infer List TypeSet

variable {m m' : Mid}

/-! ### Routines that only grow -/

namespace Routine

variable {t : ShapeTable} {n : Nat} {r r' r'' : Routine}

/-- How often the entry state and what is returned can grow. -/
def entryRoom (r : Routine) : Nat :=
  inputRoom r.scope.size (r.input? Graph.entry) + (64 - r.scope.returns.weight)

/-- What holds between a routine and the same routine later in a round. -/
structure Older (r r' : Routine) : Prop where
  graph : r'.graph = r.graph
  reached : ∀ b, (r.input? b).isSome = true → (r'.input? b).isSome = true
  input : inputRoom r'.scope.size (r'.input? Graph.entry) ≤
    inputRoom r.scope.size (r.input? Graph.entry)
  returns : r.scope.returns ≤ r'.scope.returns

theorem Older.refl (r : Routine) : Older r r :=
  ⟨rfl, fun _ h => h, Nat.le_refl _, le_refl _⟩

theorem Older.trans (h : Older r r') (h' : Older r' r'') : Older r r'' :=
  ⟨h'.graph.trans h.graph, fun b hb => h'.reached b (h.reached b hb),
    Nat.le_trans h'.input h.input, le_trans h.returns h'.returns⟩

theorem Older.complete (h : Older r r') (hr : r.Complete) : r'.Complete :=
  fun b hb => h.reached b (hr b (h.graph ▸ hb))

theorem Older.room_le (h : Older r r') : r'.entryRoom ≤ r.entryRoom := by
  have hinput := h.input
  have hreturns := weight_mono h.returns
  unfold entryRoom
  omega

theorem Older.room_lt (h : Older r r') (hne : r'.scope.returns ≠ r.scope.returns) :
    r'.entryRoom < r.entryRoom := by
  have hlt : r.scope.returns.weight < r'.scope.returns.weight := by
    by_contra hge
    exact hne (eq_of_weight_le h.returns (by omega)).symm
  have hle := weight_le r'.scope.returns
  have hinput := h.input
  unfold entryRoom
  omega

theorem inputRoom_anti {id m : Nat} {s s' : State} (hs : State.Fits id m s') (h : s ≤ s') :
    inputRoom m (some s') ≤ inputRoom m (some s) := by
  have := State.weight_mono hs h
  rw [inputRoom, inputRoom]
  omega

theorem inputRoom_le_none (m : Nat) : ∀ o : Option State, inputRoom m o ≤ inputRoom m none
  | none => Nat.le_refl _
  | some s => by
    rw [inputRoom, inputRoom]
    omega

theorem Grows.older (h : Grows r r') (hr : r'.Valid t n) : Older r r' := by
  have hsize : r'.scope.size = r.scope.size := by
    rw [← Scope.length_names, ← Scope.length_names, h.names]
  refine ⟨h.graph, fun b => h.reached, ?_, h.returns⟩
  rcases hs : r.input? Graph.entry with _ | s
  · rw [hsize]
    exact inputRoom_le_none _ _
  · obtain ⟨s', hs', hle⟩ := h.inputs _ s hs
    rw [hs', ← hsize]
    exact inputRoom_anti (hr.fits _ s' hs') hle

theorem Piles.older (h : Piles r r') : Older r r' := by
  rw [h.frame]
  exact ⟨rfl, fun _ h => h, Nat.le_refl _, le_refl _⟩

end Routine

/-! ### Draining all routines -/

/-- One thing that happens in a round: a block is gone through, a call takes effect, or callers
are told. -/
abbrev Beat : Mid → Mid → Prop := MoveBy fun _ _ => False

/-- What happens in rounds, one thing after the other. -/
abbrev Beats : Mid → Mid → Prop := Relation.ReflTransGen Beat

theorem Beat.act (h : Beat m m') : Act m m' := by
  cases h with
  | change h => exact h.elim
  | walk hr hpop htable hcalls hroutine hwalk =>
    exact .walk hr hpop htable hcalls hroutine hwalk
  | report hrun => exact .report hrun
  | notify hcomplete => exact .notify hcomplete

theorem Beats.acts (h : Beats m m') : Acts m m' :=
  .mono (fun _ _ => Beat.act) _ _ h

section Chain

variable {R : Setting → Walker → Walker → Prop} {T : Mid → Mid → Prop} {w w' : Walker}

/-- Each visit to a block is something that happens to the program. -/
def Infer.Occurs (R : Setting → Walker → Walker → Prop) (T : Mid → Mid → Prop) : Prop :=
  ∀ {p : Program} {sigs : List Signature} {reports : List (Nat × Tuple)} {i b : Nat} {r : Routine}
    {q : Agenda Nat} {w w' : Walker}, p.routines[i]? = some r → r.pending.pop? = some (b, q) →
    w.table = p.table → w.calls = p.calls →
    w.routine = { r with status := .analyzing, pending := q } → R (p.setting sigs b) w w' →
    T ⟨p, sigs, reports ++ w.reports.toList⟩ ⟨p.after i w', sigs, reports ++ w'.reports.toList⟩

theorem Program.after_after (p : Program) (i : Nat) (w w' : Walker) :
    (p.after i w).after i w' = p.after i w' := by
  unfold Program.after
  simp only [set_set]

theorem Infer.Chain.occurs (hT : Occurs R T) (hR : ∀ c w w', R c w w' → Enters c w w') {p : Program}
    {sigs : List Signature} (reports : List (Nat × Tuple)) {i : Nat}
    (h : Chain R (p.setting sigs) w w') (hr : p.routines[i]? = some w.routine)
    (hstatus : w.routine.status = .analyzing) (htable : w.table = p.table)
    (hcalls : w.calls = p.calls) :
    Relation.ReflTransGen T ⟨p, sigs, reports ++ w.reports.toList⟩
      ⟨p.after i w', sigs, reports ++ w'.reports.toList⟩ := by
  generalize hc : p.setting sigs = c at h
  induction h generalizing p with
  | done w =>
    have hsame : p.after i w = p := by
      obtain ⟨hlt, heq⟩ := List.getElem?_eq_some_iff.1 hr
      unfold Program.after
      rw [htable, hcalls, ← heq, set_getElem_self]
    rw [hsame]
  | @walk w w1 w2 b q hpop hwalk _ ih =>
    subst hc
    have hroutine : (withPending w q).routine =
        { w.routine with status := .analyzing, pending := q } := by
      rw [← hstatus]
      rfl
    have hone : T ⟨p, sigs, reports ++ w.reports.toList⟩
        ⟨p.after i w1, sigs, reports ++ w1.reports.toList⟩ :=
      hT (w := withPending w q) hr hpop htable hcalls hroutine hwalk
    have hlt := (lt_of_getElem? hr)
    have hrest := ih (p := p.after i w1) (by simp [Program.after, hlt])
      (by rw [(hR _ _ _ hwalk).advances.frame]; exact hstatus) rfl rfl rfl
    rw [Program.after_after] at hrest
    exact Relation.ReflTransGen.head hone hrest

theorem Infer.Chain.older (hR : ∀ c w w', R c w w' → Enters c w w') {c : Nat → Setting}
    (h : Chain R c w w') : Routine.Older w.routine w'.routine := by
  induction h with
  | done w => exact .refl _
  | @walk w w1 w2 b q _ hwalk _ ih =>
    have hpop : Routine.Older w.routine (withPending w q).routine :=
      ⟨rfl, fun _ h => h, Nat.le_refl _, le_refl _⟩
    have henters := hR _ _ _ hwalk
    exact (hpop.trans (henters.advances.toGrows.older henters.after.routine)).trans ih

end Chain

namespace Program

variable {p p' p'' : Program} {sigs : List Signature} {reports : List (Nat × Tuple)}
  {l l' : List Routine} {i : Nat} {r r' : Routine} {f : Fault}

theorem isPending_iff : r.isPending = true ↔ r.pending.toList ≠ [] := by
  rw [Routine.isPending, Bool.not_eq_true', ← Bool.not_eq_true, Agenda.isEmpty_iff]

/-- The walker that drains a routine. -/
def walker (p : Program) (r : Routine) : Walker where
  table := p.table
  calls := p.calls
  routine := { r with status := .analyzing }
  state := .start r.scope

theorem walker_poised (hm : Mid.Kept ⟨p, sigs, reports⟩) (hr : p.routines[i]? = some r)
    (hentry : (r.input? Graph.entry).isSome = true) : Poised sigs (p.walker r) := by
  have hvalid := hm.program.valid hr
  refine
    { table := hm.program.table
      routine := { hvalid with
        facts := fun k f hf => hm.count.symm ▸ hvalid.facts k f hf
        entered := fun _ => hentry }
      fits := ?_
      known := State.known_start r.scope
      signatures := fun j s hs => ?_
      edges := fun e he => (hm.program.edges e he).args
      reports := fun x hx => by simp [walker] at hx }
  · show State.Fits r.id r.scope.size (.start r.scope)
    rw [← hvalid.scope]
    exact State.fits_start r.scope
  · obtain ⟨r', hr', hsig, -, hknown⟩ := hm.sigs j s hs
    refine ⟨?_, hknown⟩
    rw [hsig]
    exact hm.program.ids j r' hr'

/-- The visits of a drain to a routine that has pending blocks. -/
theorem walker_occurs {R : Setting → Walker → Walker → Prop} {T : Mid → Mid → Prop}
    (hT : Occurs R T) (hR : ∀ c w w', R c w w' → Enters c w w') (reports : List (Nat × Tuple))
    {b : Nat} {q : Agenda Nat} (hr : p.routines[i]? = some r) {w w' : Walker}
    (hpop : r.pending.pop? = some (b, q))
    (hwalk : R (p.setting sigs b) (withPending (p.walker r) q) w)
    (h : Chain R (p.setting sigs) w w') :
    Routine.Older r w'.routine ∧ Relation.ReflTransGen T ⟨p, sigs, reports⟩
      ⟨p.after i w', sigs, reports ++ w'.reports.toList⟩ := by
  have hnone : reports ++ (p.walker r).reports.toList = reports := by
    simp [walker]
  have hone : T ⟨p, sigs, reports ++ (p.walker r).reports.toList⟩
      ⟨p.after i w, sigs, reports ++ w.reports.toList⟩ :=
    hT (w := withPending (p.walker r) q) hr hpop rfl rfl rfl hwalk
  have hlt := (lt_of_getElem? hr)
  have hrest := Chain.occurs hT hR (p := p.after i w) (i := i) reports h (by simp [after, hlt])
    (by rw [(hR _ _ _ hwalk).advances.frame]; rfl) rfl rfl
  rw [after_after] at hrest
  rw [hnone] at hone
  have holder := Chain.older hR (Chain.walk (w := p.walker r) hpop hwalk h)
  exact ⟨{ holder with }, Relation.ReflTransGen.head hone hrest⟩

/-- What is left of a walker that has drained a routine. -/
def Drained.ofResult : EStateM.Result Fault Walker Unit → Drained
  | .ok _ w => ⟨[w.routine], w.table, w.calls, .ok w.reports.toList⟩
  | .error f w => ⟨[w.routine], w.table, w.calls, .error f⟩

/-- Draining the routines that have pending blocks, one after the other, takes `n` blocks. -/
inductive Drainage (p : Program) (sigs : List Signature) :
    List Routine → ShapeTable → CallGraph → (n : Nat) → Drained → Prop
  | nil {table : ShapeTable} {calls : CallGraph} :
    Drainage p sigs [] table calls 0 ⟨[], table, calls, .ok []⟩
  | skip {r : Routine} {rs : List Routine} {table : ShapeTable} {calls : CallGraph} {n : Nat}
    {d : Drained} : r.isPending = false → Drainage p sigs rs table calls n d →
    Drainage p sigs (r :: rs) table calls n { d with routines := r :: d.routines }
  | drain {r : Routine} {rs : List Routine} {table : ShapeTable} {calls : CallGraph} {k n : Nat}
    {res : EStateM.Result Fault Walker Unit} {d : Drained} : r.isPending = true →
    Empties (p.setting sigs) (walker { p with table, calls } r) k res →
    Drainage p sigs rs (Drained.ofResult res).table (Drained.ofResult res).calls n d →
    Drainage p sigs (r :: rs) table calls (k + n)
      { d with
        routines := (Drained.ofResult res).routines ++ d.routines
        reports := do return (← (Drained.ofResult res).reports) ++ (← d.reports) }

/-- The drain of `rs` has led from `m` to `m'` and left `d`: a fault, or the calls `reps`. -/
structure DrainsTo (p : Program) (m m' : Mid) (rs : List Routine) (d : Drained)
    (reps : List (Nat × Tuple)) : Prop where
  slips : Slips m m'
  older : List.Forall₂ Routine.Older rs d.routines
  outcome : (∃ f, d.reports = .error f ∧ f ≠ .stepBoundReached ∧
      ((∀ r ∈ rs, r.Grounded) → ¬ p.resolver.Within m.sigs.length)) ∨
    d.reports = .ok reps ∧ Beats m m' ∧ ∀ r ∈ d.routines, r.pending.toList = []

theorem drainOne_spec (p0 : Program) (hdirectory : p0.directory = p.directory)
    (hresolver : p0.resolver = p.resolver) (hm : Mid.Kept ⟨p0, sigs, reports⟩)
    (hr : p0.routines[i]? = some r) (hpending : r.isPending = true)
    (hentry : (r.input? Graph.entry).isSome = true) :
    ∃ w o, p.drainOne sigs p0.table p0.calls r = ⟨[w.routine], w.table, w.calls, o⟩ ∧
      p.DrainsTo ⟨p0, sigs, reports⟩ ⟨p0.after i w, sigs, reports ++ w.reports.toList⟩ [r]
        ⟨[w.routine], w.table, w.calls, o⟩ w.reports.toList ∧
      ∃ n, Empties (p.setting sigs) (p0.walker r) n
        (drain (p.setting sigs) r.stepBound (p0.walker r)) := by
  have hsetting : p0.setting sigs = p.setting sigs := by
    unfold setting
    rw [hdirectory, hresolver]
  have hready := walker_poised hm hr hentry
  have hroom : (p0.walker r).routine.room ≤ r.stepBound := r.room_le_stepBound
  have hends := drain_ends (c := p.setting sigs) (p.setting sigs 0) (fun _ => rfl) hready hroom
  obtain ⟨n, -, hempties⟩ := hready.empties (c := p.setting sigs) (p.setting sigs 0) (fun _ => rfl) hroom
  have hone : p.drainOne sigs p0.table p0.calls r =
      Drained.ofResult (drain (p.setting sigs) r.stepBound (p0.walker r)) := rfl
  have hslip : Occurs Enters Slip := Slip.enter
  have hbeat : Occurs Walks Beat := MoveBy.walk
  unfold Ends at hends
  rw [hone]
  rcases hrun : drain (p.setting sigs) r.stepBound (p0.walker r) with ⟨⟨⟩, w⟩ | ⟨f, w⟩ <;>
    rw [hrun] at hempties
  · rw [hrun, ← hsetting] at hends
    obtain ⟨hdrains, hempty⟩ := hends
    cases hdrains with
    | done => exact absurd hempty (isPending_iff.1 hpending)
    | walk hpop hwalk hrest =>
      obtain ⟨holder, hslips⟩ := walker_occurs hslip (fun _ _ _ h => h) reports hr hpop hwalk.enters
        (hrest.mono fun _ _ _ => Walks.enters)
      obtain ⟨-, hbeats⟩ := walker_occurs hbeat (fun _ _ _ => Walks.enters) reports hr hpop hwalk hrest
      refine ⟨w, _, rfl, ⟨hslips, .cons holder .nil, .inr ⟨rfl, hbeats, ?_⟩⟩, n, hempties⟩
      simpa using hempty
  · rw [hrun] at hends
    have hstalls : Stalls (p.setting sigs) (p0.walker r) f w := hends
    have hastray : r.Grounded → ¬ p.resolver.Within sigs.length :=
      hstalls.astray (p.setting sigs 0) fun _ => rfl
    have hbounded := hstalls.bounded
    rw [← hsetting] at hstalls
    obtain ⟨b, q, w1, hpop, henters, hrest⟩ := hstalls.chain
    obtain ⟨holder, hslips⟩ := walker_occurs hslip (fun _ _ _ h => h) reports hr hpop henters hrest
    exact ⟨w, _, rfl, ⟨hslips, .cons holder .nil, .inl ⟨f, rfl, hbounded, fun hg =>
      hastray (hg r (.head _))⟩⟩, n, hempties⟩

/-- What two drains leave, one after the other. -/
def Drained.followedBy (d d' : Drained) : Drained :=
  { d' with
    routines := d.routines ++ d'.routines
    reports := do return (← d.reports) ++ (← d'.reports) }

theorem DrainsTo.append {m₁ m₂ : Mid} {rs rs' : List Routine} {d d' : Drained}
    {reps reps' : List (Nat × Tuple)} (h : p.DrainsTo m m₁ rs d reps) (hsigs : m₁.sigs = m.sigs)
    (h' : p.DrainsTo m₁ m₂ rs' d' reps') :
    p.DrainsTo m m₂ (rs ++ rs') (Drained.followedBy d d') (reps ++ reps') := by
  refine ⟨h.slips.trans h'.slips, rel_append h.older h'.older, ?_⟩
  rcases h.outcome with ⟨f, hf, hbounded, hastray⟩ | ⟨hreps, hbeats, hempty⟩
  · refine .inl ⟨f, ?_, hbounded, fun hg => hastray fun r hr => hg r (mem_append_left _ hr)⟩
    simp only [Drained.followedBy, hf]
    rfl
  rcases h'.outcome with ⟨f, hf, hbounded, hastray⟩ | ⟨hreps', hbeats', hempty'⟩
  · refine .inl ⟨f, ?_, hbounded, fun hg => hsigs ▸ hastray fun r hr => hg r (mem_append_right _ hr)⟩
    simp only [Drained.followedBy, hreps, hf]
    rfl
  · refine .inr ⟨?_, hbeats.trans hbeats', fun r hr => ?_⟩
    · simp only [Drained.followedBy, hreps, hreps']
      rfl
    · exact (mem_append.1 hr).elim (hempty r) (hempty' r)

/-- The program with the routines `done` followed by what a drain of others left. -/
def withDrained (p : Program) (done : List Routine) (d : Drained) : Program :=
  { p with routines := done ++ d.routines, table := d.table, calls := d.calls }

/-- The program where `rs` are left to be drained. -/
def midway (p : Program) (done rs : List Routine) (table : ShapeTable) (calls : CallGraph) :
    Program := { p with routines := done ++ rs, table, calls }

/-- A routine where nothing is pending is left alone. -/
def drainNext (p : Program) (sigs : List Signature) (table : ShapeTable) (calls : CallGraph)
    (r : Routine) : Drained :=
  if r.isPending then p.drainOne sigs table calls r else ⟨[r], table, calls, .ok []⟩

section Next

variable {table : ShapeTable} {calls : CallGraph} {rs done : List Routine}

theorem Drained.followedBy_idle (d : Drained) :
    Drained.followedBy ⟨[r], table, calls, .ok []⟩ d = { d with routines := r :: d.routines } := by
  obtain ⟨_, _, _, _ | _⟩ := d <;> rfl

theorem drainAll_cons : p.drainAll sigs (r :: rs) table calls =
    Drained.followedBy (p.drainNext sigs table calls r) (p.drainAll sigs rs
      (p.drainNext sigs table calls r).table (p.drainNext sigs table calls r).calls) := by
  unfold drainNext
  rw [drainAll]
  split
  · rfl
  · rw [Drained.followedBy_idle]

theorem drainNext_spec {d : Drained} (hd : p.drainNext sigs table calls r = d)
    (hm : Mid.Kept ⟨p.midway done (r :: rs) table calls, sigs, reports⟩)
    (hentry : (r.input? Graph.entry).isSome = true) :
    (∃ reps, p.DrainsTo ⟨p.midway done (r :: rs) table calls, sigs, reports⟩
      ⟨p.midway (done ++ d.routines) rs d.table d.calls, sigs, reports ++ reps⟩ [r] d reps) ∧
    ∃ k, ∀ {n d'}, p.Drainage sigs rs d.table d.calls n d' →
      p.Drainage sigs (r :: rs) table calls (k + n) (Drained.followedBy d d') := by
  subst hd
  unfold drainNext
  by_cases hpending : r.isPending = true
  · rw [if_pos hpending]
    obtain ⟨w, o, hone, hdrains, k, hempties⟩ := drainOne_spec (p := p)
      (p.midway done (r :: rs) table calls) rfl rfl hm (i := done.length) (by simp [midway]) hpending
      hentry
    have hafter : (p.midway done (r :: rs) table calls).after done.length w =
        p.midway (done ++ [w.routine]) rs w.table w.calls := by
      simp [after, midway]
    rw [hafter] at hdrains
    refine ⟨⟨w.reports.toList, ?_⟩, k, fun hrest => .drain hpending hempties hrest⟩
    have hone' : p.drainOne sigs table calls r = ⟨[w.routine], w.table, w.calls, o⟩ := hone
    rw [hone']
    exact hdrains
  · have hempty : r.pending.toList = [] := by
      by_contra hne
      exact hpending (isPending_iff.2 hne)
    have hsame : p.midway (done ++ [r]) rs table calls = p.midway done (r :: rs) table calls := by
      simp [midway]
    rw [if_neg hpending]
    refine ⟨⟨[], ?_⟩, 0, fun hrest => ?_⟩
    · rw [append_nil, hsame]
      exact ⟨.refl, .cons (.refl r) .nil, .inr ⟨rfl, .refl, by simpa using hempty⟩⟩
    · rw [Drained.followedBy_idle, Nat.zero_add]
      exact .skip (by simpa using hpending) hrest

end Next

/-- Draining the routines after those that are done. -/
theorem drainAll_spec : ∀ {rs done : List Routine} {table : ShapeTable} {calls : CallGraph}
    {reports : List (Nat × Tuple)},
    Mid.Kept ⟨p.midway done rs table calls, sigs, reports⟩ →
    (∀ r ∈ rs, (r.input? Graph.entry).isSome = true) →
    (∃ reps, p.DrainsTo ⟨p.midway done rs table calls, sigs, reports⟩
      ⟨p.withDrained done (p.drainAll sigs rs table calls), sigs, reports ++ reps⟩ rs
      (p.drainAll sigs rs table calls) reps) ∧
    ∃ n, p.Drainage sigs rs table calls n (p.drainAll sigs rs table calls)
  | [], done, table, calls, reports, _, _ => by
    refine ⟨⟨[], ?_⟩, 0, .nil⟩
    rw [append_nil]
    exact ⟨.refl, .nil, .inr ⟨rfl, .refl, by simp [drainAll]⟩⟩
  | r :: rs, done, table, calls, reports, hm, hentered => by
    obtain ⟨d, hd⟩ : ∃ d, p.drainNext sigs table calls r = d := ⟨_, rfl⟩
    obtain ⟨⟨reps, hone⟩, k, hcount⟩ := drainNext_spec hd hm (hentered r (.head _))
    obtain ⟨⟨reps', hrest⟩, n, hdrainage⟩ := drainAll_spec (hone.slips.kept hm)
      fun s hs => hentered s (.tail _ hs)
    have hdrained : p.withDrained done (Drained.followedBy d (p.drainAll sigs rs d.table d.calls)) =
        p.withDrained (done ++ d.routines) (p.drainAll sigs rs d.table d.calls) := by
      simp [withDrained, Drained.followedBy]
    rw [drainAll_cons, hd, hdrained]
    refine ⟨⟨reps ++ reps', ?_⟩, k + n, hcount hdrainage⟩
    rw [← append_assoc]
    exact hone.append rfl hrest

/-! ### Room of a program -/

/-- How often entry states and what is returned can grow, in all routines. -/
def entryRoom (p : Program) : Nat := (p.routines.map Routine.entryRoom).sum

theorem Each.forall₂ {R : Routine → Routine → Prop} (h : Each R p p') :
    List.Forall₂ R p.routines p'.routines := by
  refine forall₂_iff_get.2 ⟨h.size.symm, fun i hi hi' => ?_⟩
  exact h.routine i _ _ (getElem?_eq_getElem hi) (getElem?_eq_getElem hi')

theorem sum_entryRoom_le (h : List.Forall₂ Routine.Older l l') :
    (l'.map Routine.entryRoom).sum ≤ (l.map Routine.entryRoom).sum := by
  induction h with
  | nil => exact Nat.le_refl _
  | cons hr _ ih =>
    have := hr.room_le
    simp only [map_cons, sum_cons]
    omega

theorem sum_entryRoom_lt (h : List.Forall₂ Routine.Older l l') (hlt : r'.entryRoom < r.entryRoom) :
    ∀ {i : Nat}, l[i]? = some r → l'[i]? = some r' →
    (l'.map Routine.entryRoom).sum < (l.map Routine.entryRoom).sum := by
  induction h with
  | nil => exact fun hr => by simp at hr
  | @cons s s' l l' hs hl ih =>
    intro i hr hr'
    simp only [map_cons, sum_cons]
    cases i with
    | zero =>
      obtain rfl : s = r := by simpa using hr
      obtain rfl : s' = r' := by simpa using hr'
      have := sum_entryRoom_le hl
      omega
    | succ i =>
      have := ih (by simpa using hr) (by simpa using hr')
      have := hs.room_le
      omega

theorem entryRoom_le_growth (p : Program) : p.entryRoom ≤ entryGrowth p.routines := by
  unfold entryRoom
  induction p.routines with
  | nil => exact Nat.le_refl _
  | cons r rs ih =>
    have hinput := Routine.inputRoom_le_none r.scope.size (r.input? Graph.entry)
    have hroom : r.entryRoom ≤ State.growth r.scope.size + 65 := by
      rw [Routine.inputRoom] at hinput
      unfold Routine.entryRoom
      omega
    simp only [map_cons, sum_cons, entryGrowth]
    omega

/-! ### Reported calls -/

/-- Nothing is pending. -/
def Quiet (p : Program) : Prop := ∀ r ∈ p.routines, r.pending.toList = []

theorem quiet_iff : p.Quiet ↔ p.isPending = false := by
  unfold Quiet isPending
  rw [any_eq_false]
  refine forall₂_congr fun r _ => ?_
  rw [isPending_iff, not_not]

theorem Quiet.put (h : p.Quiet) (hr' : r'.pending.toList = []) (i : Nat) :
    (p.put i r').Quiet := forall_put h hr' i

theorem older_put (hr : p.routines[i]? = some r) (h : Routine.Older r r') :
    Each Routine.Older p (p.put i r') :=
  each_put .refl hr h

/-- A call takes effect; blocks become pending only if an entry state grows. -/
theorem report_ends {callee : Nat} {args : Tuple}
    (hm : Mid.Kept ⟨p, sigs, (callee, args) :: reports⟩) :
    ∃ p', report callee args p = .ok () p' ∧ Each Routine.Older p p' ∧
      (p.Quiet → p'.Quiet ∨ p'.entryRoom < p.entryRoom) := by
  obtain ⟨hlt, -⟩ := hm.reports _ (.head _)
  obtain ⟨r, hr⟩ : ∃ r, p.routines[callee]? = some r := ⟨_, getElem?_eq_getElem hlt⟩
  have holder : Routine.Older r (observing r args) :=
    ⟨rfl, fun _ h => h, Nat.le_refl _, le_refl _⟩
  have hquiet : p.Quiet → (observing r args).pending.toList = [] :=
    fun h => h r (mem_of_getElem? hr)
  rw [report_eq hr]
  split
  · exact ⟨p, rfl, .refl .refl p, .inl⟩
  · split
    · exact ⟨_, rfl, older_put hr holder, fun h => .inl (h.put (hquiet h) callee)⟩
    · obtain ⟨c, r', hseed, hvalid', hflows⟩ := Routine.seed_spec (hm.observing hr) hm.program.table
      have holder' := holder.trans (hflows.grows.older hvalid')
      refine ⟨p.put callee r', by rw [hseed], older_put hr holder', fun h => ?_⟩
      rcases hflows.paid with rfl | hpaid
      · exact .inl (h.put (hquiet h) callee)
      · have hscope : r'.scope = r.scope := by
          rw [hflows.frame]
          rfl
        have hlt : r'.entryRoom < r.entryRoom := by
          unfold Routine.entryRoom
          rw [hscope]
          exact Nat.add_lt_add_right hpaid _
        exact .inr (sum_entryRoom_lt (older_put hr holder').forall₂ hlt hr
          (by rw [routines_put hr, if_pos rfl]))

theorem reports_end : ∀ {reports : List (Nat × Tuple)} {p : Program},
    Mid.Kept ⟨p, sigs, reports⟩ →
    ∃ p', (reports.forM fun x => report x.1 x.2) p = .ok () p' ∧
      Beats ⟨p, sigs, reports⟩ ⟨p', sigs, []⟩ ∧ Each Routine.Older p p' ∧
      (p.Quiet → p'.Quiet ∨ p'.entryRoom < p.entryRoom)
  | [], p, _ => ⟨p, rfl, .refl, .refl .refl p, .inl⟩
  | (callee, args) :: reports, p, hm => by
    obtain ⟨p1, hrun1, holder1, hroom1⟩ := report_ends hm
    have hbeat : Beat ⟨p, sigs, (callee, args) :: reports⟩ ⟨p1, sigs, reports⟩ := .report hrun1
    obtain ⟨p2, hrun2, hbeats, holder2, hroom2⟩ := reports_end (hbeat.act.move.kept hm)
    refine ⟨p2, ?_, Relation.ReflTransGen.head hbeat hbeats,
      holder1.trans (fun _ _ _ => .trans) holder2, fun hquiet => ?_⟩
    · show (report callee args >>= fun _ => reports.forM fun x => report x.1 x.2) p = _
      rw [bind_of_ok hrun1, hrun2]
    · have hle := sum_entryRoom_le holder2.forall₂
      have hle1 := sum_entryRoom_le holder1.forall₂
      unfold entryRoom at *
      rcases hroom1 hquiet with hquiet1 | hlt
      · exact (hroom2 hquiet1).imp_right fun hlt => by omega
      · exact .inr (by omega)

/-! ### Rounds -/

/-- Every routine has been entered. -/
def Entered (p : Program) : Prop := ∀ r ∈ p.routines, (r.input? Graph.entry).isSome = true

theorem Entered.older (h : p.Entered) (he : List.Forall₂ Routine.Older p.routines p'.routines) :
    p'.Entered := by
  intro r' hr'
  obtain ⟨i, hi⟩ := getElem?_of_mem hr'
  obtain ⟨hi', rfl⟩ := List.getElem?_eq_some_iff.1 hi
  obtain ⟨hlen, hall⟩ := forall₂_iff_get.1 he
  exact (hall i (hlen ▸ hi') hi').reached _ (h _ (getElem_mem _))

/-- The resolver picks a routine that does not exist, once there are enough. -/
def Astray (p : Program) : Prop := ∃ n, p.size ≤ n ∧ ¬ p.resolver.Within n

/-- A run has come from `p` to `p'`. -/
structure Continues (p p' : Program) : Prop where
  turns : Turns (.of p) (.of p')
  acts : p.Sound → Acts (.of p) (.of p')
  size : p.size ≤ p'.size
  resolver : p'.resolver = p.resolver
  entered : p'.Entered

theorem Continues.of_acts (h : Acts (.of p) (.of p')) (hsize : p.size ≤ p'.size)
    (hresolver : p'.resolver = p.resolver) (hentered : p'.Entered) : Continues p p' :=
  ⟨h.moves.turns, fun _ => h, hsize, hresolver, hentered⟩

theorem Continues.refl (h : p.Entered) : Continues p p :=
  .of_acts .refl (Nat.le_refl _) rfl h

theorem Continues.kept (h : Continues p p') (hp : p.Kept) : p'.Kept :=
  (h.turns.kept (Mid.kept_of hp)).program

theorem Continues.moves (h : Continues p p') (hp : p.Sound) : Moves (.of p) (.of p') :=
  (h.acts hp).moves

theorem Continues.sound (h : Continues p p') (hp : p.Sound) : p'.Sound :=
  ((h.moves hp).sound (Mid.sound_of hp)).program

theorem Continues.trans (h : Continues p p') (h' : Continues p' p'') :
    Continues p p'' :=
  ⟨h.turns.trans h'.turns, fun hp => (h.acts hp).trans (h'.acts (h.sound hp)),
    Nat.le_trans h.size h'.size, h'.resolver.trans h.resolver, h'.entered⟩

theorem Continues.astray (h : Continues p p') (hp' : p'.Astray) : p.Astray := by
  obtain ⟨n, hn, hnot⟩ := hp'
  exact ⟨n, Nat.le_trans h.size hn, h.resolver ▸ hnot⟩

/-- Rounds have come from `p` to `p'`. -/
structure Rounds (p p' : Program) : Prop extends Continues p p' where
  beats : p.Sound → Beats (.of p) (.of p')
  size_eq : p'.size = p.size

theorem Rounds.refl (h : p.Entered) : Rounds p p :=
  ⟨.refl h, fun _ => .refl, rfl⟩

theorem Rounds.trans (h : Rounds p p') (h' : Rounds p' p'') : Rounds p p'' :=
  ⟨h.toContinues.trans h'.toContinues, fun hp => (h.beats hp).trans (h'.beats (h.sound hp)),
    h'.size_eq.trans h.size_eq⟩

/-- A run has failed on the way from `p` to `p'`. -/
structure Fails (p : Program) (f : Fault) (p' : Program) : Prop where
  /-- Only the last round fails. -/
  slips : ∃ p₁, Turns (.of p) (.of p₁) ∧ Slips (.of p₁) (.of p')
  bounded : f ≠ .stepBoundReached
  astray : p.Sound → p.Astray

theorem Continues.fails (h : Continues p p') (h' : Fails p' f p'') :
    Fails p f p'' :=
  ⟨h'.slips.imp fun _ hs => ⟨h.turns.trans hs.1, hs.2⟩, h'.bounded,
    fun hp => h.astray (h'.astray (h.sound hp))⟩

theorem notify_eq_self : ∀ {sigs : List Signature},
    (∀ sig ∈ sigs, ∀ r : Routine, p.routines[sig.id]? = some r → r.scope.returns = sig.returns) →
    sigs.foldl notifyCallers p = p
  | [], _ => rfl
  | sig :: sigs, h => by
    have hsame : p.notifyCallers sig = p := by
      unfold notifyCallers
      rw [if_neg]
      rcases hr : p.routines[sig.id]? with _ | r
      · simp
      · simp [h sig (.head _) r hr]
    rw [foldl_cons, hsame]
    exact notify_eq_self fun s hs => h s (.tail _ hs)

/-- What the routines found out about each other takes effect. -/
def takeEffect (sigs : List Signature) (d : Drained) : Run Unit :=
  match d.reports with
  | .error f => throw f
  | .ok reports => do
    reports.forM fun x => report x.1 x.2
    modify fun p => sigs.foldl notifyCallers p

/-- A round takes `n` blocks. -/
inductive RoundIn (p : Program) : (n : Nat) → EStateM.Result Fault Program Unit → Prop
  | intro {n : Nat} {d : Drained} : Drainage p p.signatures p.routines p.table p.calls n d →
    RoundIn p n (takeEffect p.signatures d (p.withDrained [] d))

/-- Rounds until nothing is pending, or one fails, are `k` rounds of `n` blocks in all. -/
inductive SettlesIn : Program → (k n : Nat) → EStateM.Result Fault Program Unit → Prop
  | done {p : Program} : p.isPending = false → SettlesIn p 0 0 (.ok () p)
  | fail {p p' : Program} {n : Nat} {f : Fault} : p.isPending = true →
    RoundIn p n (.error f p') → SettlesIn p 1 n (.error f p')
  | next {p p' : Program} {k n l : Nat} {res : EStateM.Result Fault Program Unit} :
    p.isPending = true → RoundIn p n (.ok () p') → SettlesIn p' k l res →
    SettlesIn p (k + 1) (n + l) res

/-- **One round.**  If blocks are pending afterwards, the program has less room. -/
theorem round_ends (h : p.Kept) (hentered : p.Entered) :
    (∃ n, p.RoundIn n (round p)) ∧ Ends (Fails p) round p fun _ p' =>
      Rounds p p' ∧ (p'.isPending = true → p'.entryRoom < p.entryRoom) := by
  have hcount : p.signatures.length = p.size := length_map _
  obtain ⟨d, hd⟩ : ∃ d, d = p.drainAll p.signatures p.routines p.table p.calls := ⟨_, rfl⟩
  have hround : round p = takeEffect p.signatures d (p.withDrained [] d) := by
    rw [hd]
    rfl
  have hstart : Mid.Kept ⟨p.midway [] p.routines p.table p.calls, p.signatures, []⟩ :=
    Mid.kept_of h
  obtain ⟨⟨reps, hslips, holders, hdrain⟩, n, hdrainage⟩ := drainAll_spec hstart hentered
  refine ⟨⟨n, .intro hdrainage⟩, .of_eq hround ?_⟩
  unfold takeEffect
  rw [← hd] at hslips holders hdrain
  rcases hdrain with ⟨f, hf, hbounded, hastray⟩ | ⟨hreps, hbeats, hempties⟩
  · rw [hf]
    exact ⟨⟨p, .refl, hslips.tail Slip.drop⟩, hbounded, fun hp => ⟨p.size, Nat.le_refl _,
      hcount ▸ hastray hp.grounded⟩⟩
  · rw [hreps]
    have hmoves : Moves ⟨p, p.signatures, []⟩ ⟨p.withDrained [] d, p.signatures, reps⟩ :=
      hbeats.acts.moves
    have hkept1 : Mid.Kept ⟨p.withDrained [] d, p.signatures, reps⟩ := hmoves.kept hstart
    have hentered1 : (p.withDrained [] d).Entered := hentered.older holders
    obtain ⟨p2, hrun, hbeats2, holder2, hroom2⟩ := reports_end hkept1
    have hentered2 := hentered1.older holder2.forall₂
    have hcomplete : p.Sound → ∀ r ∈ p2.routines, r.Complete := by
      intro hp r' hr'
      have hsound1 := (hmoves.sound (Mid.sound_of hp)).program
      obtain ⟨r, hr, holder⟩ := holder2.mem_back hr'
      exact holder.complete ((hsound1.spread r hr).complete (hentered1 r hr) (hempties r hr))
    have holder3 := (notify_piles p.signatures p2).mono (S := Routine.Older)
      fun _ _ _ _ hpiles => hpiles.older
    have hsize : (p.signatures.foldl notifyCallers p2).size = p.size :=
      holder3.size.trans (holder2.size.trans holders.length_eq.symm)
    have hall : Beats ⟨p, p.signatures, []⟩ ⟨p2, p.signatures, []⟩ := hbeats.trans hbeats2
    have hlast : p.Sound → Beats (.of p) (.of (p.signatures.foldl notifyCallers p2)) :=
      fun hp => hall.tail (.notify (hcomplete hp))
    refine .of_ok (a := ()) (u := p.signatures.foldl notifyCallers p2) ?_
      ⟨⟨⟨hall.acts.moves.turns.tail Turn.notify, fun hp => (hlast hp).acts, hsize.ge, ?_,
        hentered2.older holder3.forall₂⟩, hlast, hsize⟩, fun hpending => ?_⟩
    · simp only
      rw [bind_of_ok hrun]
      rfl
    · rw [holder3.frame, holder2.frame]
      rfl
    · have hle1 := sum_entryRoom_le holders
      have hle3 := sum_entryRoom_le holder3.forall₂
      by_cases hsame : ∀ sig ∈ p.signatures, ∀ r : Routine, p2.routines[sig.id]? = some r →
          r.scope.returns = sig.returns
      · rw [notify_eq_self hsame] at hpending ⊢
        rcases hroom2 hempties with hquiet | hlt
        · rw [quiet_iff.1 hquiet] at hpending
          cases hpending
        · exact Nat.lt_of_lt_of_le hlt hle1
      · push Not at hsame
        obtain ⟨sig, hsig, r2, hr2, hne⟩ := hsame
        obtain ⟨r, hr, rfl⟩ := mem_map.1 hsig
        obtain ⟨i, hi⟩ := getElem?_of_mem hr
        rw [show r.signature.id = i from h.ids i r hi] at hr2
        have hall := forall₂_trans (R := Routine.Older) (fun _ _ _ => .trans) holders holder2.forall₂
        have holder : Routine.Older r r2 := by
          obtain ⟨hi1, rfl⟩ := List.getElem?_eq_some_iff.1 hi
          obtain ⟨hi2, rfl⟩ := List.getElem?_eq_some_iff.1 hr2
          exact (forall₂_iff_get.1 hall).2 i hi1 hi2
        exact Nat.lt_of_le_of_lt hle3 (sum_entryRoom_lt hall (holder.room_lt hne) hi hr2)

theorem rounds_end : ∀ {bound : Nat} {p : Program}, p.Kept → p.Entered →
    (p.isPending = true → p.entryRoom < bound) →
    (∃ k n, k ≤ bound ∧ SettlesIn p k n (rounds bound p)) ∧
      Ends (Fails p) (rounds bound) p fun _ p' => Rounds p p' ∧ p'.Quiet
  | bound, p, h, hentered, hroom => by
    by_cases hpending : p.isPending = true
    · cases bound with
      | zero => exact absurd (hroom hpending) (Nat.not_lt_zero _)
      | succ bound =>
      have hrun : rounds (bound + 1) p = (round >>= fun _ => rounds bound) p := by
        rw [rounds, get_bind, if_pos hpending]
      obtain ⟨⟨n, hround⟩, hends⟩ := round_ends h hentered
      have hrest : ∀ p1, round p = .ok () p1 → ∃ hrounds : Rounds p p1,
          (∃ k n, k ≤ bound ∧ SettlesIn p1 k n (rounds bound p1)) ∧
            Ends (Fails p1) (rounds bound) p1 fun _ p' => Rounds p1 p' ∧ p'.Quiet := by
        intro p1 hone
        obtain ⟨hrounds, hless⟩ := hends.ok hone
        refine ⟨hrounds, rounds_end (hrounds.kept h) hrounds.entered fun hp => ?_⟩
        have := hless hp
        have := hroom hpending
        omega
      rcases hone : round p with ⟨⟨⟩, p1⟩ | ⟨f, p1⟩ <;> rw [hone] at hround
      · obtain ⟨hrounds, ⟨k, l, hk, hsettles⟩, hends'⟩ := hrest p1 hone
        have hstep : rounds (bound + 1) p = rounds bound p1 := hrun.trans (bind_of_ok hone)
        exact ⟨⟨k + 1, n + l, Nat.succ_le_succ hk, hstep ▸ .next hpending hround hsettles⟩,
          .of_eq hstep (hends'.mono (fun _ p2 hp2 => ⟨hrounds.trans hp2.1, hp2.2⟩)
            fun _ _ hfails => hrounds.fails hfails)⟩
      · have hstep : rounds (bound + 1) p = .error f p1 := by
          rw [hrun]
          show EStateM.bind round (fun _ => rounds bound) p = _
          unfold EStateM.bind
          rw [hone]
        refine ⟨⟨1, n, Nat.succ_le_succ (Nat.zero_le _), hstep ▸ .fail hpending hround⟩, ?_⟩
        unfold Ends
        rw [hstep]
        exact hends.error hone
    · have hidle : p.isPending = false := by simpa using hpending
      have hstop : rounds bound p = .ok () p := by
        cases bound <;>
        · rw [rounds, get_bind, hidle]
          rfl
      exact ⟨⟨0, 0, Nat.zero_le _, hstop ▸ .done hidle⟩,
        .of_ok hstop ⟨.refl hentered, quiet_iff.2 hidle⟩⟩

/-- **Rounds come to an end** with nothing pending, or because of a fault that is not the
bound on rounds or on walks. -/
theorem settle_ends (h : p.Kept) (hentered : p.Entered) :
    Ends (Fails p) settle p fun _ p' => Rounds p p' ∧ p'.Quiet :=
  .of_eq (k := rounds p.roundBound) (u := p) rfl (rounds_end h hentered fun _ =>
    Nat.lt_succ_of_le (entryRoom_le_growth p)).2

end Program
end ShapeFlow
