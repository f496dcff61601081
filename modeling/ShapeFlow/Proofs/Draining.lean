/-
# Draining ends

Going through a pending block takes it off the queue; whatever it queues is
paid for by growth.  So the room of the routine shrinks with each block, and the
bound on the number of blocks is never reached.  A drain is a chain of walks,
each through one block of a valid routine, until none is pending or one fails.

Key definitions: `Routine.Valid`, `Infer.Poised`, `Infer.Walks`, `Infer.Drains`, `Infer.Stalls`.
Key theorems: `Infer.drain_ends`, `Infer.Poised.empties`.
-/
import ShapeFlow.Proofs.Blocks

namespace ShapeFlow

open ShapeFlow.Flow List

variable {x : Expr Nat} {g : Graph Nat} {b b' k n : Nat} {t t' : ShapeTable} {r : Routine}

/-- The expressions of a block, a node before its operands. -/
def Graph.exprsOf (g : Graph Nat) (b : Nat) : List (Expr Nat) :=
  ((g.blocks[b]?.map Block.roots).getD []).flatMap Expr.walk

/-- The numbers of the expressions of a block. -/
def Graph.tagsOf (g : Graph Nat) (b : Nat) : List Nat := (g.exprsOf b).map Expr.tag

theorem Graph.mem_exprsOf {k : Block Nat} (hk : g.blocks[b]? = some k) :
    x ∈ g.exprsOf b ↔ ∃ e ∈ k.roots, x ∈ e.walk := by
  simp [exprsOf, hk]

theorem Graph.mem_exprs_of_mem_exprsOf (hx : x ∈ g.exprsOf b) : x ∈ g.exprs := by
  rcases hb : g.blocks[b]? with _ | blk
  · simp [exprsOf, hb] at hx
  · obtain ⟨e, he, hx⟩ := (mem_exprsOf hb).1 hx
    exact mem_flatMap.2 ⟨e, mem_flatMap.2 ⟨blk, mem_of_getElem? hb, he⟩, hx⟩

theorem Graph.Sound.tagsOf_lt (h : g.Sound) (hk : k ∈ g.tagsOf b) : k < g.exprCount := by
  obtain ⟨x, hx, rfl⟩ := mem_map.1 hk
  exact mem_range.1 (h.numbered.mem_iff.1 (mem_map_of_mem (mem_exprs_of_mem_exprsOf hx)))

theorem Graph.Sound.expr_unique (h : g.Sound) {y : Expr Nat} (hx : x ∈ g.exprsOf b)
    (hy : y ∈ g.exprsOf b') (htag : x.tag = y.tag) : x = y := by
  have hnodup : (g.exprs.map Expr.tag).Nodup := h.numbered.nodup_iff.2 nodup_range
  exact inj_on_of_nodup_map hnodup (mem_exprs_of_mem_exprsOf hx) (mem_exprs_of_mem_exprsOf hy) htag

theorem Graph.Sound.tagsOf_unique (h : g.Sound) (hb : k ∈ g.tagsOf b) (hb' : k ∈ g.tagsOf b') :
    b = b' := by
  have hnodup : (g.exprs.map Expr.tag).Nodup := h.numbered.nodup_iff.2 nodup_range
  have hexprs : g.exprs.map Expr.tag =
      g.blocks.flatMap fun blk => (blk.roots.flatMap Expr.walk).map Expr.tag := by
    unfold exprs roots
    rw [flatMap_assoc, map_flatMap]
    rfl
  rw [hexprs, nodup_flatMap] at hnodup
  have hdisjoint := pairwise_iff_getElem.1 hnodup.2
  have hfind : ∀ {b}, k ∈ g.tagsOf b → ∃ hlt : b < g.blocks.length,
      k ∈ ((g.blocks[b]).roots.flatMap Expr.walk).map Expr.tag := by
    intro b hb
    rcases hblk : g.blocks[b]? with _ | blk
    · simp [tagsOf, exprsOf, hblk] at hb
    · obtain ⟨hlt, rfl⟩ := List.getElem?_eq_some_iff.1 hblk
      exact ⟨hlt, by simpa [tagsOf, exprsOf, hblk] using hb⟩
  obtain ⟨hlt, hk⟩ := hfind hb
  obtain ⟨hlt', hk'⟩ := hfind hb'
  by_contra hne
  rcases Nat.lt_or_gt_of_ne hne with hlt1 | hlt1
  · exact hdisjoint b b' hlt hlt' hlt1 hk hk'
  · exact hdisjoint b' b hlt' hlt hlt1 hk' hk

/-- Nothing in a routine is unknown or out of range, in a program of `n` routines. -/
structure Routine.Valid (t : ShapeTable) (n : Nat) (r : Routine) : Prop extends Held t r where
  graph : r.graph.Sound
  scope : r.scope.id = r.id
  names : ∀ x ∈ r.graph.names, x ∈ r.scope.names
  total : r.facts.size = r.graph.exprCount
  facts : ∀ (k : Nat) (f : Fact), r.facts[k]? = some f → f.Valid t r.scope.size n
  params : ∀ p ∈ r.params, r.scope.names[p.var]? = some p.name ∧ t.Knows p.declared ∧
    (∀ d ∈ p.doc, t.Knows d) ∧ ∀ d ∈ p.default, t.Knows d
  observed : ∀ s ∈ r.observed, t.Knows s
  arity : r.observed.length = r.params.length
  fixed : ∀ f ∈ r.fixed, ∀ s ∈ f, t.Knows s
  candidates : ∀ c ∈ r.candidates, ∀ s ∈ c, t.Knows s
  applied : ∀ c ∈ r.applied, ∀ s ∈ c, t.Knows s
  /-- A routine that counts as analysed has been entered. -/
  entered : r.status = .analyzing ∨ r.status = .stable → (r.input? Graph.entry).isSome = true

theorem Routine.Valid.mono (h : r.Valid t n) (ht : t.Extends t') : r.Valid t' n :=
  { h.toHeld.mono ht, h with
    facts := fun k f hf => (h.facts k f hf).mono ht
    params := fun p hp => ⟨(h.params p hp).1, (h.params p hp).2.1.mono ht,
      fun d hd => ((h.params p hp).2.2.1 d hd).mono ht,
      fun d hd => ((h.params p hp).2.2.2 d hd).mono ht⟩
    observed := fun s hs => (h.observed s hs).mono ht
    fixed := fun f hf s hs => (h.fixed f hf s hs).mono ht
    candidates := fun c hc s hs => (h.candidates c hc s hs).mono ht
    applied := fun c hc s hs => (h.applied c hc s hs).mono ht }

theorem Routine.Valid.of_grows {r' : Routine} (h : r.Valid t n) (hgrows : r.Grows r')
    (ht : t.Extends t') (hheld : Held t' r') (hsize : r'.facts.size = r.facts.size)
    (hfacts : ∀ (k : Nat) (f : Fact), r'.facts[k]? = some f → f.Valid t' r'.scope.size n) :
    r'.Valid t' n := by
  have hold := h.mono ht
  refine { hheld with
    graph := hgrows.graph ▸ h.graph
    scope := ?_, names := ?_, total := ?_, facts := hfacts, params := ?_, observed := ?_, arity := ?_
    fixed := ?_, candidates := ?_, applied := ?_, entered := ?_ }
  · rw [hgrows.scope, hgrows.frame]
    exact h.scope
  · rw [hgrows.graph, hgrows.names]
    exact h.names
  · rw [hsize, hgrows.graph]
    exact h.total
  · rw [hgrows.names, hgrows.frame]
    exact hold.params
  · rw [hgrows.frame]
    exact hold.observed
  · rw [hgrows.frame]
    exact hold.arity
  · rw [hgrows.frame]
    exact hold.fixed
  · rw [hgrows.frame]
    exact hold.candidates
  · rw [hgrows.frame]
    exact hold.applied
  · intro hstatus
    refine hgrows.reached (h.entered ?_)
    rw [hgrows.frame] at hstatus
    exact hstatus

namespace Infer

variable {q : Agenda Nat}

/-- The place of a block of a routine. -/
def Place.within (c : Setting) (r : Routine) : Place where
  setting := c
  routine := r.id
  names := r.scope.names
  tags k := k ∈ r.graph.tagsOf c.block
  calls k name args := .call k name args ∈ r.graph.exprsOf c.block

/-- A walker that is ready to go through any block that has been reached. -/
structure Poised (sigs : List Signature) (w : Walker) : Prop where
  table : w.table.Valid
  routine : w.routine.Valid w.table sigs.length
  fits : State.Fits w.routine.id w.routine.scope.size w.state
  known : State.Known w.table w.state
  signatures : ∀ (i : Nat) (s : Signature), sigs[i]? = some s → s.id = i ∧ w.table.Knows s.returns
  edges : ∀ e ∈ w.calls.edges, ∀ a ∈ e.argTypes, w.table.Knows a
  reports : ∀ r ∈ w.reports, r.1 < sigs.length ∧ ∀ a ∈ r.2, w.table.Knows a

variable {c : Setting} {w w' : Walker} {f : Fault}

theorem Poised.whole (h : Poised c.signatures w) (hb : (w.routine.input? c.block).isSome = true) :
    Whole (Place.within c w.routine) w where
  table := h.table
  id := rfl
  scope := h.routine.scope
  names := rfl
  tags k hk := by
    rw [h.routine.total]
    exact h.routine.graph.tagsOf_lt hk
  facts := by
    intro k f hf
    have := h.routine.facts k f hf
    rwa [← Scope.length_names] at this
  fits := by
    have := h.fits
    rwa [← Scope.length_names] at this
  known := h.known
  sigs := h.signatures
  edges := h.edges
  reports := h.reports
  graph := h.routine.graph
  held := h.routine.toHeld
  here := hb

theorem Poised.covers (h : Poised c.signatures w) :
    (Place.within c w.routine).Covers w.routine.graph where
  free _ := id
  tags k hk e he x hx := mem_map_of_mem ((Graph.mem_exprsOf hk).2 ⟨e, he, hx⟩)
  calls k hk e he x hx j name args hcall := by
    subst hcall
    exact (Graph.mem_exprsOf hk).2 ⟨e, he, hx⟩
  names := h.routine.names

/-! ### Walks through blocks -/

/-- The walker has gone through block `c.block`. -/
structure Walks (c : Setting) (w w' : Walker) : Prop where
  run : block c w = .ok () w'
  before : Poised c.signatures w
  here : (w.routine.input? c.block).isSome = true
  after : Poised c.signatures w'
  advances : Advances (Place.within c w.routine) w w'
  bound : BlockBound (Place.within c w.routine) w'
  reached : ∀ p ∈ w.routine.graph.succs c.block, (w'.routine.input? p.1).isSome = true

/-- The walker has gone into block `c.block`, if that had been reached, and perhaps not all
the way through. -/
structure Enters (c : Setting) (w w' : Walker) : Prop where
  before : Poised c.signatures w
  after : Poised c.signatures w'
  advances : Advances (Place.within c w.routine).loose w w'
  here : (w.routine.input? c.block).isSome = true ∨ w' = w

theorem Walks.enters (h : Walks c w w') : Enters c w w' :=
  ⟨h.before, h.after, h.advances.loose, .inl h.here⟩

/-- The walk through block `c.block` has failed. -/
structure Cut (c : Setting) (w : Walker) (f : Fault) (w' : Walker) : Prop extends Enters c w w' where
  run : block c w = .error f w'
  bounded : f ≠ .stepBoundReached
  /-- In a block that has been reached, the resolver is to blame. -/
  astray : (w.routine.input? c.block).isSome = true → ¬ c.resolver.Within c.signatures.length

theorem Poised.cut (h : Poised c.signatures w) (hw : Whole (Place.within c w.routine) w')
    (ha : Advances (Place.within c w.routine).loose w w') : Poised c.signatures w' where
  table := hw.table
  routine := by
    refine h.routine.of_grows ha.toGrows ha.table hw.held ha.size fun k f hf => ?_
    rw [← Scope.length_names, ha.names]
    exact hw.facts k f hf
  fits := by
    have := hw.fits
    rw [hw.id, ← Scope.length_names, ha.names]
    exact this
  known := hw.known
  signatures := hw.sigs
  edges := hw.edges
  reports := hw.reports

theorem Poised.advance (h : Poised c.signatures w) (hw : Whole (Place.within c w.routine) w')
    (ha : Advances (Place.within c w.routine) w w') : Poised c.signatures w' :=
  h.cut hw ha.loose

/-- **Going through a block**, which may fail. -/
theorem block_ends (h : Poised c.signatures w) :
    Ends (Cut c w) (block c) w fun _ w' => Walks c w w' := by
  by_cases hb : (w.routine.input? c.block).isSome = true
  · have hgoes := block_goes (h.whole hb) h.covers
    unfold Goes Ends at hgoes
    unfold Ends
    rw [show (Place.within c w.routine).setting = c from rfl] at hgoes
    rcases heq : block c w with ⟨⟨⟩, u⟩ | ⟨f, u⟩
    · rw [heq] at hgoes
      obtain ⟨hu, ha, hbound, hreached⟩ := hgoes
      exact { run := heq, before := h, here := hb, after := h.advance hu ha, advances := ha,
              bound := hbound, reached := hreached }
    · rw [heq] at hgoes
      obtain ⟨hnot, ⟨name, id, hf⟩, hu, ha⟩ := hgoes
      exact { run := heq, before := h, after := h.cut hu ha, advances := ha, here := .inl hb,
              bounded := by rw [hf]; exact Fault.noConfusion
              astray := fun _ => hnot }
  · have hrun : block c w = .error (.unreachedBlock c.block w.routine.name) w := by
      rw [block, getRoutine_bind,
        Option.not_isSome_iff_eq_none.1 hb]
      rfl
    unfold Ends
    rw [hrun]
    exact { run := hrun, before := h, after := h, advances := .refl _ w, here := .inr rfl
            bounded := Fault.noConfusion, astray := fun hb' => absurd hb' hb }

theorem Walks.bound_of_call (h : Walks c w w') {k : Nat}
    {name : String} {args : List (Expr Nat)}
    (hcall : .call k name args ∈ w.routine.graph.exprsOf c.block) :
    Bound (Place.within c w.routine) w' k := by
  rcases hblk : w.routine.graph.blocks[c.block]? with _ | blk
  · simp [Graph.exprsOf, hblk] at hcall
  · obtain ⟨e, he, hx⟩ := (Graph.mem_exprsOf hblk).1 hcall
    exact h.bound blk (by rw [h.advances.graph]; exact hblk) e he _ hx k name args rfl

/-! ### Draining -/

/-- The walker with other pending blocks. -/
def withPending (w : Walker) (q : Agenda Nat) : Walker :=
  { w with routine := { w.routine with pending := q } }

/-- The walker has been to pending blocks one after the other, to each as `R` says. -/
inductive Chain (R : Setting → Walker → Walker → Prop) (c : Nat → Setting) : Walker → Walker → Prop
  | done (w : Walker) : Chain R c w w
  | walk {w w' w'' : Walker} {b : Nat} {q : Agenda Nat} :
    w.routine.pending.pop? = some (b, q) → R (c b) (withPending w q) w' →
    Chain R c w' w'' → Chain R c w w''

/-- The walker has gone through pending blocks one after the other. -/
abbrev Drains : (Nat → Setting) → Walker → Walker → Prop := Chain Walks

theorem Chain.mono {R S : Setting → Walker → Walker → Prop} {c : Nat → Setting}
    (hRS : ∀ c w w', R c w w' → S c w w') (h : Chain R c w w') : Chain S c w w' := by
  induction h with
  | done w => exact Chain.done w
  | walk hpop hR _ ih => exact Chain.walk hpop (hRS _ _ _ hR) ih

/-- The walker has gone through pending blocks, the last of which failed. -/
inductive Stalls (c : Nat → Setting) : Walker → Fault → Walker → Prop
  | cut {w w' : Walker} {f : Fault} {b : Nat} {q : Agenda Nat} :
    w.routine.pending.pop? = some (b, q) → Cut (c b) (withPending w q) f w' → Stalls c w f w'
  | walk {w w' w'' : Walker} {f : Fault} {b : Nat} {q : Agenda Nat} :
    w.routine.pending.pop? = some (b, q) → Walks (c b) (withPending w q) w' →
    Stalls c w' f w'' → Stalls c w f w''

theorem Stalls.chain {c : Nat → Setting} (h : Stalls c w f w') :
    ∃ b q w1, w.routine.pending.pop? = some (b, q) ∧ Enters (c b) (withPending w q) w1 ∧
      Chain Enters c w1 w' := by
  induction h with
  | cut hpop hcut => exact ⟨_, _, _, hpop, hcut.toEnters, Chain.done _⟩
  | walk hpop hwalk _ ih =>
    obtain ⟨b, q, w1, hpop1, henters, hrest⟩ := ih
    exact ⟨_, _, _, hpop, hwalk.enters, Chain.walk hpop1 henters hrest⟩

theorem Poised.withPending {sigs : List Signature} (h : Poised sigs w) (q : Agenda Nat) :
    Poised sigs (withPending w q) :=
  { h with routine := { h.routine with } }

theorem room_withPending (hq : q.size + 1 = w.routine.pending.size) :
    (withPending w q).routine.room + 1 = w.routine.room := by
  show q.size + ∑ b ∈ Finset.range w.routine.graph.size,
    Routine.inputRoom w.routine.scope.size (w.routine.input? b) +
    2 * (w.routine.scope.vars.map Routine.varRoom).sum + 1 = w.routine.room
  unfold Routine.room
  omega

theorem Walks.grounded (hpop : w.routine.pending.pop? = some (b, q))
    (h : Walks c (Infer.withPending w q) w') (hw : w.routine.Grounded) : w'.routine.Grounded := by
  intro d hd
  rcases h.advances.queued d hd with hd | hd
  · have hmem : d ∈ w.routine.pending.toList :=
      (Agenda.pop?_spec hpop).1 ▸ .tail _ hd
    exact h.advances.reached (hw d hmem)
  · exact hd

theorem Stalls.bounded {c : Nat → Setting} (h : Stalls c w f w') :
    f ≠ .stepBoundReached := by
  induction h with
  | cut _ hcut => exact hcut.bounded
  | walk _ _ _ ih => exact ih

/-- Where only blocks that were reached are pending, the resolver is to blame. -/
theorem Stalls.astray {c : Nat → Setting} (base : Setting)
    (hc : ∀ b, c b = { base with block := b }) (h : Stalls c w f w') (hw : w.routine.Grounded) :
    ¬ base.resolver.Within base.signatures.length := by
  induction h with
  | @cut w w' f b q hpop hcut =>
    have hb : b ∈ w.routine.pending.toList := (Agenda.pop?_spec hpop).1 ▸ (.head _)
    have hnot := hcut.astray
    rw [hc] at hnot
    exact hnot (hw b hb)
  | walk hpop hwalk _ ih => exact ih (hwalk.grounded hpop hw)

/-- **A drain comes to an end** before its bound, if the bound is no less than the room
of the routine. -/
theorem drain_ends {c : Nat → Setting} (base : Setting) (hc : ∀ b, c b = { base with block := b }) :
    ∀ {bound : Nat} {w : Walker}, Poised base.signatures w → w.routine.room ≤ bound →
      Ends (Stalls c w) (drain c bound) w fun _ w' =>
        Drains c w w' ∧ w'.routine.pending.toList = []
  | 0, w, h, hroom => by
    have hpending : w.routine.pending.toList = [] := by
      have hsize : w.routine.pending.size = 0 := by
        unfold Routine.room at hroom
        omega
      exact length_eq_zero_iff.1 hsize
    refine .of_ok (a := ()) (u := w) ?_ ⟨Chain.done w, hpending⟩
    have hidle : w.routine.isPending = false := by
      rw [Routine.isPending, (Agenda.isEmpty_iff _).2 hpending]
      rfl
    rw [drain, getRoutine_bind, hidle]
    rfl
  | bound + 1, w, h, hroom => by
    rcases hpop : w.routine.pending.pop? with _ | ⟨b, q⟩
    · refine .of_ok (a := ()) (u := w) ?_ ⟨Chain.done w, Agenda.pop?_eq_none hpop⟩
      rw [drain, getRoutine_bind, hpop]
      rfl
    · have hready : Poised (c b).signatures (withPending w q) := by
        rw [hc]
        exact h.withPending q
      have hrun : drain c (bound + 1) w =
          (block (c b) >>= fun _ => drain c bound) (withPending w q) := by
        rw [drain, getRoutine_bind, hpop]
        rfl
      refine .of_eq hrun (.bind ?_)
      refine .mono (block_ends hready) (fun _ w1 hw1 => ?_) fun _ _ hcut => Stalls.cut hpop hcut
      have hready1 : Poised base.signatures w1 := by
        have := hw1.after
        rwa [hc] at this
      have hroom1 := hw1.advances.room
      have hpaid := room_withPending (Agenda.pop?_spec hpop).2
      refine .mono (drain_ends base hc hready1 (by omega)) (fun _ w2 hw2 => ?_)
        fun _ _ hstalls => Stalls.walk hpop hw1 hstalls
      exact ⟨Chain.walk hpop hw1 hw2.1, hw2.2⟩

/-! ### Drains without a bound -/

section Empties

variable {c : Nat → Setting} {w w' : Walker}

/-- Going through pending blocks until none is left, or one fails, takes `n` blocks. -/
inductive Empties (c : Nat → Setting) : Walker → (n : Nat) → EStateM.Result Fault Walker Unit → Prop
  | done {w : Walker} : w.routine.pending.pop? = none → Empties c w 0 (.ok () w)
  | fail {w w' : Walker} {b : Nat} {q : Agenda Nat} {f : Fault} :
    w.routine.pending.pop? = some (b, q) → block (c b) (withPending w q) = .error f w' →
    Empties c w 1 (.error f w')
  | next {w w' : Walker} {b n : Nat} {q : Agenda Nat} {res : EStateM.Result Fault Walker Unit} :
    w.routine.pending.pop? = some (b, q) → block (c b) (withPending w q) = .ok () w' →
    Empties c w' n res → Empties c w (n + 1) res

theorem Chain.empties (h : Drains c w w') (hempty : w'.routine.pending.toList = []) :
    ∃ n, n + w'.routine.room ≤ w.routine.room ∧ Empties c w n (.ok () w') := by
  induction h with
  | done w =>
    rcases hpop : w.routine.pending.pop? with _ | ⟨b, q⟩
    · exact ⟨0, by omega, Empties.done hpop⟩
    · rw [(Agenda.pop?_spec hpop).1] at hempty
      cases hempty
  | @walk w w1 w2 b q hpop hwalk _ ih =>
    obtain ⟨n, hn, hempties⟩ := ih hempty
    have hpaid := room_withPending (Agenda.pop?_spec hpop).2
    have hroom := hwalk.advances.room
    exact ⟨n + 1, by omega, Empties.next hpop hwalk.run hempties⟩

theorem Stalls.empties {f : Fault} (h : Stalls c w f w') :
    ∃ n, n ≤ w.routine.room ∧ Empties c w n (.error f w') := by
  induction h with
  | @cut w w' f b q hpop hcut =>
    have hpaid := room_withPending (Agenda.pop?_spec hpop).2
    exact ⟨1, by omega, Empties.fail hpop hcut.run⟩
  | @walk w w1 w2 f b q hpop hwalk _ ih =>
    obtain ⟨n, hn, hempties⟩ := ih
    have hpaid := room_withPending (Agenda.pop?_spec hpop).2
    have hroom := hwalk.advances.room
    exact ⟨n + 1, by omega, Empties.next hpop hwalk.run hempties⟩

/-- A drain under a bound no less than the room of the routine is one without a bound. -/
theorem Poised.empties (base : Setting) (hc : ∀ b, c b = { base with block := b })
    (h : Poised base.signatures w) {bound : Nat} (hroom : w.routine.room ≤ bound) :
    ∃ n, n ≤ bound ∧ Empties c w n (drain c bound w) := by
  have hends := drain_ends base hc h hroom
  unfold Ends at hends
  rcases hrun : drain c bound w with ⟨⟨⟩, w'⟩ | ⟨f, w'⟩
  · rw [hrun] at hends
    obtain ⟨n, hn, hempties⟩ := Chain.empties hends.1 hends.2
    exact ⟨n, by omega, hempties⟩
  · rw [hrun] at hends
    obtain ⟨n, hn, hempties⟩ := Stalls.empties hends
    exact ⟨n, by omega, hempties⟩

end Empties

end Infer
end ShapeFlow
