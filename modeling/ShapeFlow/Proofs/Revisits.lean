/-
# Blocks gone through again

A block that is gone through again, from the state it was entered in and with all that
its last walk left behind, finds nothing new: it writes no fact, hands no state on that
its successors have not taken in, and returns nothing that has not been returned.  So
nothing is queued.

Going through a block is evaluating it and then leaving it.  What is evaluated is the
same again by `meaning_echoes`; leaving it is absorbed.  A block that declares static
variables is another matter: what it finds depends on all that its routine has stored.

Key definitions: `Graph.IsSteady`, `Way`, `wayOut`, `depart`.
Key theorem: `Walks.again`.
-/
import ShapeFlow.Proofs.Assignments
import ShapeFlow.Proofs.Repeating

namespace ShapeFlow

open ShapeFlow.Flow Infer List
open ShapeFlow.Expr (tags)

/-! ### Steady graphs -/

/-- The operation declares a static variable. -/
def Op.isStatic {α : Type} : Op α → Bool
  | static .. => true
  | _ => false

/-- No static variable is declared, and whatever is stored into is a place. -/
structure Graph.IsSteady (g : Graph Nat) : Prop where
  ops : ∀ blk ∈ g.blocks, ∀ o ∈ blk.ops, o.isStatic = false
  exprs : ∀ e ∈ g.roots, e.IsSteady

theorem Routine.flowInto_eq_self {r : Routine} {b n m : Nat} {s s' : State}
    (hs' : r.input? b = some s') (hfits' : State.Fits n m s') (hfits : State.Fits n m s)
    (hle : s ≤ s') : r.flowInto b s = .ok (false, r) := by
  rw [Routine.flowInto, hs']
  simp only [State.join_eq_left hfits' hfits hle]
  show (if s'.agrees s' = true then _ else _) = _
  rw [if_pos ((State.agrees_iff hfits' hfits').2 rfl)]
  rfl

namespace Infer

variable {g : Place} {c c' : Setting} {t : ShapeTable} {p : Prop} {w w' v : Walker}
  {blk : Block Nat} {graph : Graph Nat} {b : Nat} {s : State} {u : Unit} {β : Type}

/-! ### Evaluating a block -/

theorem op_replays {o : Op Nat} (ho : o.isStatic = false)
    (hexprs : ∀ e ∈ o.exprs, Echoes g c' e) (hnames : ∀ name ∈ o.names, name ∈ g.names) :
    Replays g c' t (forSome tags o.exprs) (forSome tags o.exprs) True True
      (op g.setting o) (op c' o) fun _ _ => True := by
  cases o with
  | eval e =>
    have hset : e.tags ⊆ forSome tags (Op.eval e).exprs := tags_subset (.head _)
    exact ((hexprs e (.head _)).value t).discard.widen hset hset
  | static name init => cases ho
  | global names =>
    refine .mono ?_ (Set.empty_subset _) (Set.empty_subset _) fun _ _ _ h => h
    refine (addFlags_replays _).last fun _ t1 _ _ => forM_replays_silent fun name hname t2 _ => ?_
    refine (useVar_replays (hnames name hname)).last fun var t3 _ hvar => ?_
    exact (markAliased_replays hvar).last fun _ _ _ _ => assign_replays hvar ShapeTable.knows_any
  | unset names =>
    refine .mono ?_ (Set.empty_subset _) (Set.empty_subset _) fun _ _ _ h => h
    refine forM_replays_silent fun name hname t1 _ => ?_
    exact (useVar_replays (hnames name hname)).last fun var t2 _ hvar =>
      modifyState_replays fun _ _ _ _ hfits hknown => ⟨hfits.unset hvar, hknown.unset var⟩

/-- Goes through a block that is entered in `s`, up to its exit. -/
def evaluate (c : Setting) (s : State) (blk : Block Nat) : Walk Way := do
  setState s
  blk.ops.forM (op c)
  wayOut c blk.exit

theorem block_eq_evaluate (hs : w.routine.input? c.block = some s)
    (hblk : w.routine.graph.blocks[c.block]? = some blk) :
    block c w = (evaluate c s blk >>= depart c) w := by
  rw [block_eq hs hblk, evaluate]
  simp only [bind_assoc, exit_eq]

section Evaluate

variable {blk : Block Nat} {x : Exit Nat} {s : State}

theorem loopTypes_replays {s : TypeSet} (hs : t.Knows s) :
    Replays g c' t ∅ ∅ p p (loopTypes s) (loopTypes s) fun s t => t.Knows s := by
  refine getTable_replays fun t1 t2 ht h12 hvalid _ => ?_
  have hs1 := hs.mono ht
  rw [h12.canBe hs1, h12.restrict hs1]
  split
  · exact .pure fun _ _ => ShapeTable.knows_any
  · exact elementOf_replays (ShapeTable.knows_restrict hs1 _)

theorem loopKey_replays (hs : Held g s t) {key : Option String} (hkey : ∀ k ∈ key, k ∈ g.names) :
    Replays g c' t ∅ ∅ p p (loopKey s key) (loopKey s key) (Held g) := by
  cases key with
  | none => exact .pure fun t' ht' => ⟨hs.1, hs.2.mono ht'⟩
  | some k =>
    refine (useVar_replays (hkey k rfl)).last
      fun var t1 ht1 hvar => .pure_of_valid fun t' hvalid ht' => ?_
    exact ⟨hs.1.assign hvar _, (hs.2.mono (ht1.trans ht')).assign
      (hvalid.knows_int.union hvalid.knows_string) var⟩

theorem wayOut_replays (hagain : ∀ e ∈ x.exprs, Echoes g g.setting e)
    (hexprs : ∀ e ∈ x.exprs, Echoes g c' e) (hnames : ∀ name ∈ x.names, name ∈ g.names) :
    Replays g c' t (forSome tags x.exprs) (forSome tags x.exprs) True True
      (wayOut g.setting x) (wayOut c' x) fun way t => way.Held g t := by
  cases x with
  | fall =>
    refine .mono ?_ (Set.empty_subset _) (Set.empty_subset _) fun _ _ _ h => h
    refine getState_replays.last fun s t1 _ hs => .pure fun t' ht' => ⟨fun s' hs' => ?_,
      mem_cons_self, mem_cons_self⟩
    exact mem_singleton.1 hs' ▸ ⟨hs.2.1, hs.2.2.mono ht'⟩
  | branch cond =>
    have hset : cond.tags ⊆ forSome tags (Exit.branch cond).exprs :=
      tags_subset (.head _)
    exact (branchStates_replays (hexprs cond (.head _))
      (hagain cond (.head _))).seq _ _ (fun s t1 _ hs => .pure fun t' ht' =>
        held_pair ⟨hs.1.1, hs.1.2.mono ht'⟩ ⟨hs.2.1, hs.2.2.mono ht'⟩) (Set.disjoint_empty _) id
      (by simpa using hset) (by simpa using hset)
  | each source key value =>
    have hset : source.tags ⊆ forSome tags (Exit.each source key value).exprs :=
      tags_subset (.head _)
    refine ((hexprs source (.head _)).value t).seq ∅ ∅ (fun s t1 _ hs => ?_)
      (Set.disjoint_empty _) id (by simpa using hset) (by simpa using hset)
    refine (loopTypes_replays hs).last fun elem t2 _ helem => ?_
    refine getState_replays.last fun done t3 ht3 hdone => ?_
    refine (loopKey_replays hdone.2 fun k hk => hnames k ?_).last fun next t4 ht4 hnext => ?_
    · obtain rfl : key = some k := hk
      simp [Exit.names]
    refine (useVar_replays (hnames value (by simp [Exit.names]))).last
      fun var t5 ht5 hvar => .pure fun t' ht' => ?_
    have hlate := ht5.trans ht'
    exact held_pair ⟨hnext.1.assign hvar _, (hnext.2.mono hlate).assign
      (helem.mono (ht3.trans (ht4.trans hlate))) var⟩ ⟨hdone.2.1, hdone.2.2.mono (ht4.trans hlate)⟩
  | ret e =>
    have hvalue : Refinds g c' t (forSome tags (Exit.ret e).exprs)
        (forSome tags (Exit.ret e).exprs) (optValue g.setting e) (optValue c' e) := by
      cases e with
      | none =>
        exact (Replays.pure_of_valid fun _ hvalid _ => hvalid.knows_null).widen (Set.empty_subset _)
          (Set.empty_subset _)
      | some e =>
        have hset : e.tags ⊆ forSome tags (Exit.ret (some e)).exprs :=
          tags_subset (.head _)
        exact ((hexprs e (.head _)).value t).widen hset hset
    refine hvalue.last fun s t1 _ hs => ?_
    exact getState_replays.last fun _ _ ht2 hheld => .pure fun _ ht' =>
      ⟨⟨hheld.2.1, hheld.2.2.mono ht'⟩, (hs.mono (ht2.trans ht')).plain⟩

/-- The numbers of the expressions of a block. -/
abbrev blockTags (blk : Block Nat) : Set Nat := forSome Expr.tags blk.roots

theorem evaluate_replays (hs : Held g s t) (hunique : TagsUnique blk.roots)
    (hstatic : ∀ o ∈ blk.ops, o.isStatic = false) (hagain : ∀ e ∈ blk.roots, Echoes g g.setting e)
    (hroots : ∀ e ∈ blk.roots, Echoes g c' e)
    (hops : ∀ o ∈ blk.ops, ∀ name ∈ o.names, name ∈ g.names)
    (hexit : ∀ name ∈ blk.exit.names, name ∈ g.names) :
    Replays g c' t (blockTags blk) (blockTags blk) False True (evaluate g.setting s blk)
      (evaluate c' s blk) fun way t => way.Held g t := by
  obtain ⟨hopsApart, -, hexitApart⟩ := pairwise_append.1 hunique.untouched
  have hop : ∀ o ∈ blk.ops, ∀ e ∈ o.exprs, e ∈ blk.roots := fun o ho e he =>
    mem_append_left _ (mem_flatMap.2 ⟨o, ho, he⟩)
  have hout : ∀ e ∈ blk.exit.exprs, e ∈ blk.roots := fun e he => mem_append_right _ he
  let sets : Op Nat → Set Nat := fun o => forSome tags o.exprs
  have huntouched : Untouched sets sets blk.ops := by
    refine (pairwise_flatMap.1 hopsApart).2.imp fun {a b} hab => ?_
    rw [Set.disjoint_left]
    rintro k ⟨x, hx, hk⟩ ⟨y, hy, hk'⟩
    exact Set.disjoint_left.1 (hab x hx y hy) hk hk'
  have hcross : Disjoint (forSome sets blk.ops) (forSome tags blk.exit.exprs) := by
    rw [Set.disjoint_left]
    rintro k ⟨o, ho, x, hx, hk⟩ ⟨y, hy, hk'⟩
    exact Set.disjoint_left.1 (hexitApart x (mem_flatMap.2 ⟨o, ho, hx⟩) y hy) hk hk'
  have hsets : forSome sets blk.ops ∪ forSome tags blk.exit.exprs ⊆ blockTags blk := by
    rintro k (⟨o, ho, x, hx, hk⟩ | ⟨x, hx, hk⟩)
    · exact ⟨x, hop o ho x hx, hk⟩
    · exact ⟨x, hout x hx, hk⟩
  refine (setState_replays hs.1 hs.2).seq (blockTags blk) (blockTags blk) (fun _ t1 _ _ => ?_)
    (Set.empty_disjoint _) id (by simp) (by simp)
  refine (forM_replays huntouched fun o ho t2 _ => op_replays (hstatic o ho)
    (fun e he => hroots e (hop o ho e he)) (hops o ho)).seq _ _ (fun _ t2 _ _ => ?_) hcross id hsets
    hsets
  exact wayOut_replays (fun e he => hagain e (hout e he)) (fun e he => hroots e (hout e he)) hexit

theorem evaluate_runs (hw : Whole g w) (hg : g.Covers w.routine.graph)
    (hs : w.routine.input? g.setting.block = some s)
    (hblk : w.routine.graph.blocks[g.setting.block]? = some blk)
    (hstatic : ∀ o ∈ blk.ops, o.isStatic = false) :
    Runs g (evaluate g.setting s blk) w fun _ _ => True := by
  have henter := hw.enter hs
  refine (setState_runs hw.toSane henter.fits henter.known).bind fun _ w1 hw1 _ _ => ?_
  refine (Runs.forM (P := fun _ _ => True) hw1 (fun _ _ _ _ _ _ => trivial)
    fun o ho w2 hw2 => ?_).bind fun _ w3 hw3 _ _ => ?_
  · have hfits := hg.fits_op hblk ho
    refine (op_runs hg.free hw2 (fun name init h => ?_) hfits.1 hfits.2).mono
      fun _ _ _ _ _ => trivial
    have := hstatic o ho
    rw [h] at this
    cases this
  · have hfits := hg.fits_exit hblk
    exact (wayOut_runs hg.free hw3 hfits.1 hfits.2).mono fun _ _ _ _ _ => trivial

end Evaluate

/-! ### Leaving a block -/

/-- Nothing has changed but the types that the variables have throughout the routine. -/
def Retypes (w w' : Walker) : Prop :=
  ∃ vars, w' = { w with routine := { w.routine with scope := { w.routine.scope with vars } } }

theorem Retypes.refl (w : Walker) : Retypes w w := ⟨_, rfl⟩

theorem Retypes.trans {w'' : Walker} (h : Retypes w w') (h' : Retypes w' w'') : Retypes w w'' := by
  obtain ⟨vars, rfl⟩ := h
  obtain ⟨vars', rfl⟩ := h'
  exact ⟨vars', rfl⟩

theorem Retypes.sites (h : Retypes w w') : w'.routine.sites = w.routine.sites := by
  obtain ⟨vars, rfl⟩ := h
  rfl

theorem forM_retypes {f : β → Walk PUnit} : ∀ {l : List β} {w w' : Walker} {u : PUnit},
    w.routine.sites = [] →
    (∀ a ∈ l, ∀ w w' u, w.routine.sites = [] → f a w = .ok u w' → Retypes w w') →
    l.forM f w = .ok u w' → Retypes w w'
  | [], w, w', u, _, _, h => by
    cases h
    exact .refl w
  | a :: l, w, w', u, hsites, hf, h => by
    obtain ⟨u1, w1, ha, hl⟩ := ok_of_bind h
    have hfirst := hf a (.head _) w w1 u1 hsites ha
    exact hfirst.trans (forM_retypes (hfirst.sites.trans hsites)
      (fun b hb => hf b (.tail _ hb)) hl)

theorem commitOne_retypes {i : Nat} {types : TypeSet} (hsites : w.routine.sites = [])
    (h : commitOne i types w = .ok u w') : Retypes w w' := by
  unfold commitOne at h
  rw [getRoutine_bind] at h
  obtain ⟨grew, w1, hadd, h⟩ := ok_of_bind h
  obtain ⟨scope, hscope, rfl⟩ := of_updateScope hadd
  obtain ⟨v, -, rfl⟩ := Scope.addTypes_ok hscope
  have hnone : w.routine.sites.lookup i = none := by
    rw [hsites]
    rfl
  simp only [hnone] at h
  split at h <;> (cases h; exact ⟨_, rfl⟩)

theorem commit_retypes (hsites : w.routine.sites = []) (h : commit s w = .ok u w') : Retypes w w' :=
  forM_retypes hsites (fun _ _ _ _ _ hsites h => commitOne_retypes hsites h) h

/-- Nothing has changed but the inputs, and what is pending. -/
def Refills (w w' : Walker) : Prop :=
  ∃ inputs pending, w' = { w with routine := { w.routine with inputs, pending } }

theorem flowInto_refills (h : flowInto b s w = .ok u w') : Refills w w' := by
  obtain ⟨changed, r, hflow, rfl⟩ := of_flowInto h
  rcases Routine.flowInto_cases hflow with rfl | ⟨s', rfl, -⟩ <;> exact ⟨_, _, rfl⟩

theorem forM_refills {f : β → Walk PUnit} (hf : ∀ a w w' u, f a w = .ok u w' → Refills w w') :
    ∀ {l : List β} {w w' : Walker} {u : PUnit},
    l.forM f w = .ok u w' → Refills w w'
  | [], w, w', u, h => by
    cases h
    exact ⟨_, _, rfl⟩
  | a :: l, w, w', u, h => by
    obtain ⟨u1, w1, ha, hl⟩ := ok_of_bind h
    obtain ⟨inputs, pending, rfl⟩ := hf a w w1 u1 ha
    obtain ⟨inputs', pending', rfl⟩ := forM_refills hf hl
    exact ⟨inputs', pending', rfl⟩

variable {way : Way}

theorem depart_frame (hsites : w.routine.sites = []) (h : depart c way w = .ok u w') :
    w'.table = w.table ∧ w'.reports = w.reports ∧ w'.routine.facts = w.routine.facts ∧
      w'.routine.sites = w.routine.sites := by
  cases way with
  | onward held yes no =>
    obtain ⟨u1, w1, hcommit, hprop⟩ := ok_of_bind h
    obtain ⟨vars, rfl⟩ := forM_retypes hsites
      (fun s _ _ _ _ hsites h => commit_retypes hsites h) hcommit
    obtain ⟨inputs, pending, rfl⟩ := forM_refills (fun _ _ _ _ h => flowInto_refills h) hprop
    exact ⟨rfl, rfl, rfl, rfl⟩
  | back held returned =>
    obtain ⟨_, w1, hcommit, hret⟩ := ok_of_bind h
    obtain ⟨vars, rfl⟩ := commit_retypes hsites hcommit
    cases hret
    exact ⟨rfl, rfl, rfl, rfl⟩

theorem Way.Taken.mono {r r' : Routine} (h : way.Taken b r) (hgraph : r'.graph = r.graph)
    (hinputs : ∀ d s, r.input? d = some s → ∃ s', r'.input? d = some s' ∧ s ≤ s')
    (hreturns : r.scope.returns ≤ r'.scope.returns) : way.Taken b r' := by
  cases way with
  | onward held yes no =>
    intro p hp
    rw [hgraph] at hp
    obtain ⟨s, hs, hle⟩ := h p hp
    obtain ⟨s', hs', hle'⟩ := hinputs p.1 s hs
    exact ⟨s', hs', State.le_trans hle hle'⟩
  | back held returned => exact TypeSet.le_trans h hreturns

theorem flowInto_absorbed {s' : State} {n m : Nat} (hs' : w.routine.input? b = some s')
    (hfits' : State.Fits n m s') (hfits : State.Fits n m s) (hle : s ≤ s') :
    flowInto b s w = .ok () w := by
  rw [flowInto, getRoutine_bind,
    Routine.flowInto_eq_self hs' hfits' hfits hle]
  rfl

theorem forM_absorbed {f : β → Walk PUnit} : ∀ {l : List β},
    (∀ a ∈ l, f a w = .ok () w) → l.forM f w = .ok () w
  | [], _ => rfl
  | a :: l, h => by
    refine (bind_of_ok (h a (.head _))).trans ?_
    exact forM_absorbed fun b hb => h b (.tail _ hb)

theorem depart_absorbed (hway : way.Held g w.table) (hsites : w.routine.sites = [])
    (htaken : way.Taken c.block w.routine)
    (hfits : ∀ b s, w.routine.input? b = some s → State.Fits g.routine g.vars s)
    (h : depart c way w = .ok u w') : Retypes w w' := by
  cases way with
  | onward held yes no =>
    obtain ⟨u1, w1, hcommit, hprop⟩ := ok_of_bind h
    obtain ⟨vars, rfl⟩ := forM_retypes hsites
      (fun s _ _ _ _ hsites h => commit_retypes hsites h) hcommit
    have hstates : ∀ p : Nat × Label, State.Fits g.routine g.vars
        (if p.2 = .onFalse then no else yes) := fun p => by
      split
      · exact (hway.1 no hway.2.2).1
      · exact (hway.1 yes hway.2.1).1
    rw [propagate, getRoutine_bind, forM_absorbed fun p hp => ?_]
      at hprop
    · cases hprop
      exact ⟨vars, rfl⟩
    · obtain ⟨s, hs, hle⟩ := htaken p hp
      exact flowInto_absorbed hs (hfits p.1 s hs) (hstates p) hle
  | back held returned =>
    obtain ⟨_, w1, hcommit, hret⟩ := ok_of_bind h
    obtain ⟨vars, rfl⟩ := commit_retypes hsites hcommit
    cases hret
    have hreturns : w.routine.scope.returns ∪ returned = w.routine.scope.returns :=
      TypeSet.union_eq_left htaken
    refine ⟨vars, ?_⟩
    simp only [Scope.addReturn, hreturns]

/-! ### The whole block -/

theorem Walks.exists_block (h : Walks c w w') : ∃ blk, w.routine.graph.blocks[c.block]? = some blk := by
  have hw : Whole (Place.within c w.routine) w := h.before.whole h.here
  exact ⟨_, getElem?_eq_getElem (hw.graph.reach_lt (hw.held.reach _ h.here))⟩

theorem Walks.sites (h : Walks c w w') (hsteady : w.routine.graph.IsSteady)
    (hsites : w.routine.sites = []) : w'.routine.sites = [] := by
  have hw : Whole (Place.within c w.routine) w := h.before.whole h.here
  obtain ⟨s, hs⟩ := Option.isSome_iff_exists.1 h.here
  obtain ⟨blk, hblk⟩ := h.exists_block
  obtain ⟨way, w1, heval, hdepart⟩ := ok_of_bind ((block_eq_evaluate hs hblk).symm.trans h.run)
  obtain ⟨-, hlearn, -⟩ := (evaluate_runs hw h.before.covers hs hblk
    (hsteady.ops blk (mem_of_getElem? hblk))).ok heval
  have hsites1 : w1.routine.sites = [] := by rw [hlearn.frame]; exact hsites
  exact (depart_frame hsites1 hdepart).2.2.2.trans hsites1

/-- The routine, seen through setting `c'` and with table `t`, has all that the walk from `w` to `w'`
left behind, and its block is entered as it was then. -/
structure Remembers (c c' : Setting) (w w' : Walker) (t : ShapeTable) (r : Routine) : Prop where
  akin : c.Akin c'
  block : c'.block = c.block
  id : r.id = w.routine.id
  graph : r.graph = w.routine.graph
  names : r.scope.names = w.routine.scope.names
  input : r.input? c.block = w.routine.input? c.block
  table : w'.table.Extends t
  facts : ∀ k ∈ w.routine.graph.tagsOf c.block, r.facts[k]? = w'.routine.facts[k]?
  inputs : ∀ b s, w'.routine.input? b = some s → ∃ s', r.input? b = some s' ∧ s ≤ s'
  returns : w'.routine.scope.returns ≤ r.scope.returns
  /-- The routines that were called return what they did. -/
  signatures : ∀ x ∈ w'.reports, c'.signatures[x.1]? = c.signatures[x.1]?

/-- The walk from `v` to `v'` has found nothing new and has made no call that the one that ended
in `w'` had not made. -/
structure Idles (w' v v' : Walker) : Prop where
  table : v'.table = v.table
  facts : v'.routine.facts = v.routine.facts
  inputs : v'.routine.inputs = v.routine.inputs
  pending : v'.routine.pending = v.routine.pending
  sites : v'.routine.sites = v.routine.sites
  returns : v'.routine.scope.returns = v.routine.scope.returns
  reports : ∀ x ∈ v'.reports, x ∈ v.reports ∨ x ∈ w'.reports

theorem Remembers.place (h : Remembers c c' w w' v.table v.routine) :
    Place.within c' v.routine = (Place.within c w.routine).moved c' := by
  unfold Place.within Place.moved
  rw [h.id, h.graph, h.names, h.block]

theorem mem_tagsOf {k : Nat} (hblk : graph.blocks[b]? = some blk) (hk : k ∈ blockTags blk) :
    k ∈ graph.tagsOf b := by
  obtain ⟨e, he, x, hx, rfl⟩ := hk
  exact mem_map_of_mem ((Graph.mem_exprsOf hblk).2 ⟨e, he, hx⟩)

theorem Place.Covers.echoes (hg : g.Covers graph) (hblk : graph.blocks[g.setting.block]? = some blk)
    (hsteady : graph.IsSteady) (hunique : TagsUnique blk.roots) (hakin : g.setting.Akin c') :
    ∀ e ∈ blk.roots, Echoes g c' e := by
  intro e he
  have hroot : e ∈ graph.roots := mem_flatMap.2 ⟨blk, mem_of_getElem? hblk, he⟩
  refine meaning_echoes e ?_ (hunique.of_mem he) (hsteady.exprs e hroot) c' hakin
  rcases mem_append.1 he with he | he
  · obtain ⟨o, ho, he⟩ := mem_flatMap.1 he
    exact (hg.fits_op hblk ho).1 e he
  · exact (hg.fits_exit hblk).1 e he

/-- **Going through a block again** changes nothing. -/
theorem Walks.again {v' : Walker} (h : Walks c w w') (h' : Walks c' v v')
    (hmem : Remembers c c' w w' v.table v.routine) (hsteady : w.routine.graph.IsSteady)
    (hsites : w.routine.sites = []) (hsites' : v.routine.sites = []) : Idles w' v v' := by
  have hw : Whole (Place.within c w.routine) w := h.before.whole h.here
  have hv : Whole ((Place.within c w.routine).moved c') v := hmem.place ▸ h'.before.whole h'.here
  have hg := h.before.covers
  have hg' : ((Place.within c w.routine).moved c').Covers v.routine.graph :=
    hmem.place ▸ h'.before.covers
  obtain ⟨s, hs⟩ := Option.isSome_iff_exists.1 h.here
  have hs' : v.routine.input? c'.block = some s := by rw [hmem.block, hmem.input, hs]
  obtain ⟨blk, hblk⟩ := h.exists_block
  have hblk' : v.routine.graph.blocks[c'.block]? = some blk := by rw [hmem.block, hmem.graph, hblk]
  have hstatic := hsteady.ops blk (mem_of_getElem? hblk)
  have hunique : TagsUnique blk.roots := (h.before.routine.suits hblk).numbered
  -- both walks evaluate the block and then leave it
  obtain ⟨way, w1, heval, hdepart⟩ := ok_of_bind ((block_eq_evaluate hs hblk).symm.trans h.run)
  obtain ⟨way', v1, heval', hdepart'⟩ := ok_of_bind ((block_eq_evaluate hs' hblk').symm.trans h'.run)
  obtain ⟨hw1, hlearn, -⟩ := (evaluate_runs hw hg hs hblk hstatic).ok heval
  obtain ⟨-, hlearn', -⟩ := (evaluate_runs hv hg' hs' hblk' hstatic).ok heval'
  have henter := hw.enter hs
  have hrep : Replays (Place.within c w.routine) c' w.table (blockTags blk) (blockTags blk) False True
      (evaluate c s blk) (evaluate c' s blk) fun way t => way.Held (Place.within c w.routine) t :=
    evaluate_replays ⟨henter.fits, henter.known⟩ hunique hstatic
      (hg.echoes hblk hsteady hunique (.refl hmem.akin.resolver))
      (hg.echoes hblk hsteady hunique hmem.akin) (fun o ho => (hg.fits_op hblk ho).2)
      (hg.fits_exit hblk).2
  obtain ⟨-, hwrites, hway⟩ := hrep.first w way w1 hw.toSane (.refl _) heval
  have hsites1 : w1.routine.sites = [] := by rw [hlearn.frame]; exact hsites
  obtain ⟨htable, hreports, hfacts, -⟩ := depart_frame hsites1 hdepart
  have htaken := ((depart_goes (hw.learn hw1 hlearn) hway).ok hdepart).2.2
  have hsame : ∀ k ∈ blockTags blk, v.routine.facts[k]? = w1.routine.facts[k]? := fun k hk => by
    rw [hmem.facts k (mem_tagsOf hblk hk), hfacts]
  obtain ⟨rfl, hecho⟩ := hrep.echo w way w1 v way' v1 hw.toSane hv.toSane (.refl _) heval heval'
    { state := False.elim
      table := htable ▸ hmem.table
      same := hsame
      facts := fun k hk => hsame k hk ▸ .refl Fact.le_refl _
      returns := fun x hx => hmem.signatures x (hreports ▸ hx) }
  have hinput : ∀ b, v1.routine.input? b = v.routine.input? b := hlearn'.input?
  have htaken1 : way'.Taken c'.block v1.routine := by
    have hgraph : v1.routine.graph = w'.routine.graph := by
      rw [hlearn'.frame, h.advances.graph]
      exact hmem.graph
    rw [hmem.block]
    refine htaken.mono hgraph (fun b s hb => ?_) ?_
    · rw [hinput]
      exact hmem.inputs b s hb
    · rw [hlearn'.frame]
      exact hmem.returns
  have hfits : ∀ b s, v1.routine.input? b = some s → State.Fits ((Place.within c w.routine).moved
      c').routine ((Place.within c w.routine).moved c').vars s := by
    intro b s hb
    rw [hinput] at hb
    rw [← hv.id, ← hv.size_eq]
    exact hv.held.fits b s hb
  obtain ⟨vars, rfl⟩ := depart_absorbed (g := (Place.within c w.routine).moved c') (c := c')
    (hrep.second v way' v1 hv.toSane (hwrites.table.trans (htable ▸ hmem.table)) heval').2.2
    (by rw [hlearn'.frame]; exact hsites') htaken1 hfits hdepart'
  exact {
    table := hecho.table trivial
    facts := hecho.facts
    inputs := by rw [hlearn'.frame]
    pending := by rw [hlearn'.frame]
    sites := by rw [hlearn'.frame]
    returns := by rw [hlearn'.frame]
    reports := fun x hx => (hecho.reports x hx).imp_right fun h => hreports.symm ▸ h }

end Infer
end ShapeFlow
