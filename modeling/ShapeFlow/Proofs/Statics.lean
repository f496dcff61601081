/-
# Static variables

A static variable keeps its types from call to call, so a declaration gives it all
that it has throughout the routine.  When more is added to that, a block that
declares it is visited again: the one that declared it last, and that one only.
So the newest visit to a block with a declaration has seen everything.

Key definitions: `Routine.site?`, `Routine.Awaits`, `Routine.Alerts`, `Visit.After`.
Key theorems: `Infer.static_gives`, `Infer.exit_alerts`, `Walks.declares`,
`Program.History.static_covered`.
-/
import ShapeFlow.Proofs.Assignments
import ShapeFlow.Proofs.Visits

namespace ShapeFlow

open ShapeFlow.Flow Infer List TypeSet

section declared

variable {α : Type}

/-- The static variable that an operation declares. -/
def Op.declared? : Op α → Option String
  | .static name _ => some name
  | .eval _ | .global _ | .unset _ => none

/-- The static variables that a block declares. -/
def Block.declared (b : Block α) : List String := b.ops.filterMap Op.declared?

theorem Block.mem_declared {name : String} {b : Block α} :
    name ∈ b.declared ↔ ∃ init, .static name init ∈ b.ops := by
  unfold declared
  rw [mem_filterMap]
  constructor
  · rintro ⟨o, ho, hname⟩
    cases o with
    | static n init =>
      cases hname
      exact ⟨init, ho⟩
    | eval _ | global _ | unset _ => cases hname
  · rintro ⟨init, ho⟩
    exact ⟨_, ho, rfl⟩

end declared

namespace Routine

variable {name : String} {b : Nat} {D : Prop} {r r' r'' : Routine}

/-- The block that has declared a static variable last. -/
def site? (r : Routine) (name : String) : Option Nat := r.sites.lookup (r.index name)

/-- Nothing is added to what the variable has throughout the routine.  It is declared in block
`b` at most, and only if `D`. -/
structure Awaits (name : String) (b : Nat) (D : Prop) (r r' : Routine) : Prop where
  names : r'.scope.names = r.scope.names
  merged : r'.merged (r.index name) = r.merged (r.index name)
  site : r'.site? name = r.site? name ∨ D ∧ r'.site? name = some b

/-- When something is added to what the variable has throughout the routine, the block that has
declared it is queued. -/
structure Alerts (name : String) (r r' : Routine) : Prop where
  names : r'.scope.names = r.scope.names
  sites : r'.sites = r.sites
  pending : ∀ d ∈ r.pending.toList, d ∈ r'.pending.toList
  merged : r'.merged (r.index name) = r.merged (r.index name) ∨
    ∀ d, r.site? name = some d → d ∈ r'.pending.toList

theorem index_congr (h : r'.scope.names = r.scope.names) (name : String) :
    r'.index name = r.index name := by
  rw [index, index, h]

theorem Awaits.refl (r : Routine) : Awaits name b D r r := ⟨rfl, rfl, .inl rfl⟩

theorem Awaits.trans (h : Awaits name b D r r') (h' : Awaits name b D r' r'') :
    Awaits name b D r r'' where
  names := h'.names.trans h.names
  merged := (index_congr h.names name ▸ h'.merged).trans h.merged
  site := by
    rcases h'.site with hsite | hsite
    · rw [hsite]
      exact h.site
    · exact .inr hsite

theorem Awaits.mono {D' : Prop} (h : Awaits name b D r r') (hD : D → D') : Awaits name b D' r r' :=
  { h with site := h.site.imp_right fun hd => ⟨hD hd.1, hd.2⟩ }

theorem Awaits.same_site (h : Awaits name b D r r') (hD : ¬ D) : r'.site? name = r.site? name :=
  h.site.resolve_right fun hd => hD hd.1

theorem Alerts.site (h : Alerts name r r') : r'.site? name = r.site? name := by
  rw [site?, site?, h.sites, index_congr h.names]

theorem Alerts.refl (r : Routine) : Alerts name r r := ⟨rfl, rfl, fun _ hd => hd, .inl rfl⟩

theorem Alerts.trans (h : Alerts name r r') (h' : Alerts name r' r'') : Alerts name r r'' where
  names := h'.names.trans h.names
  sites := h'.sites.trans h.sites
  pending d hd := h'.pending d (h.pending d hd)
  merged := by
    rcases h.merged with hsame | hqueued
    · rcases h'.merged with hsame' | hqueued'
      · exact .inl ((index_congr h.names name ▸ hsame').trans hsame)
      · exact .inr fun d hd => hqueued' d (h.site.trans hd)
    · exact .inr fun d hd => h'.pending d (hqueued d hd)

theorem alerts_flowInto {d : Nat} {s : State} {changed : Bool}
    (h : r.flowInto d s = .ok (changed, r')) : Alerts name r r' := by
  rcases flowInto_cases h with rfl | ⟨s', rfl, -⟩
  · exact .refl r'
  · exact ⟨rfl, rfl, fun _ hd => Agenda.mem_insert.2 (.inl hd), .inl rfl⟩

end Routine

namespace Infer

variable {g : Place} {w w' : Walker} {name : String} {b : Nat} {D : Prop} {v : Variable}

/-! ### Operations -/

theorem Learns.awaits (h : Learns g w w') : w.routine.Awaits name b D w'.routine := by
  rw [h.frame]
  exact ⟨rfl, rfl, .inl rfl⟩

theorem Learns.alerts (h : Learns g w w') : w.routine.Alerts name w'.routine := by
  rw [h.frame]
  exact ⟨rfl, rfl, fun _ hd => hd, .inl rfl⟩

theorem vars_keeping (c : Setting) (r : Routine) (i : Nat) (types : TypeSet) (v : Variable) :
    (keeping c r i types v).scope.vars = r.scope.vars.set i { v with kept := some (keptWith v types) } := by
  unfold keeping
  simp only
  split <;> rfl

theorem sites_keeping (c : Setting) (r : Routine) (i : Nat) (types : TypeSet) (v : Variable) :
    (keeping c r i types v).sites = r.sites := by
  unfold keeping
  simp only
  split <;> rfl

theorem lookup_site (sites : List (Nat × Nat)) (i d j : Nat) :
    ((i, d) :: sites.filter (·.1 != i)).lookup j = if i = j then some d else sites.lookup j := by
  by_cases hj : i = j
  · rw [if_pos hj, hj, lookup_cons_self]
  · rw [if_neg hj, lookup_cons, show (j == i) = false by simpa using Ne.symm hj]
    simp only
    induction sites with
    | nil => rfl
    | cons p sites ih =>
      by_cases hp : p.1 = i
      · rw [filter_cons_of_neg (by simp [hp]), ih, lookup_cons,
          show (j == p.1) = false by simpa [hp] using Ne.symm hj]
      · rw [filter_cons_of_pos (by simp [hp]), lookup_cons, lookup_cons, ih]

theorem declare_eq {i : Nat} (hv : w.routine.scope.vars[i]? = some v) (c : Setting)
    (first : TypeSet) :
    (do
      modifyRoutine fun r => { r with sites := (i, c.block) :: r.sites.filter (·.1 != i) }
      let r ← getRoutine
      let held ← ofExcept (r.scope.get i)
      keep c i (first ∪ held.types.plain)
      let r ← getRoutine
      modifyState (·.assign i ((r.scope.kept? i).getD (first ∪ held.types.plain))) : Walk Unit) w =
    .ok () { w with
      routine := keeping c
        { w.routine with sites := (i, c.block) :: w.routine.sites.filter (·.1 != i) } i
        (first ∪ v.types.plain) v
      state := w.state.assign i (keptWith v (first ∪ v.types.plain)) } := by
  let r : Routine := { w.routine with sites := (i, c.block) :: w.routine.sites.filter (·.1 != i) }
  have hkept : (keeping c r i (first ∪ v.types.plain) v).scope.kept? i =
      some (keptWith v (first ∪ v.types.plain)) := by
    rw [Scope.kept?, vars_keeping, getElem?_set_self (lt_of_getElem? hv)]
    rfl
  rw [bind_of_ok (show modifyRoutine _ w = .ok () { w with routine := r } from rfl),
    bind_of_ok (show getRoutine _ = .ok r { w with routine := r } from rfl),
    show r.scope.get i = .ok v by rw [Scope.get, show r.scope.vars = w.routine.scope.vars from rfl, hv],
    bind_of_ok (show ofExcept (.ok v) _ = .ok v { w with routine := r } from rfl),
    bind_of_ok (keep_eq (w := { w with routine := r }) hv c _)]
  show EStateM.Result.ok () { w with
    routine := keeping c r i (first ∪ v.types.plain) v
    state := w.state.assign i (((keeping c r i (first ∪ v.types.plain) v).scope.kept? i).getD
      (first ∪ v.types.plain)) } = _
  rw [hkept]
  rfl

section declared

variable {r : Routine} {n : String} {v : Variable}

/-- The routine after a declaration of `n`, which was `v`. -/
def declared (c : Setting) (r : Routine) (n : String) (types : TypeSet) (v : Variable) : Routine :=
  keeping c { r with sites := (r.index n, c.block) :: r.sites.filter (·.1 != r.index n) } (r.index n) types v

variable (hv : r.scope.vars[r.index n]? = some v) (c : Setting) (types : TypeSet)

include hv

theorem names_declared : (declared c r n types v).scope.names = r.scope.names := by
  show map Variable.name _ = _
  rw [declared, vars_keeping]
  exact Scope.names_set (u := { v with kept := some (keptWith v types) }) hv rfl

theorem site?_declared (name : String) : (declared c r n types v).site? name =
    if r.index n = r.index name then some c.block else r.site? name := by
  rw [Routine.site?, Routine.index_congr (names_declared hv c types), declared, sites_keeping, lookup_site]
  rfl

theorem declared_awaits (hn : n ∈ r.scope.names) :
    r.Awaits name c.block (n = name) (declared c r n types v) := by
  refine ⟨names_declared hv c types, ?_, ?_⟩
  · unfold Routine.merged
    rw [declared, vars_keeping, getElem?_set]
    split
    next heq =>
      rw [← heq, hv, if_pos (lt_of_getElem? hv)]
      rfl
    next => rfl
  · rw [site?_declared hv]
    split
    next heq => exact .inr ⟨by_contra fun hne => r.index_ne hn (Ne.symm hne) heq.symm, rfl⟩
    next => exact .inl rfl

end declared

theorem mem_keptWith {types : TypeSet} {x : Nat} (hx : x ∈ types) : x ∈ keptWith v types := by
  unfold keptWith
  split
  · exact mem_union.2 (.inr hx)
  · exact hx

theorem static_gives (name : String) (hfree : g.Free) (hw : Whole g w) {n : String} (hn : n ∈ g.names)
    {init : Option (Expr Nat)} (hinit : ∀ e ∈ init.toList, Fits g e)
    (hrun : op g.setting (.static n init) w = .ok () w') :
    w.routine.Awaits name g.setting.block (n = name) w'.routine ∧
      w'.routine.site? n = some g.setting.block ∧
      w.routine.merged (w.routine.index n) ⊆ w'.state.get (w.routine.index n) := by
  rw [op_static] at hrun
  obtain ⟨_, w1, hrun1, hrun⟩ := ok_of_bind hrun
  obtain ⟨hw1, hl1, -⟩ := (addFlags_runs hw.toSane _).ok hrun1
  obtain ⟨i, w2, hrun2, hrun⟩ := ok_of_bind hrun
  obtain ⟨hw2, hl2, hi, hlt, -⟩ := (useVar_runs hw1 hn).ok hrun2
  obtain ⟨first, w3, hrun3, hrun⟩ := ok_of_bind hrun
  obtain ⟨hw3, hl3, -⟩ := (optValue_runs hfree hw2 hinit).ok hrun3
  have hlearns := (hl1.trans hl2).trans hl3
  obtain ⟨v, hv, -⟩ := (hw.learn hw3 hlearns).exists_var hlt
  rw [declare_eq hv] at hrun
  obtain rfl := (EStateM.Result.ok.inj hrun).2
  obtain rfl : i = w3.routine.index n := by rw [hi, Routine.index, hw3.names]
  have hlearned : w.routine.Awaits n g.setting.block True w3.routine := hlearns.awaits
  refine ⟨hlearns.awaits.trans (declared_awaits hv _ _ (hw3.names ▸ hn)), ?_, ?_⟩
  · exact (site?_declared hv ..).trans (if_pos rfl)
  · have hmerged : w3.routine.merged (w3.routine.index n) = v.types := by
      rw [Routine.merged, hv]
      rfl
    rw [Routine.index_congr hlearned.names] at hmerged hlt ⊢
    rw [← hlearned.merged, hmerged]
    refine subset_iff.2 fun x hx => ?_
    unfold State.get
    split
    · rw [State.slot_assign, if_pos rfl]
      exact mem_keptWith (mem_union.2 (.inr hx))
    · exact (mem_any x).2 (lt_of_mem hx)

theorem op_awaits (hfree : g.Free) (hw : Whole g w) {o : Op Nat} (hexprs : ∀ e ∈ o.exprs, Fits g e)
    (hnames : ∀ n ∈ o.names, n ∈ g.names) (hrun : op g.setting o w = .ok () w') :
    w.routine.Awaits name g.setting.block (∃ init, o = .static name init) w'.routine := by
  cases o with
  | static n init =>
    refine (static_gives name hfree hw (hnames n (by simp [Op.names])) hexprs hrun).1.mono ?_
    rintro rfl
    exact ⟨init, rfl⟩
  | eval | global | unset =>
    exact ((op_runs hfree hw.toSane (by simp) hexprs hnames).ok hrun).2.1.awaits

theorem ops_await (name : String) (hfree : g.Free) : ∀ {l : List (Op Nat)} {w : Walker}, Whole g w →
    (∀ o ∈ l, (∀ e ∈ o.exprs, Fits g e) ∧ ∀ n ∈ o.names, n ∈ g.names) →
    l.forM (op g.setting) w = .ok () w' → Whole g w' ∧
      w.routine.Awaits name g.setting.block (∃ init, .static name init ∈ l) w'.routine
  | [], w, hw, _, hrun => by
    obtain rfl := (EStateM.Result.ok.inj hrun).2
    exact ⟨hw, .refl _⟩
  | o :: l, w, hw, hl, hrun => by
    obtain ⟨_, w1, hrun1, hrun⟩ := ok_of_bind hrun
    obtain ⟨hexprs, hnames⟩ := hl o (.head _)
    have hw1 := ((op_goes hfree hw hexprs hnames).ok hrun1).1
    obtain ⟨hw', hawaits⟩ := ops_await name hfree hw1 (fun o' ho' => hl o' (.tail _ ho')) hrun
    have hfirst : w.routine.Awaits name g.setting.block _ w1.routine := op_awaits hfree hw hexprs hnames hrun1
    refine ⟨hw', (hfirst.mono ?_).trans (hawaits.mono ?_)⟩
    · rintro ⟨init, rfl⟩
      exact ⟨init, .head _⟩
    · rintro ⟨init, hmem⟩
      exact ⟨init, .tail _ hmem⟩

/-! ### Exits -/

/-- The step queues the block that has declared the variable if it adds to what that has. -/
def Alerting {β : Type} (name : String) (m : Walk β) : Prop :=
  ∀ w b w', m w = .ok b w' → w.routine.Alerts name w'.routine

section Alerting

variable {β γ : Type} {m : Walk β} {f : β → Walk γ}

theorem Alerting.bind (h : Alerting name m) (hf : ∀ b, Alerting name (f b)) :
    Alerting name (m >>= f) := by
  intro w _ w' hrun
  obtain ⟨b, w1, hrun1, hrun⟩ := ok_of_bind hrun
  exact (h w b w1 hrun1).trans (hf b w1 _ w' hrun)

theorem Alerting.forM {f : β → Walk PUnit} : ∀ {l : List β}, (∀ x ∈ l, Alerting name (f x)) →
    Alerting name (l.forM f)
  | [], _ => fun w _ w' hrun => by
    obtain rfl := (EStateM.Result.ok.inj hrun).2
    exact .refl _
  | x :: _, h => (h x (.head _)).bind fun _ =>
    .forM fun y hy => h y (.tail _ hy)

theorem committed_alerts {r : Routine} {i : Nat} (hv : r.scope.vars[i]? = some v) (types : TypeSet) :
    r.Alerts name (committed r i types v) := by
  have hnames := Routine.names_setVar r.scope.aliased hv (u := { v with types := v.types ∪ types }) rfl
  have hmerged : ∀ {j}, (v.types ∪ types = v.types ∨ i ≠ j) →
      (r.setVar i { v with types := v.types ∪ types } r.scope.aliased).merged j = r.merged j := by
    intro j hj
    unfold Routine.merged Routine.setVar
    rw [getElem?_set]
    split
    next heq =>
      subst heq
      rw [if_pos (lt_of_getElem? hv), hv, hj.resolve_right (not_not_intro rfl)]
    next => rfl
  unfold committed
  simp only
  split
  next hsame => exact ⟨hnames, rfl, fun _ hd => hd, .inl (hmerged (.inl hsame))⟩
  next hgrew =>
    split
    next block hsite =>
      refine ⟨hnames, rfl, fun _ hd => Agenda.mem_insert.2 (.inl (Agenda.mem_insert.2 (.inl hd))), ?_⟩
      by_cases hi : i = r.index name
      · refine .inr fun d hd => Agenda.mem_insert.2 (.inl (Agenda.mem_insert.2 (.inr ?_)))
        rw [hi] at hsite
        exact Option.mem_unique hd hsite
      · exact .inl (hmerged (.inr hi))
    next hsite =>
      refine ⟨hnames, rfl, fun _ hd => hd, ?_⟩
      by_cases hi : i = r.index name
      · refine .inr fun d hd => ?_
        rw [hi] at hsite
        cases hd.symm.trans hsite
      · exact .inl (hmerged (.inr hi))

theorem alerting_commit (s : State) : Alerting name (commit s) := by
  rw [commit_eq]
  refine .forM fun p _ w _ w' hrun => ?_
  rcases hv : w.routine.scope.vars[p.1]? with _ | v
  · obtain ⟨_, _, hget, hrun⟩ := ok_of_bind hrun
    obtain ⟨rfl, rfl⟩ := EStateM.Result.ok.inj hget
    obtain ⟨_, _, hadd, -⟩ := ok_of_bind hrun
    obtain ⟨scope, hadd, -⟩ := of_updateScope hadd
    obtain ⟨v, hget, -⟩ := Scope.addTypes_ok hadd
    cases hv.symm.trans hget
  · rw [commitOne_eq hv] at hrun
    obtain rfl := (EStateM.Result.ok.inj hrun).2
    exact committed_alerts hv _

theorem alerting_propagate (c : Setting) (yes no : State) : Alerting name (propagate c yes no) := by
  refine .bind (fun w _ w' hrun => ?_) fun r => .forM fun p _ w _ w' hrun => ?_
  · obtain rfl := (EStateM.Result.ok.inj hrun).2
    exact .refl _
  · obtain ⟨changed, r', hflow, rfl⟩ := of_flowInto hrun
    exact Routine.alerts_flowInto hflow

theorem alerting_depart (c : Setting) : ∀ way, Alerting name (depart c way)
  | .onward _ yes no => (Alerting.forM fun s _ => alerting_commit s).bind fun _ =>
    alerting_propagate c yes no
  | .back held _ => (alerting_commit held).bind fun _ _ _ _ hrun => by
    obtain rfl := (EStateM.Result.ok.inj hrun).2
    exact ⟨rfl, rfl, fun _ hd => hd, .inl rfl⟩

end Alerting

theorem exit_alerts (name : String) (hfree : g.Free) (hw : Sane g w) {ex : Exit Nat} (hexprs : ∀ e ∈ ex.exprs, Fits g e)
    (hnames : ∀ n ∈ ex.names, n ∈ g.names) (hrun : exit g.setting ex w = .ok () w') :
    w.routine.Alerts name w'.routine := by
  rw [exit_eq] at hrun
  obtain ⟨way, w1, hway, hrun⟩ := ok_of_bind hrun
  have hlearns := ((wayOut_runs hfree hw hexprs hnames).ok hway).2.1
  exact hlearns.alerts.trans (alerting_depart g.setting way w1 () w' hrun)

/-! ### Blocks -/

/-- The walker enters the block and goes through the operations `ops`; `u` is the walker then. -/
def After (c : Setting) (w : Walker) (ops : List (Op Nat)) (u : Walker) : Prop :=
  ∃ s, w.routine.input? c.block = some s ∧ (do setState s; ops.forM (op c) : Walk Unit) w = .ok () u

section Walks

variable {c : Setting} {blk : Block Nat}

theorem ops_append (c : Setting) (before after : List (Op Nat)) :
    (before ++ after).forM (op c) = (do before.forM (op c); after.forM (op c)) :=
  forM_append

variable (h : Walks c w w') (hblk : w.routine.graph.blocks[c.block]? = some blk)

include h hblk

theorem Walks.passes : ∃ w1, After c w blk.ops w1 ∧ exit c blk.exit w1 = .ok () w' := by
  obtain ⟨s, hs⟩ := Option.isSome_iff_exists.1 h.here
  have hrun := h.run
  rw [block_eq hs hblk, ← bind_assoc] at hrun
  obtain ⟨_, w1, hops, hexit⟩ := ok_of_bind hrun
  exact ⟨w1, ⟨s, hs, hops⟩, hexit⟩

theorem Walks.partway (name : String) {l : List (Op Nat)} (hl : ∀ o ∈ l, o ∈ blk.ops) {u : Walker}
    (hu : After c w l u) : Whole (Place.within c w.routine) u ∧
      w.routine.Awaits name c.block (∃ init, .static name init ∈ l) u.routine := by
  obtain ⟨s, hs, hrun⟩ := hu
  have henter : Whole (Place.within c w.routine) { w with state := s } := (h.before.whole h.here).enter hs
  have hawaits := ops_await name h.before.covers.free henter
    (fun o ho => h.before.covers.fits_op hblk (hl o ho)) hrun
  exact hawaits

theorem Walks.declared {w1 : Walker} (hops : After c w blk.ops w1) {before after : List (Op Nat)}
    {init : Option (Expr Nat)} (hsplit : blk.ops = before ++ .static name init :: after) :
    w1.routine.site? name = some c.block ∧ ∃ u, After c w (before ++ [.static name init]) u ∧
      w1.routine.merged (w.routine.index name) ⊆ u.state.get (w.routine.index name) := by
  have hmem : ∀ o, o ∈ before ∨ o = .static name init ∨ o ∈ after → o ∈ blk.ops := by
    intro o ho
    rw [hsplit]
    simpa using ho
  have hfits := fun o ho => h.before.covers.fits_op hblk (hmem o ho)
  have hfree := h.before.covers.free
  obtain ⟨s, hs, hrun⟩ := hops
  have henter : setState s w = .ok () { w with state := s } := rfl
  rw [hsplit, bind_of_ok henter, ops_append] at hrun
  obtain ⟨_, w2, hbefore, hrun⟩ := ok_of_bind hrun
  obtain ⟨_, u, hstatic, hafter⟩ := ok_of_bind hrun
  obtain ⟨hw2, hfirst⟩ := h.partway hblk name (fun o ho => hmem o (.inl ho)) ⟨s, hs, hbefore⟩
  obtain ⟨hexprs, hnames⟩ := hfits _ (.inr (.inl rfl))
  obtain ⟨hdeclares, hsite, hgives⟩ :=
    static_gives name hfree hw2 (hnames name (by simp [Op.names])) hexprs hstatic
  have hu := ((op_goes hfree hw2 hexprs hnames).ok hstatic).1
  have hrest := (ops_await name hfree hu (fun o ho => hfits o (.inr (.inr ho))) hafter).2
  refine ⟨?_, u, ⟨s, hs, ?_⟩, ?_⟩
  · rcases hrest.site with hsame | hsame
    · exact hsame.trans hsite
    · exact hsame.2
  · rw [bind_of_ok henter, ops_append, bind_of_ok hbefore]
    exact bind_of_ok hstatic
  · have hindex := Routine.index_congr hfirst.names name
    have hmerged := (hdeclares.trans (hrest.mono fun _ => rfl)).merged
    rw [hindex] at hgives hmerged
    rw [hmerged]
    exact hgives

theorem Walks.bypasses (hnot : name ∉ blk.declared) : w'.routine.site? name = w.routine.site? name ∧
      (w'.routine.merged (w.routine.index name) = w.routine.merged (w.routine.index name) ∨
        ∀ d, w.routine.site? name = some d → d ∈ w'.routine.pending.toList) := by
  obtain ⟨w1, hops, hexit⟩ := h.passes hblk
  obtain ⟨hw1, hawaits⟩ := h.partway hblk name (fun _ ho => ho) hops
  obtain ⟨hexprs, hnames⟩ := h.before.covers.fits_exit hblk
  have halerts := exit_alerts name h.before.covers.free hw1.toSane hexprs hnames hexit
  have hsite := hawaits.same_site (hnot ∘ Block.mem_declared.2)
  refine ⟨halerts.site.trans hsite, ?_⟩
  have hmerged := halerts.merged
  rw [hsite, Routine.index_congr hawaits.names] at hmerged
  exact hmerged.imp_left fun hsame => hsame.trans hawaits.merged

theorem Walks.declares (hdeclares : name ∈ blk.declared) :
    w'.routine.site? name = some c.block ∧ (c.block ∈ w'.routine.pending.toList ∨
      ∀ before init after, blk.ops = before ++ .static name init :: after →
        ∃ u, After c w (before ++ [.static name init]) u ∧
          w'.routine.merged (w.routine.index name) ⊆ u.state.get (w.routine.index name)) := by
  obtain ⟨w1, hops, hexit⟩ := h.passes hblk
  obtain ⟨hw1, hawaits⟩ := h.partway hblk name (fun _ ho => ho) hops
  obtain ⟨hexprs, hnames⟩ := h.before.covers.fits_exit hblk
  have halerts := exit_alerts name h.before.covers.free hw1.toSane hexprs hnames hexit
  obtain ⟨first, hfirst⟩ := Block.mem_declared.1 hdeclares
  obtain ⟨before, after, hsplit⟩ := append_of_mem hfirst
  have hsite := (h.declared hblk hops hsplit).1
  refine ⟨halerts.site.trans hsite, ?_⟩
  rcases halerts.merged with hsame | hqueued
  · refine .inr fun before init after hsplit => ?_
    obtain ⟨-, u, hu, hgives⟩ := h.declared hblk hops hsplit
    rw [Routine.index_congr hawaits.names] at hsame
    exact ⟨u, hu, hsame ▸ hgives⟩
  · exact .inl (hqueued _ hsite)

end Walks

end Infer

/-! ### At any time -/

namespace Routine

variable {r r' : Routine} {vs : List Visit} {blk' : Block Nat} {name : String}

/-- Of the visits `vs`, `visit` is the newest to a block that declares the variable. -/
structure LastDeclared (r : Routine) (name : String) (vs : List Visit) (visit : Visit) (blk : Block Nat) :
    Prop where
  block : r.graph.blocks[visit.block]? = some blk
  declares : name ∈ blk.declared
  newest : ∃ later earlier, vs = later ++ visit :: earlier ∧
    ∀ v ∈ later, ∀ k, r.graph.blocks[v.block]? = some k → name ∉ k.declared

/-- In the visit, each declaration of the variable has given that all it has throughout the routine. -/
def Supplied (r : Routine) (name : String) (visit : Visit) (blk : Block Nat) : Prop :=
  ∀ before init after, blk.ops = before ++ .static name init :: after →
    ∃ u, After visit.setting visit.start (before ++ [.static name init]) u ∧
      r.merged (r.index name) ⊆ u.state.get (r.index name)

/-- Where a static variable is declared: in a block that has been reached, unless that is queued; and
the newest visit has given it all, unless the block is queued. -/
structure Attended (r : Routine) (vs : List Visit) : Prop where
  sited : ∀ (name : String) (b : Nat) (blk : Block Nat), (r.input? b).isSome = true →
    r.graph.blocks[b]? = some blk → name ∈ blk.declared →
    b ∈ r.pending.toList ∨ (r.site? name).isSome = true
  visited : ∀ (name : String) (b : Nat), r.site? name = some b → ∃ visit blk,
    r.LastDeclared name vs visit blk ∧ visit.block = b ∧
      (b ∈ r.pending.toList ∨ r.Supplied name visit blk)

theorem attended_of_blank {n : Nat} (hinputs : r.inputs = Array.replicate n none) (hsites : r.sites = []) :
    r.Attended vs where
  sited _ b _ hb := by
    rw [input?_replicate hinputs b] at hb
    cases hb
  visited name b hb := by
    rw [site?, hsites] at hb
    cases hb

theorem Stands.attended (h : r.Stands r') (hr : r.Attended vs) : r'.Attended vs where
  sited name b blk hb hblk hdeclares := by
    have hsite : r'.site? name = r.site? name := by rw [site?, site?, h.sites, index, index, h.scope]
    rw [hsite]
    rcases h.inputs b with hsame | hpending
    · exact (hr.sited name b blk (hsame ▸ hb) (h.graph ▸ hblk) hdeclares).imp_left (h.pending b)
    · exact .inl hpending
  visited name b hb := by
    have hsite : r'.site? name = r.site? name := by rw [site?, site?, h.sites, index, index, h.scope]
    obtain ⟨visit, blk, hlast, hblock, hgiven⟩ := hr.visited name b (hsite ▸ hb)
    refine ⟨visit, blk, ⟨h.graph ▸ hlast.block, hlast.declares, h.graph ▸ hlast.newest⟩, hblock, ?_⟩
    refine hgiven.imp (h.pending b) fun hsupplied => ?_
    unfold Supplied merged index at *
    rw [h.scope]
    exact hsupplied

/-- What a visit does to the static variables of a routine. -/
structure Visited (r : Routine) (v : Visit) (blk : Block Nat) (r' : Routine) : Prop where
  block : r.graph.blocks[v.block]? = some blk
  graph : r'.graph = r.graph
  index : ∀ name, r'.index name = r.index name
  pending : ∀ d ∈ r.pending.toList, d ≠ v.block → d ∈ r'.pending.toList
  inputs : ∀ d, r'.input? d = r.input? d ∨ d ∈ r'.pending.toList
  declares : ∀ name ∈ blk.declared, r'.site? name = some v.block ∧
    (v.block ∈ r'.pending.toList ∨ r'.Supplied name v blk)
  bypasses : ∀ name ∉ blk.declared, r'.site? name = r.site? name ∧
    (r'.merged (r.index name) = r.merged (r.index name) ∨
      ∀ d, r.site? name = some d → d ∈ r'.pending.toList)

theorem visited_of_walk {v : Visit} {q : Agenda Nat} (hpop : r.pending.pop? = some (v.block, q))
    (hstart : v.start.routine = { r with status := .analyzing, pending := q })
    (hwalk : Walks v.setting v.start v.finish) : ∃ blk, r.Visited v blk v.finish.routine := by
  have hvalid := hwalk.before.routine
  have hgrows := hwalk.advances.toGrows
  obtain ⟨blk, hblk⟩ : ∃ blk, v.start.routine.graph.blocks[v.block]? = some blk :=
    ⟨_, getElem?_eq_getElem (hvalid.graph.reach_lt (hvalid.reach _ hwalk.here))⟩
  have hindex : ∀ name, v.start.routine.index name = r.index name := fun name => by
    rw [hstart]
    rfl
  refine ⟨blk, ⟨by rwa [hstart] at hblk, by rw [hgrows.graph, hstart], fun name => ?_, fun d hd hne => ?_,
    fun d => ?_, fun name hname => ?_, fun name hname => ?_⟩⟩
  · rw [index_congr hgrows.names, hindex]
  · refine hgrows.pending d ?_
    rw [(Agenda.pop?_spec hpop).1] at hd
    rw [hstart]
    exact (mem_cons.1 hd).resolve_left hne
  · have hchanged := hgrows.changed d
    rw [hstart] at hchanged
    exact hchanged
  · obtain ⟨hsite, hgiven⟩ := hwalk.declares hblk hname
    refine ⟨hsite, hgiven.imp_right fun hgiven => ?_⟩
    unfold Supplied
    rw [index_congr hgrows.names]
    exact hgiven
  · have hbypasses := hwalk.bypasses hblk hname
    rw [hstart] at hbypasses
    exact hbypasses

variable {v : Visit} {blk : Block Nat} {b : Nat}

theorem Visited.block_ne (h : r.Visited v blk r') (hnot : name ∉ blk.declared)
    (hblk' : r.graph.blocks[b]? = some blk') (hdeclares : name ∈ blk'.declared) : b ≠ v.block := by
  rintro rfl
  obtain rfl := Option.some.inj (hblk'.symm.trans h.block)
  exact hnot hdeclares

theorem Visited.sited (h : r.Visited v blk r') (hr : r.Attended vs)
    (hb : (r'.input? b).isSome = true) (hblk' : r'.graph.blocks[b]? = some blk')
    (hdeclares : name ∈ blk'.declared) : b ∈ r'.pending.toList ∨ (r'.site? name).isSome = true := by
  rw [h.graph] at hblk'
  by_cases hname : name ∈ blk.declared
  · rw [(h.declares name hname).1]
    exact .inr rfl
  · rw [(h.bypasses name hname).1]
    rcases h.inputs b with hsame | hqueued
    · refine (hr.sited name b blk' (hsame ▸ hb) hblk' hdeclares).imp_left fun hd => ?_
      exact h.pending b hd (h.block_ne hname hblk' hdeclares)
    · exact .inl hqueued

theorem Visited.lastDeclared (h : r.Visited v blk r') (hnot : name ∉ blk.declared) {visit : Visit}
    (hlast : r.LastDeclared name vs visit blk') : r'.LastDeclared name (v :: vs) visit blk' := by
  obtain ⟨later, earlier, hvs, hlater⟩ := hlast.newest
  refine ⟨h.graph ▸ hlast.block, hlast.declares, v :: later, earlier, by rw [hvs]; rfl, ?_⟩
  rw [h.graph]
  intro v' hv' k hk
  rcases mem_cons.1 hv' with rfl | hv'
  · obtain rfl := Option.some.inj (h.block.symm.trans hk)
    exact hnot
  · exact hlater v' hv' k hk

theorem Visited.attended (h : r.Visited v blk r') (hr : r.Attended vs) : r'.Attended (v :: vs) := by
  refine ⟨fun name b blk' hb hblk' hdeclares => h.sited hr hb hblk' hdeclares, fun name b hb => ?_⟩
  by_cases hname : name ∈ blk.declared
  · obtain ⟨hsite, hgiven⟩ := h.declares name hname
    obtain rfl := Option.mem_unique hsite hb
    exact ⟨v, blk, ⟨h.graph ▸ h.block, hname, [], vs, rfl, by simp⟩, rfl, hgiven⟩
  · obtain ⟨hsite, hmerged⟩ := h.bypasses name hname
    rw [hsite] at hb
    obtain ⟨visit, blk', hlast, rfl, hgiven⟩ := hr.visited name b hb
    refine ⟨visit, blk', h.lastDeclared hname hlast, rfl, ?_⟩
    rcases hgiven with hqueued | hsupplied
    · exact .inl (h.pending _ hqueued (h.block_ne hname hlast.block hlast.declares))
    rcases hmerged with hsame | hqueued
    · refine .inr fun before init after hsplit => ?_
      obtain ⟨u, hu, hgives⟩ := hsupplied before init after hsplit
      rw [h.index, hsame]
      exact ⟨u, hu, hgives⟩
    · exact .inl (hqueued _ hb)

end Routine

theorem Logged.attended {log : List Visit} {m : Mid} (h : Logged log m) {i : Nat} {r : Routine}
    (hr : m.program.routines[i]? = some r) : r.Attended (visitsTo log i) := by
  refine h.invariant (I := fun _ vs r => r.Attended vs) (fun m vs i r _ hfresh => ?_)
    (fun m m' vs i r r' hm hr _ hstirs hold => ?_)
    (fun m m' vs v r q _ _ hpop hstart _ hwalk hold => ?_) (fun _ _ _ _ _ _ _ _ _ _ hold => hold) i r hr
  · cases hfresh
    exact Routine.attended_of_blank rfl rfl
  · rcases hstirs.stands hm.kept hr with hstands | ⟨observed, rfl⟩
    · exact hstands.attended hold
    · exact Routine.attended_of_blank (n := r.graph.size) rfl rfl
  · obtain ⟨blk, hvisited⟩ := Routine.visited_of_walk hpop hstart hwalk
    exact hvisited.attended hold

/-- **Static variables see every type they are given**, in the block where they have been declared
last.  After a run that has converged, consider a variable that some block that has been reached
declares static, and the newest visit to a block that does: each declaration there has given the
variable every shape that it has throughout the routine. -/
theorem Program.History.static_covered {p p' : Program} (h : p.History) {plan : Plan}
    (hextra : ∀ s ∈ plan.extra, s.Sound) {n : Nat} (hrun : p.analyze plan = .ok (.converged n) p')
    {i b : Nat} {r : Routine} (hr : p'.routines[i]? = some r) (hb : (r.input? b).isSome = true)
    {blk : Block Nat} (hblk : r.graph.blocks[b]? = some blk) {name : String}
    (hdeclares : name ∈ blk.declared) :
    ∃ types, r.varTypes? name = some types ∧ (∃ log, Logged log (.of p')) ∧
      ∀ log, Logged log (.of p') → ∃ visit blk', r.LastDeclared name (visitsTo log i) visit blk' ∧
        ∀ before init after, blk'.ops = before ++ .static name init :: after →
          ∃ u, After visit.setting visit.start (before ++ [.static name init]) u ∧
            types ⊆ u.state.get (r.index name) := by
  obtain ⟨hcont, hquiet⟩ := analyze_ok h.sound hextra hrun
  have hmem := List.mem_of_getElem? hr
  have hnone : r.pending.toList = [] := hquiet rfl r hmem
  obtain ⟨first, hfirst⟩ := Block.mem_declared.1 hdeclares
  have hname : name ∈ r.scope.names :=
    (((hcont.sound h.sound).routines r hmem).suits hblk).ops _ hfirst name (by simp [Op.names])
  refine ⟨_, Routine.varTypes?_eq hname, Moves.logged (h.moves.trans (hcont.moves h.sound)), fun log hlog => ?_⟩
  have hattended := hlog.attended hr
  obtain ⟨site, hsite⟩ : ∃ site, r.site? name = some site := by
    rcases hattended.sited name b blk hb hblk hdeclares with hpending | hsite
    · rw [hnone] at hpending
      cases hpending
    · exact Option.isSome_iff_exists.1 hsite
  obtain ⟨visit, blk', hlast, -, hgiven⟩ := hattended.visited name site hsite
  refine ⟨visit, blk', hlast, hgiven.resolve_left fun hpending => ?_⟩
  rw [hnone] at hpending
  cases hpending

namespace Program

/-- `f` declares `n` in two blocks, and gives it an integer in a third. -/
def twiceDeclared : List RoutineDecl :=
  [{ name := "f"
     body := [.branch (.var () "c")
         [.static "n" none, .eval (.assign () (.var () "t") (.var () "n"))]
         [.static "n" none],
       .eval (.assign () (.var () "n") (.lit () .int))] }]

/-- The block that declares `n` first does not see the integer; the one that declares it last does. -/
theorem twiceDeclared_covered : ∃ n p' r blk types,
    (ofDecls twiceDeclared).analyze {} = .ok (.converged n) p' ∧ p'.routines[0]? = some r ∧
    (r.input? 1).isSome = true ∧ r.graph.blocks[1]? = some blk ∧ "n" ∈ blk.declared ∧
    r.exprTypes 3 = .null ∧ .int ⊆ types ∧ r.varTypes? "n" = some types ∧
    (∃ log, Logged log (.of p')) ∧
    ∀ log, Logged log (.of p') → ∃ visit blk', r.LastDeclared "n" (visitsTo log 0) visit blk' ∧
      ∀ before init after, blk'.ops = before ++ .static "n" init :: after →
        ∃ u, After visit.setting visit.start (before ++ [.static "n" init]) u ∧
          types ⊆ u.state.get (r.index "n") := by
  obtain ⟨n, p', hrun, hgood⟩ := exists_converged (ofDecls twiceDeclared) {}
    (fun p' => p'.routines[0]?.any fun r => (r.input? 1).isSome &&
      (r.graph.blocks[1]?.any fun blk => blk.declared.contains "n") &&
      r.exprTypes 3 == .null && r.varTypes? "n" == some (TypeSet.int ∪ .null).withRef)
    (by decide +kernel)
  simp only [Option.any_eq_true, Bool.and_eq_true, beq_iff_eq, List.contains_iff_mem] at hgood
  obtain ⟨r, hr, ⟨⟨hb, blk, hblk, hdeclares⟩, hseen⟩, htypes⟩ := hgood
  obtain ⟨types', htypes', hlog, hall⟩ :=
    (history_ofDecls twiceDeclared).static_covered (by simp) hrun hr hb hblk hdeclares
  obtain rfl := Option.some.inj (htypes.symm.trans htypes')
  exact ⟨n, p', r, blk, _, hrun, hr, hb, hblk, hdeclares, hseen, by decide, htypes, hlog, hall⟩

end Program

end ShapeFlow
