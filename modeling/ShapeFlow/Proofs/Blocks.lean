/-
# What going through a block keeps

A walk through a block keeps the walker sane and whole: everything the routine
holds stays known, and every block it mentions has been reached.  Inputs,
returned types and the types of variables only grow; a block whose input grows
is queued, and the room of the routine does not grow.  When the walk is over,
every successor of the block has been reached and every call in it is bound.

Key definitions: `Routine.Grows`, `Whole`, `Advances`, `Goes`, `Place.Covers`.
Key theorems: `commit_goes`, `propagate_taken`, `op_goes`, `exit_goes`, `block_goes`.
-/
import ShapeFlow.Proofs.Inputs
import ShapeFlow.Proofs.Meanings

namespace ShapeFlow

open ShapeFlow.Flow List TypeSet

/-! ### What grows in a routine -/

namespace Routine

/-- What an analysis of the routine lets grow; the rest stays. -/
structure Grows (r r' : Routine) : Prop where
  frame : r' = { r with
    facts := r'.facts, flags := r'.flags, scope := r'.scope
    inputs := r'.inputs, sites := r'.sites, pending := r'.pending }
  scope : r'.scope.id = r.scope.id
  names : r'.scope.names = r.scope.names
  inputs : ∀ b s, r.input? b = some s → ∃ s', r'.input? b = some s' ∧ s ≤ s'
  /-- A block whose input changed is queued. -/
  changed : ∀ b, r'.input? b = r.input? b ∨ b ∈ r'.pending.toList
  pending : ∀ b ∈ r.pending.toList, b ∈ r'.pending.toList
  /-- Only blocks that have been reached are queued. -/
  queued : ∀ b ∈ r'.pending.toList, b ∈ r.pending.toList ∨ (r'.input? b).isSome = true
  returns : r.scope.returns ≤ r'.scope.returns
  room : r'.room ≤ r.room

variable {r r' r'' : Routine} {b : Nat}

theorem Grows.refl (r : Routine) : Grows r r where
  frame := rfl
  scope := rfl
  names := rfl
  inputs _ s hs := ⟨s, hs, State.le_refl s⟩
  changed _ := .inl rfl
  pending _ hb := hb
  queued _ hb := .inl hb
  returns := le_refl _
  room := Nat.le_refl _

theorem Grows.trans (h : Grows r r') (h' : Grows r' r'') : Grows r r'' where
  frame := by rw [h'.frame, h.frame]
  scope := h'.scope.trans h.scope
  names := h'.names.trans h.names
  inputs b s hs := by
    obtain ⟨s1, hs1, hle1⟩ := h.inputs b s hs
    obtain ⟨s2, hs2, hle2⟩ := h'.inputs b s1 hs1
    exact ⟨s2, hs2, State.le_trans hle1 hle2⟩
  changed b := by
    rcases h'.changed b with h2 | h2
    · rcases h.changed b with h1 | h1
      · exact .inl (h2.trans h1)
      · exact .inr (h'.pending b h1)
    · exact .inr h2
  pending b hb := h'.pending b (h.pending b hb)
  queued b hb := by
    rcases h'.queued b hb with hb | hb
    · refine (h.queued b hb).imp_right fun hb => ?_
      obtain ⟨s, hs⟩ := Option.isSome_iff_exists.1 hb
      obtain ⟨s', hs', -⟩ := h'.inputs b s hs
      rw [hs']
      rfl
    · exact .inr hb
  returns := le_trans h.returns h'.returns
  room := Nat.le_trans h'.room h.room

theorem Grows.reached (h : Grows r r') (hb : (r.input? b).isSome = true) :
    (r'.input? b).isSome = true := by
  obtain ⟨s, hs⟩ := Option.isSome_iff_exists.1 hb
  obtain ⟨s', hs', -⟩ := h.inputs b s hs
  rw [hs']
  rfl

theorem Grows.graph (h : Grows r r') : r'.graph = r.graph := by
  rw [h.frame]

theorem Flows.grows {s : State} (h : Flows r r' b s) : Grows r r' where
  frame := by rw [h.frame]
  scope := by rw [h.frame]
  names := by rw [h.frame]
  inputs b' s' hs' := by
    by_cases hb : b' = b
    · obtain ⟨s'', hs'', -, hle⟩ := h.input
      exact ⟨s'', hb ▸ hs'', hle s' (hb ▸ hs')⟩
    · exact ⟨s', (h.others b' hb).trans hs', State.le_refl s'⟩
  changed b' := by
    by_cases hb : b' = b
    · exact hb ▸ h.changed
    · exact .inl (h.others b' hb)
  pending := h.pending
  queued b' hb' := by
    refine (h.queued b' hb').imp_right fun hb => ?_
    obtain ⟨s', hs', -⟩ := h.input
    rw [hb, hs']
    rfl
  returns := by
    rw [h.frame]
    exact le_refl _
  room := h.room

/-! ### Variables that grow -/

/-- The routine with `v` as variable `i`. -/
def setVar (r : Routine) (i : Nat) (v : Variable) (aliased : VarSet) : Routine :=
  { r with scope := { r.scope with vars := r.scope.vars.set i v, aliased } }

section setVar

variable {i : Nat} {v u : Variable} (aliased : VarSet)

theorem room_setVar (hv : r.scope.vars[i]? = some v) :
    (r.setVar i u aliased).room + 2 * varRoom v = r.room + 2 * varRoom u := by
  have hsum := sum_map_set (f := varRoom) (b := u) hv
  have hsize : (r.setVar i u aliased).scope.size = r.scope.size := length_set
  unfold room
  rw [hsize]
  show r.pending.size + ∑ b ∈ Finset.range r.graph.size, inputRoom r.scope.size (r.input? b) +
    2 * ((r.scope.vars.set i u).map varRoom).sum + _ = _
  omega

theorem room_queue (r : Routine) (b : Nat) : (r.queue b).room ≤ r.room + 1 := by
  have hsize := Agenda.size_insert_le r.pending b
  show (r.pending.insert b).size + ∑ b ∈ Finset.range r.graph.size,
    inputRoom r.scope.size (r.input? b) + 2 * (r.scope.vars.map varRoom).sum ≤ _
  unfold room
  omega

theorem names_setVar (hv : r.scope.vars[i]? = some v) (hname : u.name = v.name) :
    (r.setVar i u aliased).scope.names = r.scope.names := Scope.names_set hv hname

theorem Held.setVar {t : ShapeTable} (h : Held t r)
    (hknown : t.Knows u.types ∧ ∀ k ∈ u.kept, t.Knows k) : Held t (r.setVar i u aliased) :=
  { h with
    fits := fun b s hs => by
      rw [show (r.setVar i u aliased).scope.size = r.scope.size from length_set]
      exact h.fits b s hs
    vars := fun x hx => by
      rcases mem_or_eq_of_mem_set hx with hx | rfl
      · exact h.vars x hx
      · exact hknown }

/-- Growth of a variable pays for two blocks. -/
theorem grows_setVar_queue (hv : r.scope.vars[i]? = some v) (hname : u.name = v.name)
    (hroom : varRoom u < varRoom v) {b c : Nat} (hb : (r.input? b).isSome = true)
    (hc : (r.input? c).isSome = true) :
    Grows r (((r.setVar i u aliased).queue b).queue c) where
  frame := rfl
  scope := rfl
  names := names_setVar aliased hv hname
  inputs _ s hs := ⟨s, hs, State.le_refl s⟩
  changed _ := .inl rfl
  pending _ hb := Agenda.mem_insert.2 (.inl (Agenda.mem_insert.2 (.inl hb)))
  queued d hd := by
    rcases Agenda.mem_insert.1 hd with hd | rfl
    · rcases Agenda.mem_insert.1 hd with hd | rfl
      · exact .inl hd
      · exact .inr hb
    · exact .inr hc
  returns := le_refl _
  room := by
    have h1 := room_queue ((r.setVar i u aliased).queue b) c
    have h2 := room_queue (r.setVar i u aliased) b
    have h3 := room_setVar aliased (u := u) hv
    omega

theorem grows_setVar (hv : r.scope.vars[i]? = some v) (hname : u.name = v.name)
    (hroom : varRoom u ≤ varRoom v) : Grows r (r.setVar i u aliased) where
  frame := rfl
  scope := rfl
  names := names_setVar aliased hv hname
  inputs _ s hs := ⟨s, hs, State.le_refl s⟩
  changed _ := .inl rfl
  pending _ hb := hb
  queued _ hb := .inl hb
  returns := le_refl _
  room := by
    have h := room_setVar aliased (u := u) hv
    omega

end setVar

end Routine

namespace Infer

variable {k : Block Nat} {e : Expr Nat} {i : Nat} {o : Op Nat} {r : Routine} {t : ShapeTable}
  {s yes no : State} {β : Type} {v : Variable}

/-! ### Whole walkers -/

/-- A sane walker in a reached block of a routine that holds nothing unknown. -/
structure Whole (g : Place) (w : Walker) : Prop extends Sane g w where
  graph : w.routine.graph.Sound
  held : Routine.Held w.table w.routine
  here : (w.routine.input? g.setting.block).isSome = true

/-- How a walk through a block changes things. -/
structure Advances (g : Place) (w w' : Walker) : Prop
    extends Notes g w w', Routine.Grows w.routine w'.routine

variable {g : Place} {w w' w'' : Walker} {types : TypeSet} {graph : Graph Nat}

theorem Advances.refl (g : Place) (w : Walker) : Advances g w w :=
  { Notes.refl g w, Routine.Grows.refl w.routine with }

theorem Advances.trans (h : Advances g w w') (h' : Advances g w' w'') : Advances g w w'' :=
  { h.toNotes.trans h'.toNotes, h.toGrows.trans h'.toGrows with }

theorem Advances.loose (h : Advances g w w') : Advances g.loose w w' :=
  { h with targets := fun _ hk => absurd trivial hk }

theorem Learns.input? (h : Learns g w w') (b : Nat) : w'.routine.input? b = w.routine.input? b := by
  rw [h.frame]
  rfl

theorem Learns.room (h : Learns g w w') : w'.routine.room = w.routine.room := by
  rw [h.frame]
  rfl

theorem Learns.advances (h : Learns g w w') : Advances g w w' :=
  { h with
    frame := by rw [h.frame]
    scope := by rw [h.frame]
    names := by
      rw [h.frame]
      rfl
    inputs := fun b s hs => ⟨s, (h.input? b).trans hs, State.le_refl s⟩
    changed := fun b => .inl (h.input? b)
    pending := fun b hb => by
      rw [h.frame]
      exact hb
    queued := fun b hb => by
      rw [h.frame] at hb
      exact .inl hb
    returns := by
      rw [h.frame]
      exact le_refl _
    room := h.room.le }

theorem Whole.learn (hw : Whole g w) (hs : Sane g w') (h : Learns g w w') : Whole g w' :=
  { hs with
    graph := by
      rw [h.frame]
      exact hw.graph
    held := by
      have hheld := hw.held.mono h.table
      rw [h.frame]
      exact { hheld with }
    here := by
      rw [h.input?]
      exact hw.here }

/-! ### Steps through a block -/

/-- The step keeps the walker whole and advances; its result is as `R` says.  It may
fail only if the resolver picks a routine that does not exist. -/
def Goes {β : Type} (g : Place) (m : Walk β) (w : Walker) (R : β → Walker → Prop) : Prop :=
  Ends (fun f w' => ¬ g.setting.resolver.Within g.routines ∧
      (∃ name id, f = .unknownCallee name id) ∧ Whole g w' ∧ Advances g.loose w w')
    m w fun b w' => Whole g w' ∧ Advances g w w' ∧ R b w'

theorem Runs.goes {m : Walk β} {R : β → Walker → Prop} (h : Runs g m w R) (hw : Whole g w) :
    Goes g m w R := by
  refine .mono h (fun b w' hb => ?_) fun f w' he => ?_
  · exact ⟨hw.learn hb.1 hb.2.1, hb.2.1.advances, hb.2.2⟩
  · have hlearn : Learns g.loose w w' := he.2.2.2
    have hw' : Whole g.loose w' :=
      Whole.learn (g := g.loose) { hw with } { he.2.2.1 with } hlearn
    exact ⟨he.1, he.2.1, { hw' with }, hlearn.advances⟩

section Goes

variable {β γ : Type} {R : β → Walker → Prop} {m : Walk β}

theorem Goes.bind {f : β → Walk γ} {R' : γ → Walker → Prop} (h : Goes g m w R)
    (hf : ∀ b w', Whole g w' → Advances g w w' → R b w' → Goes g (f b) w' R') :
    Goes g (m >>= f) w R' := by
  refine Ends.andThen h fun b w' hb => ?_
  obtain ⟨hwhole, hadv, hR⟩ := hb
  refine .mono (hf b w' hwhole hadv hR) (fun c w'' hc => ?_) fun e w'' he => ?_
  · exact ⟨hc.1, hadv.trans hc.2.1, hc.2.2⟩
  · exact ⟨he.1, he.2.1, he.2.2.1, hadv.loose.trans he.2.2.2⟩

theorem Goes.mono {R' : β → Walker → Prop} (h : Goes g m w R)
    (hR : ∀ b w', Whole g w' → Advances g w w' → R b w' → R' b w') : Goes g m w R' :=
  Ends.imp h fun b w' hb => ⟨hb.1, hb.2.1, hR b w' hb.1 hb.2.1 hb.2.2⟩

theorem Goes.pure (hw : Whole g w) {b : β} (hR : R b w) :
    Goes g (pure b : Walk β) w R := ⟨hw, .refl g w, hR⟩

theorem Goes.forM {P : β → Walker → Prop} {f : β → Walk PUnit} :
    ∀ {l : List β} {w : Walker}, Whole g w →
      (∀ x ∈ l, ∀ w1 w2, Advances g w1 w2 → P x w1 → P x w2) →
      (∀ x ∈ l, ∀ w', Whole g w' → Advances g w w' → Goes g (f x) w' fun _ w'' => P x w'') →
      Goes g (l.forM f) w fun _ w' => ∀ x ∈ l, P x w'
  | [], _, hw, _, _ => .pure hw (by simp)
  | x :: l, w, hw, hP, hf => by
    refine (hf x (.head _) w hw (.refl g w)).bind fun _ w1 hw1 ha1 hx => ?_
    refine (Goes.forM hw1 (fun y hy => hP y (mem_cons_of_mem x hy))
      fun y hy w' hw' ha' => hf y (mem_cons_of_mem x hy) w' hw' (ha1.trans ha')).mono
      fun _ w2 _ ha2 hl => ?_
    intro y hy
    rcases mem_cons.1 hy with rfl | hy
    · exact hP y mem_cons_self w1 w2 ha2 hx
    · exact hl y hy

end Goes

theorem AllBound.advance (hfree : g.Free) (h : AllBound g w e) (ha : Advances g w w') :
    AllBound g w' e :=
  fun x hx k name args hcall => ha.bound (hfree k) (h x hx k name args hcall)

/-! ### Changing the routine -/

theorem Whole.change (hw : Whole g w) (h : w.routine.Grows r) (hfacts : r.facts = w.routine.facts)
    (hheld : Routine.Held w.table r) : Whole g { w with routine := r } :=
  { hw with
    id := (show r.id = w.routine.id by rw [h.frame]).trans hw.id
    scope := h.scope.trans hw.scope
    names := h.names.trans hw.names
    tags := fun k hk => by
      rw [hfacts]
      exact hw.tags k hk
    facts := fun k f hf => by
      rw [hfacts] at hf
      exact hw.facts k f hf
    graph := h.graph ▸ hw.graph
    held := hheld
    here := h.reached hw.here }

theorem advances_change (h : w.routine.Grows r) (hfacts : r.facts = w.routine.facts) :
    Advances g w { w with routine := r } :=
  { Notes.refl g w, h with
    size := by rw [hfacts]
    others := fun k _ => by rw [hfacts]
    types := fun k => by
      rw [Routine.exprTypes, Routine.exprTypes, hfacts]
      exact le_refl _
    targets := fun k _ => .inl (by rw [Routine.target?, Routine.target?, hfacts]) }

theorem Whole.goes_change {m : Walk Unit} (hw : Whole g w)
    (hm : m w = .ok () { w with routine := r }) (h : w.routine.Grows r)
    (hfacts : r.facts = w.routine.facts) (hheld : Routine.Held w.table r) :
    Goes g m w fun _ w' => w' = { w with routine := r } :=
  .of_ok hm ⟨hw.change h hfacts hheld, advances_change h hfacts, rfl⟩

theorem Sane.size_eq (hw : Sane g w) : w.routine.scope.size = g.vars := by
  rw [← Scope.length_names, hw.names]
  rfl

theorem Whole.exists_var (hw : Whole g w) (hi : i < g.vars) :
    ∃ v, w.routine.scope.vars[i]? = some v ∧ v ∈ w.routine.scope.vars := by
  have hlt : i < w.routine.scope.vars.length := by
    have := hw.size_eq
    unfold Scope.size at this
    omega
  exact ⟨_, getElem?_eq_getElem hlt, getElem_mem hlt⟩

theorem Whole.entry (hw : Whole g w) : (w.routine.input? Graph.entry).isSome = true :=
  hw.held.entry _ hw.here

theorem updateScope_eq {f : Scope → Except Fault (β × Scope)} {b : β} {scope : Scope}
    (h : f w.routine.scope = .ok (b, scope)) :
    updateScope f w = .ok b { w with routine := { w.routine with scope } } := by
  show (ofExcept (f w.routine.scope) >>= fun p => _ : Walk β) w = _
  rw [h]
  rfl

theorem varRoom_types_lt {t : TypeSet} (h : v.types ∪ t ≠ v.types) :
    Routine.varRoom { v with types := v.types ∪ t } < Routine.varRoom v := by
  have hlt := weight_lt_union h
  have hle := weight_le (v.types ∪ t)
  unfold Routine.varRoom
  simp only
  omega

/-- `commit` for one variable. -/
def commitOne (var : Nat) (types : TypeSet) : Walk Unit := do
  let r ← getRoutine
  let types := if r.scope.isAliased var then types.withRef else types
  if ← updateScope (·.addTypes var types) then
    if let some block := r.sites.lookup var then
      queue block
      queue Graph.entry

theorem commit_eq (s : State) : commit s = s.entries.forM fun p => commitOne p.1 p.2 := rfl

/-- The routine after `types` have been added to those of variable `i`, which was `v`. -/
def committed (r : Routine) (i : Nat) (types : TypeSet) (v : Variable) : Routine :=
  let r' := r.setVar i { v with types := v.types ∪ types } r.scope.aliased
  if v.types ∪ types = v.types then r'
  else match r.sites.lookup i with
    | some block => (r'.queue block).queue Graph.entry
    | none => r'

theorem commitOne_eq (hv : w.routine.scope.vars[i]? = some v) (types : TypeSet) :
    commitOne i types w = .ok () { w with
      routine := committed w.routine i
        (if w.routine.scope.isAliased i then types.withRef else types) v } := by
  unfold commitOne committed
  rw [getRoutine_bind]
  simp only
  generalize (if w.routine.scope.isAliased i then types.withRef else types) = all
  have hadd : w.routine.scope.addTypes i all = .ok (v.types ∪ all != v.types,
      { w.routine.scope with
        vars := w.routine.scope.vars.set i { v with types := v.types ∪ all } }) := by
    rw [Scope.addTypes, Scope.get, hv]
    rfl
  rw [bind_of_ok (updateScope_eq hadd)]
  by_cases hgrew : v.types ∪ all = v.types
  · rw [if_pos hgrew, if_neg (by simp [hgrew])]
    rfl
  · rw [if_neg hgrew, if_pos (by simp [hgrew])]
    rcases w.routine.sites.lookup i with _ | block <;> rfl

theorem reached_site (h : Routine.Held t r) {block : Nat} (hsite : r.sites.lookup i = some block) :
    (r.input? block).isSome = true := by
  obtain ⟨l1, l2, hsites, -⟩ := lookup_eq_some_iff.1 hsite
  exact h.sites (i, block) (hsites ▸ mem_append_right _ (.head _))

theorem committed_grows (h : Routine.Held t r) (hentry : (r.input? Graph.entry).isSome = true)
    (hv : r.scope.vars[i]? = some v) (types : TypeSet) : r.Grows (committed r i types v) := by
  unfold committed
  simp only
  split
  next hsame => exact Routine.grows_setVar _ hv rfl (by rw [hsame])
  next hgrew =>
    have hroom := varRoom_types_lt hgrew
    split
    next block hsite =>
      exact Routine.grows_setVar_queue _ hv (by rfl) hroom (reached_site h hsite) hentry
    · exact Routine.grows_setVar _ hv (by rfl) hroom.le

theorem committed_held (h : Routine.Held t r) (hv : v ∈ r.scope.vars) (htypes : t.Knows types)
    (i : Nat) : Routine.Held t (committed r i types v) := by
  have hset := h.setVar (i := i) r.scope.aliased (u := { v with types := v.types ∪ types })
    ⟨(h.vars v hv).1.union htypes, (h.vars v hv).2⟩
  unfold committed
  simp only
  split
  · exact hset
  · split
    · exact (hset.queue _).queue _
    · exact hset

theorem facts_committed (r : Routine) (i : Nat) (types : TypeSet) (v : Variable) :
    (committed r i types v).facts = r.facts := by
  unfold committed
  simp only
  split
  · rfl
  · split <;> rfl

theorem commitOne_goes (hw : Whole g w) (hi : i < g.vars) (htypes : w.table.Knows types) :
    Goes g (commitOne i types) w fun _ w' => w'.state = w.state ∧ w'.table = w.table := by
  obtain ⟨v, hv, hmem⟩ := hw.exists_var hi
  refine (hw.goes_change (commitOne_eq hv types) (committed_grows hw.held hw.entry hv _)
    (facts_committed ..) (committed_held hw.held hmem (htypes.withRef.ite htypes) i)).mono ?_
  rintro _ w' _ _ rfl
  exact ⟨rfl, rfl⟩

theorem mem_entries {p : Nat × TypeSet} (h : p ∈ s.entries) :
    p.1 < s.slots.length ∧ p.2 ∈ s.slots := by
  obtain ⟨⟨t, i⟩, hmem, heq⟩ := mem_filterMap.1 h
  have hget := mem_zipIdx_iff_getElem?.1 hmem
  simp only at heq hget
  split at heq
  · cases heq
  · cases heq
    exact ⟨(lt_of_getElem? hget), mem_of_getElem? hget⟩

theorem commitAll_goes : ∀ {l : List (Nat × TypeSet)} {w : Walker}, Whole g w →
    (∀ p ∈ l, p.1 < g.vars ∧ w.table.Knows p.2) →
    Goes g (l.forM fun p => commitOne p.1 p.2) w fun _ w' => w'.state = w.state ∧ w'.table = w.table
  | [], _, hw, _ => .pure hw ⟨rfl, rfl⟩
  | p :: l, w, hw, hl => by
    have hp := hl p (.head _)
    refine (commitOne_goes hw hp.1 hp.2).bind fun _ w1 hw1 _ h1 => ?_
    refine (commitAll_goes hw1 fun q hq => ?_).mono fun _ w2 _ _ h2 => ?_
    · rw [h1.2]
      exact hl q (.tail _ hq)
    · exact ⟨h2.1.trans h1.1, h2.2.trans h1.2⟩

theorem commit_goes (hw : Whole g w) (hfits : State.Fits g.routine g.vars s)
    (hknown : State.Known w.table s) :
    Goes g (commit s) w fun _ w' => w'.state = w.state ∧ w'.table = w.table := by
  rw [commit_eq]
  refine commitAll_goes hw fun p hp => ?_
  obtain ⟨hlt, hmem⟩ := mem_entries hp
  exact ⟨hfits.size ▸ hlt, hknown p.2 hmem⟩

/-! ### States handed on -/

theorem flowInto_goes (hw : Whole g w) {b : Nat} (hb : w.routine.graph.Reach b)
    (hfits : State.Fits g.routine g.vars s) (hknown : State.Known w.table s) :
    Goes g (flowInto b s) w fun _ w' => ∃ s', w'.routine.input? b = some s' ∧ s ≤ s' := by
  have hfits' : State.Fits w.routine.id w.routine.scope.size s := by
    rw [hw.id, hw.size_eq]
    exact hfits
  obtain ⟨c, r, hrun, hheld, hflows⟩ :=
    Routine.flowInto_spec hw.held hw.table hw.graph hb (.inr hw.entry) hfits' hknown
  refine (hw.goes_change (r := r) ?_ hflows.grows ?_ hheld).mono ?_
  · rw [flowInto, getRoutine_bind, hrun]
    rfl
  · rw [hflows.frame]
  · rintro _ w' _ _ rfl
    obtain ⟨s', hs', hle, -⟩ := hflows.input
    exact ⟨s', hs', hle⟩

/-- The successors take in what is handed on to them. -/
theorem propagate_taken (hw : Whole g w) (hyes : State.Fits g.routine g.vars yes)
    (hyesKnown : State.Known w.table yes) (hno : State.Fits g.routine g.vars no)
    (hnoKnown : State.Known w.table no) :
    Goes g (propagate g.setting yes no) w fun _ w' =>
      ∀ p ∈ w.routine.graph.succs g.setting.block, ∃ s, w'.routine.input? p.1 = some s ∧
        (if p.2 = .onFalse then no else yes) ≤ s := by
  have hreach := hw.held.reach _ hw.here
  rw [propagate]
  refine .forM (P := fun (p : Nat × Label) w' => ∃ s, w'.routine.input? p.1 = some s ∧
    (if p.2 = .onFalse then no else yes) ≤ s) hw (fun p _ w1 w2 ha hp => ?_) fun p hp w1 hw1 ha1 => ?_
  · obtain ⟨s, hs, hle⟩ := hp
    obtain ⟨s', hs', hle'⟩ := ha.inputs p.1 s hs
    exact ⟨s', hs', State.le_trans hle hle'⟩
  have hp : w1.routine.graph.Reach p.1 := ha1.graph ▸ hreach.step hp
  refine flowInto_goes hw1 hp ?_ ?_
  · split
    · exact hno
    · exact hyes
  · split
    · exact hnoKnown.mono ha1.table
    · exact hyesKnown.mono ha1.table

/-! ### The rules, step by step -/

/-- The value of an expression, or null if there is none. -/
def optValue (c : Setting) : Option (Expr Nat) → Walk TypeSet
  | some e => (e.meaning c).value
  | none => pure .null

/-- Adds to what a static variable keeps. -/
def keep (c : Setting) (var : Nat) (types : TypeSet) : Walk Unit := do
  if ← updateScope (·.addKept var types) then
    queue Graph.entry
    queue c.block

theorem ite_bind {γ : Type} (p : Prop) [Decidable p] (a b : Walk β) (f : β → Walk γ) :
    (if p then a else b) >>= f = if p then a >>= f else b >>= f := by
  split <;> rfl

theorem op_static (c : Setting) (name : String) (init : Option (Expr Nat)) :
    op c (.static name init) = (do
      addFlags { statics := true }
      let var ← useVar name
      let first ← optValue c init
      modifyRoutine fun r => { r with sites := (var, c.block) :: r.sites.filter (·.1 != var) }
      let r ← getRoutine
      let held ← ofExcept (r.scope.get var)
      keep c var (first ∪ held.types.plain)
      let r ← getRoutine
      modifyState (·.assign var ((r.scope.kept? var).getD (first ∪ held.types.plain)))) := by
  cases init <;> simp only [op, optValue, keep, pure_bind, bind_assoc, ite_bind]

/-- The state with a value for the key of a loop, if it binds one. -/
def loopKey (done : State) : Option String → Walk State
  | some k => do
    let var ← useVar k
    pure (done.assign var (.int ∪ .string))
  | none => pure done

/-- How a block is left. -/
inductive Way where
  /-- To its successors; the states are those the variables are looked up in. -/
  | onward (held : List State) (yes no : State)
  /-- To the caller. -/
  | back (held : State) (returned : TypeSet)

/-- Evaluates the exit of a block. -/
def wayOut (c : Setting) : Exit Nat → Walk Way
  | .fall => do
    let s ← getState
    return .onward [s] s s
  | .branch cond => do
    let (yes, no) ← (cond.meaning c).branchStates
    return .onward [yes, no] yes no
  | .each source key value => do
    let s ← (source.meaning c).value
    let elem ← loopTypes s
    let done ← getState
    let next ← loopKey done key
    let var ← useVar value
    return .onward [next.assign var elem, done] (next.assign var elem) done
  | .ret e => do
    let s ← optValue c e
    return .back (← getState) s.plain

/-- Leaves a block. -/
def depart (c : Setting) : Way → Walk Unit
  | .onward held yes no => do
    held.forM commit
    propagate c yes no
  | .back held returned => do
    commit held
    modifyRoutine fun r => { r with scope := (r.scope.addReturn returned).2 }

theorem exit_eq (c : Setting) (x : Exit Nat) : exit c x = wayOut c x >>= depart c := by
  cases x with
  | fall | branch => simp [exit, wayOut, depart]
  | each source key value => cases key <;> simp [exit, wayOut, depart, loopKey]
  | ret e => cases e <;> simp [exit, wayOut, depart, optValue]

/-! ### Operations -/

/-- The types kept by a static variable, with `types` added. -/
def keptWith (v : Variable) (types : TypeSet) : TypeSet :=
  match v.kept with
  | some old => old ∪ types
  | none => types

theorem varRoom_kept_le (v : Variable) (types : TypeSet) :
    Routine.varRoom { v with kept := some (keptWith v types) } ≤ Routine.varRoom v := by
  unfold Routine.varRoom keptWith
  rcases v.kept with _ | old
  · simp only
    omega
  · have := weight_mono (le_union_left old types)
    simp only
    omega

theorem varRoom_kept_lt (h : v.kept.any (keptWith v types != ·) = true) :
    Routine.varRoom { v with kept := some (keptWith v types) } < Routine.varRoom v := by
  unfold Routine.varRoom
  unfold keptWith at h ⊢
  rcases hkept : v.kept with _ | old
  · rw [hkept] at h
    cases h
  · rw [hkept] at h
    have hne : old ∪ types ≠ old := by simpa using h
    have hlt := weight_lt_union hne
    have hle := weight_le (old ∪ types)
    simp only
    omega

/-- The routine after static variable `i`, which was `v`, has kept more types. -/
def keeping (c : Setting) (r : Routine) (i : Nat) (types : TypeSet) (v : Variable) : Routine :=
  let r' := r.setVar i { v with kept := some (keptWith v types) } (r.scope.aliased.insert i)
  if v.kept.any (keptWith v types != ·) then (r'.queue Graph.entry).queue c.block else r'

theorem keep_eq (hv : w.routine.scope.vars[i]? = some v) (c : Setting) (types : TypeSet) :
    keep c i types w = .ok () { w with routine := keeping c w.routine i types v } := by
  have hadd : w.routine.scope.addKept i types = .ok (v.kept.any (keptWith v types != ·),
      { w.routine.scope with
        vars := w.routine.scope.vars.set i { v with kept := some (keptWith v types) }
        aliased := w.routine.scope.aliased.insert i }) := by
    rw [Scope.addKept, Scope.get, hv]
    rfl
  rw [keep, bind_of_ok (updateScope_eq hadd), keeping]
  simp only
  split <;> rfl

theorem keep_goes (hw : Whole g w) (hi : i < g.vars) (htypes : w.table.Knows types) :
    Goes g (keep g.setting i types) w fun _ w' => w'.state = w.state ∧ w'.table = w.table := by
  obtain ⟨v, hv, hmem⟩ := hw.exists_var hi
  have hset : Routine.Held w.table (w.routine.setVar i { v with kept := some (keptWith v types) }
      (w.routine.scope.aliased.insert i)) := by
    refine hw.held.setVar _ ⟨(hw.held.vars v hmem).1, ?_⟩
    rintro k ⟨⟩
    unfold keptWith
    rcases hkept : v.kept with _ | old
    · exact htypes
    · exact ((hw.held.vars v hmem).2 old hkept).union htypes
  have hkeeping : w.routine.Grows (keeping g.setting w.routine i types v) ∧
      (keeping g.setting w.routine i types v).facts = w.routine.facts ∧
      Routine.Held w.table (keeping g.setting w.routine i types v) := by
    unfold keeping
    simp only
    split
    next hgrew =>
      exact ⟨Routine.grows_setVar_queue _ hv (by rfl) (varRoom_kept_lt hgrew) hw.entry hw.here, rfl,
        (hset.queue _).queue _⟩
    next => exact ⟨Routine.grows_setVar _ hv (by rfl) (varRoom_kept_le v types), rfl, hset⟩
  refine (hw.goes_change (keep_eq hv _ types) hkeeping.1 hkeeping.2.1 hkeeping.2.2).mono ?_
  rintro _ w' _ _ rfl
  exact ⟨rfl, rfl⟩

theorem getRoutine_goes (hw : Whole g w) :
    Goes g getRoutine w fun r w' => w' = w ∧ r = w.routine :=
  ⟨hw, .refl g w, rfl, rfl⟩

theorem getVar_goes (hw : Whole g w) (hi : i < g.vars) :
    Goes g (ofExcept (w.routine.scope.get i)) w fun v w' => w' = w ∧ v ∈ w.routine.scope.vars := by
  obtain ⟨v, hv, hmem⟩ := hw.exists_var hi
  rw [show w.routine.scope.get i = .ok v by rw [Scope.get, hv]]
  exact .pure hw ⟨rfl, hmem⟩

theorem setSite_goes (hw : Whole g w) (i : Nat) :
    Goes g (modifyRoutine fun r =>
      { r with sites := (i, g.setting.block) :: r.sites.filter (·.1 != i) }) w
      fun _ w' => w'.state = w.state ∧ w'.table = w.table := by
  refine (hw.goes_change (r := { w.routine with
    sites := (i, g.setting.block) :: w.routine.sites.filter (·.1 != i) }) rfl
    { Routine.Grows.refl w.routine with frame := rfl } rfl { hw.held with sites := ?_ }).mono ?_
  · intro p hp
    rcases mem_cons.1 hp with rfl | hp
    · exact hw.here
    · exact hw.held.sites p (mem_of_mem_filter hp)
  · rintro _ w' _ _ rfl
    exact ⟨rfl, rfl⟩

theorem assign_goes (hw : Whole g w) (hi : i < g.vars) (htypes : w.table.Knows types) :
    Goes g (modifyState (·.assign i types)) w fun _ _ => True :=
  (modifyState_runs hw.toSane (hw.fits.assign hi types) (hw.known.assign htypes i)).goes hw

theorem optValue_runs (hfree : g.Free) (hw : Sane g w) {o : Option (Expr Nat)}
    (ho : ∀ e ∈ o.toList, Fits g e) :
    Runs g (optValue g.setting o) w fun s w' =>
      w'.table.Knows s ∧ ∀ e ∈ o.toList, AllBound g w' e := by
  rcases o with _ | e
  · exact .pure hw ⟨hw.table.knows_null, by simp⟩
  · refine ((meaning_sound hfree e (ho e (by simp))).value w hw).mono fun s w' _ _ hs => ?_
    exact ⟨hs.1, by simpa using hs.2⟩

theorem static_goes (hfree : g.Free) (hw : Whole g w) {name : String} (hname : name ∈ g.names)
    {init : Option (Expr Nat)} (hinit : ∀ e ∈ init.toList, Fits g e) :
    Goes g (op g.setting (.static name init)) w fun _ w' => ∀ e ∈ init.toList, AllBound g w' e := by
  rw [op_static]
  refine ((addFlags_runs hw.toSane _).goes hw).bind fun _ w1 hw1 _ _ => ?_
  refine ((useVar_runs hw1.toSane hname).goes hw1).bind fun i w2 hw2 _ hi => ?_
  refine ((optValue_runs hfree hw2.toSane hinit).goes hw2).bind fun first w3 hw3 _ hfirst => ?_
  refine (setSite_goes hw3 i).bind fun _ w4 hw4 ha4 _ => ?_
  refine (getRoutine_goes hw4).bind ?_
  rintro r w5 - - ⟨rfl, rfl⟩
  refine (getVar_goes hw4 hi.2.1).bind ?_
  rintro v w6 - - ⟨rfl, hv⟩
  have hall : w6.table.Knows (first ∪ v.types.plain) :=
    (hfirst.1.mono ha4.table).union (hw4.held.vars v hv).1.plain
  refine (keep_goes hw4 hi.2.1 hall).bind fun _ w7 hw7 ha7 h7 => ?_
  refine (getRoutine_goes hw7).bind ?_
  rintro r w8 - - ⟨rfl, rfl⟩
  refine (assign_goes hw7 hi.2.1 ?_).mono fun _ w9 _ ha9 _ e he => ?_
  · obtain ⟨u, hu, humem⟩ := hw7.exists_var hi.2.1
    rw [Scope.kept?, hu]
    rcases hkept : u.kept with _ | k
    · simpa [hkept, h7.2] using hall
    · simpa [hkept] using (hw7.held.vars u humem).2 k hkept
  · exact (((hfirst.2 e he).advance hfree ha4).advance hfree ha7).advance hfree ha9

theorem op_runs (hfree : g.Free) (hw : Sane g w) (ho : ∀ name init, o ≠ .static name init)
    (hexprs : ∀ e ∈ o.exprs, Fits g e) (hnames : ∀ name ∈ o.names, name ∈ g.names) :
    Runs g (op g.setting o) w fun _ w' => ∀ e ∈ o.exprs, AllBound g w' e := by
  cases o with
  | eval e =>
    have hvalue := (meaning_sound hfree e (hexprs e (by simp [Op.exprs]))).value w hw
    refine (Runs.discard (R := fun _ w' => AllBound g w' e)
      (hvalue.mono fun _ _ _ _ h => h.2)).mono fun _ w' _ _ h => ?_
    simpa [Op.exprs] using h
  | static name init => exact absurd rfl (ho name init)
  | global names =>
    refine (addFlags_runs hw _).bind fun _ w1 hw1 _ _ => ?_
    refine (Runs.forM (P := fun _ _ => True) hw1 (fun _ _ _ _ _ _ => trivial)
      fun name hname w2 hw2 => ?_).mono fun _ _ _ _ _ => by simp [Op.exprs]
    refine (useVar_runs hw2 (hnames name hname)).bind fun i w3 hw3 _ hi => ?_
    refine (markAliased_runs hw3 hi.2.1).bind fun _ w4 hw4 _ _ => ?_
    exact modifyState_runs hw4 (hw4.fits.assign hi.2.1 _) (hw4.known.assign ShapeTable.knows_any i)
  | unset names =>
    refine (Runs.forM (P := fun _ _ => True) hw (fun _ _ _ _ _ _ => trivial)
      fun name hname w2 hw2 => ?_).mono fun _ _ _ _ _ => by simp [Op.exprs]
    refine (useVar_runs hw2 (hnames name hname)).bind fun i w3 hw3 _ hi => ?_
    exact modifyState_runs hw3 (hw3.fits.unset hi.2.1) (hw3.known.unset i)

theorem op_goes (hfree : g.Free) (hw : Whole g w) (hexprs : ∀ e ∈ o.exprs, Fits g e)
    (hnames : ∀ name ∈ o.names, name ∈ g.names) :
    Goes g (op g.setting o) w fun _ w' => ∀ e ∈ o.exprs, AllBound g w' e := by
  cases o with
  | static name init => exact static_goes hfree hw (hnames name (by simp [Op.names])) hexprs
  | eval | global | unset => exact (op_runs hfree hw.toSane (by simp) hexprs hnames).goes hw

/-! ### Exits -/

theorem loopTypes_runs (hw : Sane g w) {s : TypeSet} (hs : w.table.Knows s) :
    Runs g (loopTypes s) w fun e w' => w'.table.Knows e := by
  refine .ofTable ?_
  split
  · exact .pure hw ShapeTable.knows_any
  · exact elementOf_runs hw (ShapeTable.knows_restrict hs _)

theorem loopKey_runs (hw : Sane g w) {key : Option String} (hkey : ∀ k ∈ key, k ∈ g.names) :
    Runs g (loopKey w.state key) w fun s w' =>
      State.Fits g.routine g.vars s ∧ State.Known w'.table s := by
  cases key with
  | none => exact .pure hw ⟨hw.fits, hw.known⟩
  | some k =>
    refine (useVar_runs hw (hkey k rfl)).bind fun i w1 hw1 hl1 hi => ?_
    refine .pure hw1 ⟨hw.fits.assign hi.2.1 _, (hw.known.mono hl1.table).assign ?_ i⟩
    exact hw1.table.knows_int.union hw1.table.knows_string

theorem addReturn_goes (hw : Whole g w) {s : TypeSet} (hs : w.table.Knows s) :
    Goes g (modifyRoutine fun r => { r with scope := (r.scope.addReturn s).2 }) w
      fun _ w' => s ≤ w'.routine.scope.returns := by
  refine (hw.goes_change (r := { w.routine with scope := (w.routine.scope.addReturn s).2 }) rfl
    { Routine.Grows.refl w.routine with
      frame := rfl
      returns := le_union_left _ _ } rfl
    { hw.held with returns := hw.held.returns.union hs }).mono ?_
  rintro _ w' - - rfl
  exact le_union_right _ _

/-- The state fits the routine, and the table knows its types. -/
abbrev Held (g : Place) (s : State) (t : ShapeTable) : Prop :=
  State.Fits g.routine g.vars s ∧ State.Known t s

/-- The states of the way fit the routine, and the table knows their types. -/
def Way.Held (g : Place) (t : ShapeTable) : Way → Prop
  | onward held yes no => (∀ s ∈ held, Infer.Held g s t) ∧ yes ∈ held ∧ no ∈ held
  | back held returned => Infer.Held g held t ∧ t.Knows returned

theorem held_pair (hyes : Held g yes t) (hno : Held g no t) :
    (Way.onward [yes, no] yes no).Held g t := by
  refine ⟨fun s hs => ?_, .head _, .tail _ mem_cons_self⟩
  rcases mem_cons.1 hs with rfl | hs
  · exact hyes
  · exact mem_singleton.1 hs ▸ hno

/-- The exit is evaluated to a way out, and its calls are bound then. -/
theorem wayOut_runs {x : Exit Nat} (hfree : g.Free) (hw : Sane g w)
    (hexprs : ∀ e ∈ x.exprs, Fits g e) (hnames : ∀ name ∈ x.names, name ∈ g.names) :
    Runs g (wayOut g.setting x) w fun way w' => way.Held g w'.table ∧
      (∀ e ∈ x.exprs, AllBound g w' e) ∧
        ((∃ e, x = .ret e) ∨ ∃ held yes no, way = .onward held yes no) := by
  cases x with
  | fall =>
    refine .ofState (.pure hw ⟨⟨fun s hs => ?_, .head _, .head _⟩, fun _ he => (not_mem_nil he).elim,
      .inr ⟨_, _, _, rfl⟩⟩)
    exact mem_singleton.1 hs ▸ ⟨hw.fits, hw.known⟩
  | branch cond =>
    have hcond := meaning_sound hfree cond (hexprs cond (.head _))
    refine (branchStates_runs hw hcond).bind ?_
    rintro ⟨yes, no⟩ w1 hw1 - ⟨hyes, hyesKnown, hno, hnoKnown, hbound⟩
    exact .pure hw1 ⟨held_pair ⟨hyes, hyesKnown⟩ ⟨hno, hnoKnown⟩,
      fun e he => mem_singleton.1 he ▸ hbound, .inr ⟨_, _, _, rfl⟩⟩
  | each source key value =>
    have hsource := meaning_sound hfree source (hexprs source (.head _))
    refine (hsource.value w hw).bind fun s w1 hw1 _ hs => ?_
    refine (loopTypes_runs hw1 hs.1).bind fun elem w2 hw2 hl2 helem => .ofState ?_
    refine (loopKey_runs hw2 fun k hk => hnames k ?_).bind fun next w4 hw4 hl4 hnext => ?_
    · obtain rfl : key = some k := hk
      simp [Exit.names]
    refine (useVar_runs hw4 (hnames value (by simp [Exit.names]))).bind fun i w5 hw5 hl5 hi => ?_
    have hlate := hl4.table.trans hl5.table
    refine .pure hw5 ⟨held_pair ⟨hnext.1.assign hi.2.1 elem,
      (hnext.2.mono hl5.table).assign (helem.mono hlate) i⟩ ⟨hw2.fits, hw2.known.mono hlate⟩,
      fun e he => ?_, .inr ⟨_, _, _, rfl⟩⟩
    exact mem_singleton.1 he ▸ AllBound.mono hfree hs.2 (hl2.trans (hl4.trans hl5))
  | ret e =>
    refine (optValue_runs hfree hw hexprs).bind fun s w1 hw1 _ hs => .ofState ?_
    exact .pure hw1 ⟨⟨⟨hw1.fits, hw1.known⟩, hs.1.plain⟩, hs.2, .inl ⟨e, rfl⟩⟩

/-- What the way hands on has been taken in by the routine. -/
def Way.Taken (b : Nat) (r : Routine) : Way → Prop
  | onward _ yes no => ∀ p ∈ r.graph.succs b, ∃ s, r.input? p.1 = some s ∧
      (if p.2 = .onFalse then no else yes) ≤ s
  | back _ returned => returned ≤ r.scope.returns

theorem commits_goes : ∀ {held : List State} {w : Walker}, Whole g w →
    (∀ s ∈ held, Held g s w.table) → Goes g (held.forM commit) w fun _ _ => True
  | [], _, hw, _ => .pure hw trivial
  | s :: held, w, hw, hheld => by
    obtain ⟨hfits, hknown⟩ := hheld s (.head _)
    refine (commit_goes hw hfits hknown).bind fun _ w1 hw1 ha1 _ => commits_goes hw1 fun s' hs' => ?_
    obtain ⟨hfits', hknown'⟩ := hheld s' (.tail _ hs')
    exact ⟨hfits', hknown'.mono ha1.table⟩

theorem depart_goes {way : Way} (hw : Whole g w) (hway : way.Held g w.table) :
    Goes g (depart g.setting way) w fun _ w' => way.Taken g.setting.block w'.routine := by
  cases way with
  | onward held yes no =>
    obtain ⟨hheld, hyes, hno⟩ := hway
    refine (commits_goes hw hheld).bind fun _ w1 hw1 ha1 _ => ?_
    refine (propagate_taken hw1 (hheld yes hyes).1 ((hheld yes hyes).2.mono ha1.table)
      (hheld no hno).1 ((hheld no hno).2.mono ha1.table)).mono fun _ w2 _ ha2 htaken p hp => ?_
    rw [ha2.graph] at hp
    exact htaken p hp
  | back held returned =>
    refine (commit_goes hw hway.1.1 hway.1.2).bind fun _ w1 hw1 ha1 _ => ?_
    exact addReturn_goes hw1 (hway.2.mono ha1.table)

theorem exit_goes (hfree : g.Free) (hw : Whole g w)
    (hk : w.routine.graph.blocks[g.setting.block]? = some k) (hexprs : ∀ e ∈ k.exit.exprs, Fits g e)
    (hnames : ∀ name ∈ k.exit.names, name ∈ g.names) :
    Goes g (exit g.setting k.exit) w fun _ w' =>
      (∀ p ∈ w.routine.graph.succs g.setting.block, (w'.routine.input? p.1).isSome = true) ∧
        ∀ e ∈ k.exit.exprs, AllBound g w' e := by
  rw [exit_eq]
  refine ((wayOut_runs hfree hw.toSane hexprs hnames).goes hw).bind ?_
  rintro way w1 hw1 ha1 ⟨hway, hbound, hleft⟩
  refine (depart_goes hw1 hway).mono fun _ w2 _ ha2 htaken =>
    ⟨fun p hp => ?_, fun e he => (hbound e he).advance hfree ha2⟩
  rcases hleft with ⟨e, hret⟩ | ⟨held, yes, no, rfl⟩
  · rw [hw.graph.succs_of_ret hk hret] at hp
    cases hp
  · obtain ⟨s, hs, -⟩ := htaken p ((ha1.trans ha2).graph ▸ hp)
    rw [hs]
    rfl

/-! ### Blocks -/

/-- The place covers its block of the graph: it has the expressions and the variables. -/
structure Place.Covers (g : Place) (graph : Graph Nat) : Prop where
  free : g.Free
  tags : ∀ k : Block Nat, graph.blocks[g.setting.block]? = some k →
    ∀ e ∈ k.roots, ∀ x ∈ e.walk, g.tags x.tag
  calls : ∀ k : Block Nat, graph.blocks[g.setting.block]? = some k →
    ∀ e ∈ k.roots, ∀ x ∈ e.walk, ∀ j name args, x = .call j name args → g.calls j name args
  names : ∀ x ∈ graph.names, x ∈ g.names

theorem named_of_names (h : ∀ name ∈ e.names, name ∈ g.names) : ∀ x ∈ e.walk, Named g x :=
  fun x hx _ hname => h _ (mem_filterMap.2 ⟨x, hx, hname⟩)

theorem Place.Covers.fits_op (hg : g.Covers graph) (hk : graph.blocks[g.setting.block]? = some k)
    (ho : o ∈ k.ops) :
    (∀ e ∈ o.exprs, Fits g e) ∧ ∀ name ∈ o.names, name ∈ g.names := by
  have hnames : ∀ name ∈ o.names, name ∈ g.names := fun name hname =>
    hg.names name (Graph.names_of_op (mem_of_getElem? hk) ho hname)
  refine ⟨fun e he x hx => ?_, hnames⟩
  have hroot : e ∈ k.roots := mem_append_left _ (mem_flatMap.2 ⟨o, ho, he⟩)
  exact ⟨hg.tags k hk e hroot x hx,
    named_of_names (fun n hn => hnames n (Op.names_of_exprs he n hn)) x hx,
    hg.calls k hk e hroot x hx⟩

theorem Place.Covers.fits_exit (hg : g.Covers graph) (hk : graph.blocks[g.setting.block]? = some k) :
    (∀ e ∈ k.exit.exprs, Fits g e) ∧ ∀ name ∈ k.exit.names, name ∈ g.names := by
  have hnames : ∀ name ∈ k.exit.names, name ∈ g.names := fun name hname =>
    hg.names name (Graph.names_of_exit (mem_of_getElem? hk) hname)
  refine ⟨fun e he x hx => ?_, hnames⟩
  have hroot : e ∈ k.roots := mem_append_right _ he
  exact ⟨hg.tags k hk e hroot x hx,
    named_of_names (fun n hn => hnames n (Exit.names_of_exprs he n hn)) x hx,
    hg.calls k hk e hroot x hx⟩

/-- The calls of the block are bound. -/
def BlockBound (g : Place) (w : Walker) : Prop :=
  ∀ k : Block Nat, w.routine.graph.blocks[g.setting.block]? = some k →
    ∀ e ∈ k.roots, AllBound g w e

theorem block_eq {c : Setting} (hs : w.routine.input? c.block = some s)
    (hk : w.routine.graph.blocks[c.block]? = some k) :
    block c w = (do setState s; k.ops.forM (op c); exit c k.exit : Walk Unit) w := by
  rw [block, getRoutine_bind, hs]
  simp only [hk]

theorem Whole.enter (hw : Whole g w) (hs : w.routine.input? g.setting.block = some s) :
    Whole g { w with state := s } := by
  have hfits : State.Fits g.routine g.vars s := by
    rw [← hw.id, ← hw.size_eq]
    exact hw.held.fits _ s hs
  exact hw.learn (hw.toSane.withState hfits (hw.held.known _ s hs)) (learns_withState s)

/-- **Going through a block.**  Its successors have then been reached and its calls are
bound. -/
theorem block_goes (hw : Whole g w) (hg : g.Covers w.routine.graph) :
    Goes g (block g.setting) w fun _ w' => BlockBound g w' ∧
      ∀ p ∈ w.routine.graph.succs g.setting.block, (w'.routine.input? p.1).isSome = true := by
  obtain ⟨s, hs⟩ := Option.isSome_iff_exists.1 hw.here
  have hlt := hw.graph.reach_lt (hw.held.reach _ hw.here)
  obtain ⟨k, hk⟩ : ∃ k, w.routine.graph.blocks[g.setting.block]? = some k :=
    ⟨_, getElem?_eq_getElem hlt⟩
  have hgoes : Goes g (do setState s; k.ops.forM (op g.setting); exit g.setting k.exit) w
      fun _ w' => (∀ e ∈ k.roots, AllBound g w' e) ∧
        ∀ p ∈ w.routine.graph.succs g.setting.block, (w'.routine.input? p.1).isSome = true := by
    have henter := hw.enter hs
    refine ((setState_runs hw.toSane henter.fits henter.known).goes hw).bind fun _ w1 hw1 ha1 _ => ?_
    refine (Goes.forM (P := fun (o : Op Nat) w' => ∀ e ∈ o.exprs, AllBound g w' e) hw1
      (fun o _ _ _ ha ho e he => (ho e he).advance hg.free ha) fun o ho w2 hw2 _ => ?_).bind
      fun _ w3 hw3 ha3 hops => ?_
    · have hfits := hg.fits_op hk ho
      exact op_goes hg.free hw2 hfits.1 hfits.2
    · have hgraph := (ha1.trans ha3).graph
      have hfits := hg.fits_exit hk
      refine (exit_goes hg.free hw3 (k := k) (by rw [hgraph]; exact hk) hfits.1 hfits.2).mono
        fun _ w4 _ ha4 h4 => ?_
      rw [hgraph] at h4
      refine ⟨fun e he => ?_, h4.1⟩
      rcases mem_append.1 he with he | he
      · obtain ⟨o, ho, he⟩ := mem_flatMap.1 he
        exact (hops o ho e he).advance hg.free ha4
      · exact h4.2 e he
  refine .of_eq (block_eq hs hk) ?_
  refine .imp hgoes fun _ w' h => ⟨h.1, h.2.1, ?_, h.2.2.2⟩
  intro k' hk' e he
  rw [h.2.1.graph, hk] at hk'
  cases hk'
  exact h.2.2.1 e he

end Infer
end ShapeFlow
