/-
# Valid routines

A routine of which nothing is known is valid, and every operation on a routine
keeps it so: entering it, queuing blocks, forgetting what was found out.  Blocks
that were reached and are not pending have reached their successors; so once
nothing is pending, every block that can be reached has been.

Key definitions: `Routine.Spread`, `Routine.Complete`, `Routine.Tweak`.
Key theorems: `Routine.fresh_valid`, `Routine.seed_spec`, `Routine.Tweak.valid`,
`Routine.Spread.complete`.
-/
import ShapeFlow.Proofs.Draining

namespace ShapeFlow

open ShapeFlow.Flow List
open ShapeTable (knows_any knows_void)

/-! ### Scopes of new routines -/

namespace Flow.Scope

/-- A scope of which nothing is known. -/
structure Blank (id : Nat) (s : Scope) : Prop where
  id : s.id = id
  vars : ∀ v ∈ s.vars, v.types = .void ∧ v.kept = none
  returns : s.returns = .void

theorem names_declare (s : Scope) (name : String) :
    (s.declare name).2.names[(s.declare name).1]? = some name ∧
      ∀ (i : Nat) (x : String), s.names[i]? = some x → (s.declare name).2.names[i]? = some x := by
  unfold declare
  rcases hfind : s.find? name with _ | i
  · simp only [names, map_append, map_cons, map_nil]
    refine ⟨?_, fun i x hx => ?_⟩
    · simp [size]
    · rw [getElem?_append_left (lt_of_getElem? hx)]
      exact hx
  · refine ⟨?_, fun _ _ hx => hx⟩
    obtain ⟨hlt, hname, -⟩ := findIdx?_eq_some_iff_getElem.1 hfind
    simpa [names, hlt] using hname

variable {id : Nat}

theorem Blank.declare {s : Scope} (h : Blank id s) (name : String) :
    Blank id (s.declare name).2 := by
  unfold Scope.declare
  split
  · exact h
  · refine { h with vars := fun v hv => ?_ }
    rcases mem_append.1 hv with hv | hv
    · exact h.vars v hv
    · obtain rfl : v = { name } := by simpa using hv
      exact ⟨rfl, rfl⟩

theorem addParams_spec : ∀ (params : List (String × Bool)) {s : Scope}, Blank id s →
    Blank id (addParams params s).2 ∧
      List.Forall₂ (fun p i => (addParams params s).2.names[i]? = some p.1) params
        (addParams params s).1 ∧
      ∀ (i : Nat) (x : String), s.names[i]? = some x → (addParams params s).2.names[i]? = some x
  | [], s, h => ⟨h, .nil, fun _ _ hx => hx⟩
  | (name, byRef) :: params, s, h => by
    obtain ⟨hname, hkeep⟩ := names_declare s name
    have hblank : Blank id (if byRef then { (s.declare name).2 with
        aliased := (s.declare name).2.aliased.insert (s.declare name).1 } else (s.declare name).2) := by
      split
      · exact { h.declare name with }
      · exact h.declare name
    have hnames : (if byRef then { (s.declare name).2 with
        aliased := (s.declare name).2.aliased.insert (s.declare name).1 }
        else (s.declare name).2).names = (s.declare name).2.names := by
      split <;> rfl
    obtain ⟨hb, hall, hrest⟩ := addParams_spec params hblank
    rw [hnames] at hrest
    exact ⟨hb, .cons (hrest _ _ hname) hall, fun i x hx => hrest i x (hkeep i x hx)⟩

theorem Blank.useAll : ∀ (names : List String) {s : Scope}, Blank id s →
    Blank id (names.foldl (fun s name => (s.use name).2) s) ∧
      (∀ x ∈ names, x ∈ (names.foldl (fun s name => (s.use name).2) s).names) ∧
      ∀ (i : Nat) (x : String), s.names[i]? = some x →
        (names.foldl (fun s name => (s.use name).2) s).names[i]? = some x
  | [], s, h => ⟨h, by simp, fun _ _ hx => hx⟩
  | name :: names, s, h => by
    obtain ⟨hname, hkeep⟩ := names_declare s name
    have hblank : Blank id (s.use name).2 := { h.declare name with }
    obtain ⟨hb, hall, hrest⟩ := Blank.useAll names hblank
    refine ⟨hb, fun x hx => ?_, fun i x hx => hrest i x (hkeep i x hx)⟩
    rcases mem_cons.1 hx with rfl | hx
    · exact mem_of_getElem? (hrest _ _ hname)
    · exact hall x hx

theorem ofRoutine_spec (id : Nat) (params : List (String × Bool)) (names : List String) :
    Blank id (ofRoutine id params names).2 ∧
      List.Forall₂ (fun p i => (ofRoutine id params names).2.names[i]? = some p.1) params
        (ofRoutine id params names).1 ∧
      ∀ x ∈ names, x ∈ (ofRoutine id params names).2.names := by
  obtain ⟨hb, hparams, -⟩ := addParams_spec params (s := { id })
    ⟨rfl, by simp, rfl⟩
  obtain ⟨hb', hall, hkeep⟩ := Blank.useAll names hb
  exact ⟨hb', hparams.imp fun _ _ h => hkeep _ _ h, hall⟩

end Flow.Scope

namespace Routine

variable {t t' : ShapeTable} {n m id b : Nat} {r r' r'' : Routine} {p : Param}

theorem Valid.var_lt (h : r.Valid t n) (hp : p ∈ r.params) : p.var < r.scope.size := by
  rw [← Scope.length_names]
  exact (List.getElem?_eq_some_iff.1 (h.params p hp).1).1

theorem Valid.grow (h : r.Valid t n) (hnm : n ≤ m) : r.Valid t m :=
  { h with
    facts := fun k f hf => { h.facts k f hf with
      target := fun x hx c hc => Nat.lt_of_lt_of_le ((h.facts k f hf).target x hx c hc) hnm } }

/-! ### New routines -/

theorem mem_placed {names : List String} : ∀ {params : List Param} {vars : List Nat},
    List.Forall₂ (fun (p : String × Bool) i => names[i]? = some p.1)
      (params.map fun p => (p.name, p.byRef)) vars →
    ∀ q ∈ List.zipWith (fun p var => { p with var }) params vars,
      names[q.var]? = some q.name ∧ ∃ p ∈ params, q = { p with var := q.var }
  | [], _, _, q, hq => by simp at hq
  | p :: params, [], h, _, _ => by cases h
  | p :: params, i :: vars, h, q, hq => by
    obtain ⟨hp, hrest⟩ := forall₂_cons.1 h
    rcases mem_cons.1 hq with rfl | hq
    · exact ⟨hp, p, .head _, rfl⟩
    · obtain ⟨hname, p', hp', heq⟩ := mem_placed hrest q hq
      exact ⟨hname, p', .tail _ hp', heq⟩

theorem map_params_fresh {β : Type} {f : Param → β} (hf : ∀ p var, f { p with var } = f p) (id : Nat)
    (name : String) (params : List Param) (graph : Graph Nat) (exported : Bool) :
    (fresh id name params graph exported).params.map f = params.map f := by
  have hlen := (Scope.ofRoutine_spec id (params.map fun p => (p.name, p.byRef)) graph.names).2.1.length_eq
  rw [length_map] at hlen
  show (zipWith _ params _).map f = _
  rw [map_zipWith]
  refine ext_getElem? fun k => ?_
  rw [getElem?_zipWith, getElem?_map]
  rcases hp : params[k]? with _ | q
  · rfl
  · rw [getElem?_eq_getElem (hlen ▸ lt_of_getElem? hp)]
    exact congrArg some (hf q _)

/-- The declared, documented and default types of a parameter are known. -/
def ParamKnown (t : ShapeTable) (p : Param) : Prop :=
  t.Knows p.declared ∧ (∀ d ∈ p.doc, t.Knows d) ∧ ∀ d ∈ p.default, t.Knows d

theorem input?_replicate (h : r.inputs = Array.replicate m none) (b : Nat) : r.input? b = none := by
  rw [input?, h, Array.getElem?_replicate]
  split <;> rfl

theorem held_of_blank (hscope : Scope.Blank id r.scope)
    (hinputs : r.inputs = Array.replicate r.graph.size none) (hsites : r.sites = []) : r.Held t where
  size := by rw [hinputs, Array.size_replicate]
  fits b s hs := by simp [input?_replicate hinputs] at hs
  known b s hs := by simp [input?_replicate hinputs] at hs
  reach b hb := by simp [input?_replicate hinputs] at hb
  entry b hb := by simp [input?_replicate hinputs] at hb
  sites p hp := by simp [hsites] at hp
  vars v hv := by
    obtain ⟨htypes, hkept⟩ := hscope.vars v hv
    rw [htypes, hkept]
    exact ⟨knows_void, by simp⟩
  returns := by
    rw [hscope.returns]
    exact knows_void

theorem fresh_valid (id : Nat) (name : String) {params : List Param} {graph : Graph Nat}
    (exported : Bool) (hgraph : graph.Sound) (hparams : ∀ p ∈ params, ParamKnown t p) :
    (fresh id name params graph exported).Valid t n := by
  obtain ⟨hblank, hplaced, hnames⟩ :=
    Scope.ofRoutine_spec id (params.map fun p => (p.name, p.byRef)) graph.names
  refine
    { held_of_blank hblank rfl rfl with
      graph := hgraph
      scope := hblank.id
      names := hnames
      total := Array.size_replicate
      facts := fun k f hf => ?_
      params := fun q hq => ?_
      observed := fun s hs => ?_
      arity := ?_
      fixed := fun f hf => by cases hf
      candidates := fun c hc => by cases hc
      applied := fun c hc => by cases hc
      entered := fun h => by rcases h with h | h <;> cases h }
  · obtain ⟨-, rfl⟩ : k < graph.exprCount ∧ ({} : Fact) = f := by
      simpa [fresh, Array.getElem?_replicate] using hf
    exact ⟨knows_void, by simp, by simp⟩
  · obtain ⟨hname, p, hp, heq⟩ := mem_placed hplaced q hq
    refine ⟨hname, ?_⟩
    rw [heq]
    exact hparams p hp
  · obtain ⟨p, -, rfl⟩ := mem_map.1 hs
    exact knows_void
  · have hlen := hplaced.length_eq
    simp only [fresh, length_map, length_zipWith] at hlen ⊢
    omega

/-- A new routine, declared or cloned, of which nothing is known. -/
inductive Fresh (t : ShapeTable) (id : Nat) : Routine → Prop
  | intro (name : String) {params : List Param} {graph : Graph Nat} (exported : Bool)
    (origin : Option Nat) {fixed : Option Tuple} (hgraph : graph.Sound)
    (hparams : ∀ p ∈ params, ParamKnown t p) (hfixed : ∀ f ∈ fixed, ∀ s ∈ f, t.Knows s) :
    Fresh t id { fresh id name params graph exported with origin, fixed }

theorem Fresh.valid (h : Fresh t id r) : r.Valid t n := by
  cases h with
  | intro name exported origin hgraph hparams hfixed =>
    exact { fresh_valid id name exported hgraph hparams with fixed := hfixed }

theorem Fresh.id_eq (h : Fresh t id r) : r.id = id := by
  cases h
  rfl

theorem Fresh.input? (h : Fresh t id r) (b : Nat) : r.input? b = none := by
  cases h
  exact input?_replicate rfl b

theorem Fresh.idle (h : Fresh t id r) : r.pending.toList = [] := by
  cases h
  rfl

/-! ### Entering -/

theorem Valid.knows_entryTypes (h : r.Valid t n) {i : Nat} (hp : p ∈ r.params) :
    t.Knows (r.entryTypes i p) := by
  have hgetD : ∀ {l : List TypeSet}, (∀ s ∈ l, t.Knows s) → t.Knows (l.getD i .any) := by
    intro l hl
    rw [getD_eq_getElem?_getD]
    rcases hi : l[i]? with _ | s
    · exact knows_any
    · exact hl s (mem_of_getElem? hi)
  have hbase : t.Knows (if !p.declared.isAny then p.declared
      else if !r.exported then r.observed.getD i .any else .any) := by
    split
    · exact (h.params p hp).2.1
    · exact (hgetD h.observed).ite knows_any
  unfold entryTypes
  rcases hfixed : r.fixed with _ | tuple
  · rcases hd : p.default with _ | d
    · exact hbase
    · exact hbase.union ((h.params p hp).2.2.2 d hd)
  · exact hgetD (h.fixed tuple hfixed)

theorem Valid.entryState_spec (h : r.Valid t n) :
    State.Fits r.id r.scope.size r.entryState ∧ State.Known t r.entryState := by
  have hfold : ∀ (l : List (Param × Nat)) (s : State), (∀ x ∈ l, x.1 ∈ r.params) →
      State.Fits r.id r.scope.size s → State.Known t s →
      State.Fits r.id r.scope.size
        (l.foldl (fun s x => s.assign x.1.var (r.entryTypes x.2 x.1).plain) s) ∧
      State.Known t (l.foldl (fun s x => s.assign x.1.var (r.entryTypes x.2 x.1).plain) s) := by
    intro l
    induction l with
    | nil => exact fun s _ hfits hknown => ⟨hfits, hknown⟩
    | cons x l ih =>
      intro s hl hfits hknown
      have hx := hl x (.head _)
      exact ih _ (fun y hy => hl y (.tail _ hy)) (hfits.assign (h.var_lt hx) _)
        (hknown.assign (h.knows_entryTypes hx).plain _)
  refine hfold r.params.zipIdx (.start r.scope) (fun x hx => ?_) ?_ (State.known_start r.scope)
  · exact mem_of_getElem? (mem_zipIdx_iff_getElem?.1 hx)
  · rw [← h.scope]
    exact State.fits_start r.scope

theorem seed_spec (h : r.Valid t n) (ht : t.Valid) :
    ∃ c r', r.seed = .ok (c, r') ∧ r'.Valid t n ∧ Flows r r' Graph.entry r.entryState := by
  obtain ⟨hfits, hknown⟩ := h.entryState_spec
  obtain ⟨c, r', hrun, hheld, hflows⟩ :=
    flowInto_spec h.toHeld ht h.graph Graph.Reach.entry (.inl rfl) hfits hknown
  have hfacts : r'.facts = r.facts := by rw [hflows.frame]
  refine ⟨c, r', hrun, ?_, hflows⟩
  refine h.of_grows hflows.grows (.refl t) hheld (by rw [hfacts]) fun k f hf => ?_
  rw [hfacts] at hf
  rw [← Scope.length_names, hflows.grows.names, Scope.length_names]
  exact h.facts k f hf

theorem Valid.seed_flows (h : r.Valid t n) (ht : t.Valid) {c : Bool} (hs : r.seed = .ok (c, r')) :
    r'.Valid t n ∧ Flows r r' Graph.entry r.entryState := by
  obtain ⟨c', r1, hrun, hvalid, hflows⟩ := seed_spec h ht
  rw [hs] at hrun
  cases hrun
  exact ⟨hvalid, hflows⟩

/-! ### Evidence from calls -/

theorem length_observe : ∀ {seen args : List TypeSet}, (observe seen args).length = seen.length
  | [], _ => by simp [observe]
  | _ :: _, [] => by simp [observe]
  | s :: seen, a :: args => by simp [observe, length_observe]

theorem knows_observe : ∀ {seen args : List TypeSet}, (∀ s ∈ seen, t.Knows s) →
    (∀ a ∈ args, t.Knows a) → ∀ s ∈ observe seen args, t.Knows s
  | [], _, _, _ => by simp [observe]
  | _ :: _, [], hseen, _ => by simpa [observe] using hseen
  | s :: seen, a :: args, hseen, hargs => by
    intro x hx
    rcases mem_cons.1 hx with rfl | hx
    · exact (hseen s (.head _)).union (hargs a (.head _)).plain
    · exact knows_observe (fun y hy => hseen y (.tail _ hy))
        (fun y hy => hargs y (.tail _ hy)) x hx

theorem Valid.observe (h : r.Valid t n) {seen : List TypeSet} (hseen : ∀ s ∈ seen, t.Knows s)
    (hlen : seen.length = r.observed.length) : { r with observed := seen }.Valid t n :=
  { h with observed := hseen, arity := hlen.trans h.arity }

/-! ### Forgetting -/

theorem names_forget (s : Scope) : s.forget.names = s.names := by
  simp [Scope.forget, Scope.names]

theorem forget_valid (h : r.Valid t n) : { r.forget with status := .invalidated }.Valid t n := by
  have hblank : Scope.Blank r.scope.id r.scope.forget :=
    ⟨rfl, by simp [Scope.forget], rfl⟩
  refine
    { held_of_blank (r := { r.forget with status := .invalidated }) hblank rfl rfl, h with
      names := fun x hx => ?_
      total := Array.size_replicate
      facts := fun k f hf => ?_
      params := fun p hp => ?_
      observed := fun s hs => ?_
      arity := ?_
      entered := fun h => by rcases h with h | h <;> cases h }
  · show x ∈ r.scope.forget.names
    rw [names_forget]
    exact h.names x hx
  · obtain ⟨-, rfl⟩ : k < r.graph.exprCount ∧ ({} : Fact) = f := by
      simpa [forget, Array.getElem?_replicate] using hf
    exact ⟨knows_void, by simp, by simp⟩
  · show r.scope.forget.names[p.var]? = some p.name ∧ _
    rw [names_forget]
    exact h.params p hp
  · obtain ⟨_, -, rfl⟩ := mem_map.1 hs
    exact knows_void
  · simpa [forget] using h.arity

/-! ### Blocks that have been reached -/

/-- Blocks that were reached and are not pending have reached their successors. -/
def Spread (r : Routine) : Prop := ∀ b, (r.input? b).isSome = true →
  b ∈ r.pending.toList ∨ ∀ p ∈ r.graph.succs b, (r.input? p.1).isSome = true

/-- Every block that can be reached has been. -/
def Complete (r : Routine) : Prop := ∀ b, r.graph.Reach b → (r.input? b).isSome = true

theorem Spread.complete (h : r.Spread) (hentry : (r.input? Graph.entry).isSome = true)
    (hpending : r.pending.toList = []) : r.Complete := by
  intro b hb
  induction hb with
  | entry => exact hentry
  | @step b d l _ he ih =>
    rcases h b ih with hb | hsuccs
    · rw [hpending] at hb
      cases hb
    · exact hsuccs (d, l) he

theorem Spread.grow (h : r.Spread) (hgrows : r.Grows r') : r'.Spread := by
  intro b hb
  rcases hgrows.changed b with hsame | hpending
  · rw [hsame] at hb
    rcases h b hb with hpending | hsuccs
    · exact .inl (hgrows.pending b hpending)
    · refine .inr fun p hp => hgrows.reached (hsuccs p ?_)
      rw [hgrows.graph] at hp
      exact hp
  · exact .inl hpending

/-- Going through a block that was taken off the queue. -/
theorem Spread.walk (h : r.Spread) {q : Agenda Nat} (hq : r.pending.toList = b :: q.toList)
    (hgrows : { r with pending := q }.Grows r')
    (hsuccs : ∀ p ∈ r.graph.succs b, (r'.input? p.1).isSome = true) : r'.Spread := by
  have hgraph : r'.graph = r.graph := hgrows.graph
  intro b' hb'
  by_cases hb : b' = b
  · refine .inr fun p hp => hsuccs p ?_
    rw [hgraph, hb] at hp
    exact hp
  rcases hgrows.changed b' with hsame | hpending
  · rw [hsame] at hb'
    rcases h b' hb' with hpending | hsuccs
    · rw [hq] at hpending
      exact .inl (hgrows.pending b' ((mem_cons.1 hpending).resolve_left hb))
    · refine .inr fun p hp => hgrows.reached (hsuccs p ?_)
      rw [hgraph] at hp
      exact hp
  · exact .inl hpending

/-! ### Small changes of a routine -/

/-- Blocks are queued. -/
structure Piles (r r' : Routine) : Prop where
  frame : r' = { r with pending := r'.pending }
  kept : ∀ b ∈ r.pending.toList, b ∈ r'.pending.toList

theorem Piles.refl (r : Routine) : Piles r r := ⟨rfl, fun _ h => h⟩

theorem Piles.trans (h : Piles r r') (h' : Piles r' r'') : Piles r r'' where
  frame := by rw [h'.frame, h.frame]
  kept b hb := h'.kept b (h.kept b hb)

theorem piles_queue (r : Routine) (b : Nat) : Piles r (r.queue b) :=
  ⟨rfl, fun _ hb => Agenda.mem_insert.2 (.inl hb)⟩

/-- Blocks that have been reached are queued. -/
structure Queues (r r' : Routine) : Prop extends Piles r r' where
  made : ∀ b ∈ r'.pending.toList, b ∈ r.pending.toList ∨ (r.input? b).isSome = true

theorem Queues.refl (r : Routine) : Queues r r := ⟨.refl r, fun _ h => .inl h⟩

theorem Queues.trans (h : Queues r r') (h' : Queues r' r'') : Queues r r'' where
  toPiles := h.toPiles.trans h'.toPiles
  made b hb := by
    rcases h'.made b hb with hb | hb
    · exact h.made b hb
    · rw [h.frame] at hb
      exact .inr hb

theorem queues_queue (hb : (r.input? b).isSome = true) : Queues r (r.queue b) where
  toPiles := piles_queue r b
  made b' hb' := by
    rcases Agenda.mem_insert.1 hb' with hb' | rfl
    · exact .inl hb'
    · exact .inr hb

theorem queues_requeue (r : Routine) (b : Nat) : Queues r (r.requeue b) := by
  unfold requeue
  split
  · exact queues_queue ‹_›
  · exact .refl r

theorem queues_reached (r : Routine) : Queues r { r with pending := r.pending.insertAll r.reached } where
  frame := rfl
  kept _ hb := Agenda.mem_insertAll.2 (.inl hb)
  made b hb := by
    rcases Agenda.mem_insertAll.1 hb with hb | hb
    · exact .inl hb
    · exact .inr (mem_reached.1 hb)

/-- The routine is marked: how far its analysis is, what is proposed for it. -/
structure Marks (t : ShapeTable) (r r' : Routine) : Prop where
  frame : r' = { r with
    status := r'.status, flags := r'.flags, candidates := r'.candidates, applied := r'.applied }
  candidates : ∀ c ∈ r'.candidates, ∀ s ∈ c, t.Knows s
  applied : ∀ c ∈ r'.applied, ∀ s ∈ c, t.Knows s
  grown : ∀ c ∈ r.applied, c ∈ r'.applied
  entered : r'.status = .analyzing ∨ r'.status = .stable → (r.input? Graph.entry).isSome = true

/-- Small changes made to routines between walks. -/
inductive Tweak (t : ShapeTable) (r r' : Routine) : Prop
  | queue : Queues r r' → Tweak t r r'
  | mark : Marks t r r' → Tweak t r r'
  | seed {c : Bool} : r.seed = .ok (c, r') → Tweak t r r'

theorem Valid.queue (h : r.Valid t n) (hframe : r' = { r with pending := r'.pending }) :
    r'.Valid t n := by
  rw [hframe]
  exact { h with }

theorem Valid.mark (h : r.Valid t n) (hm : Marks t r r') : r'.Valid t n := by
  rw [hm.frame]
  exact { h with candidates := hm.candidates, applied := hm.applied, entered := hm.entered }

theorem Tweak.valid (h : Tweak t r r') (hr : r.Valid t n) (ht : t.Valid) : r'.Valid t n := by
  cases h with
  | queue hq => exact hr.queue hq.frame
  | mark hm => exact hr.mark hm
  | seed hs =>
    exact (hr.seed_flows ht hs).1

theorem Tweak.frame (h : Tweak t r r') (hr : r.Valid t n) (ht : t.Valid) :
    r' = { r with
      status := r'.status, inputs := r'.inputs, pending := r'.pending, flags := r'.flags
      candidates := r'.candidates, applied := r'.applied } := by
  cases h with
  | queue hq => rw [hq.frame]
  | mark hm => rw [hm.frame]
  | seed hs =>
    rw [(hr.seed_flows ht hs).2.frame]

theorem Tweak.spread (h : Tweak t r r') (hspread : r.Spread) (hr : r.Valid t n) (ht : t.Valid) :
    r'.Spread := by
  cases h with
  | queue hq =>
    intro b hb
    rw [hq.frame] at hb ⊢
    exact (hspread b hb).imp_left (hq.kept b)
  | mark hm =>
    rw [hm.frame]
    exact hspread
  | seed hs =>
    exact hspread.grow (hr.seed_flows ht hs).2.grows

theorem Grounded.grow (h : r.Grounded) (hgrows : r.Grows r') : r'.Grounded := fun b hb =>
  (hgrows.queued b hb).elim (fun hb => hgrows.reached (h b hb)) fun hb => hb

theorem Tweak.grounded (h : Tweak t r r') (hgrounded : r.Grounded) (hr : r.Valid t n)
    (ht : t.Valid) : r'.Grounded := by
  cases h with
  | queue hq =>
    intro b hb
    rw [hq.frame]
    exact (hq.made b hb).elim (hgrounded b) fun hb => hb
  | mark hm =>
    rw [hm.frame]
    exact hgrounded
  | seed hs => exact hgrounded.grow (hr.seed_flows ht hs).2.grows

theorem Tweak.reached (h : Tweak t r r') (hr : r.Valid t n) (ht : t.Valid)
    (hb : (r.input? b).isSome = true) : (r'.input? b).isSome = true := by
  cases h with
  | queue hq =>
    rw [hq.frame]
    exact hb
  | mark hm =>
    rw [hm.frame]
    exact hb
  | seed hs =>
    exact (hr.seed_flows ht hs).2.grows.reached hb

end Routine
end ShapeFlow
