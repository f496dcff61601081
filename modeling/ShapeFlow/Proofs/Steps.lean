/-
# What walks are made of

A walk is put together from four kinds of steps.  Three look at the state, the table
or the routine, and change the one they look at: the state in any way, the table by
adding shapes, the routine by learning.  The fourth leaves an edge for a call and
reports it.  No step looks at the call graph or at the reports.

So whatever walks do, in whatever order and whether they fail or not, the table is
only added to and a routine only gains; and what was logged before a walk makes no
difference to it.  A routine is marked for dynamic calls when such a call of it is
bound, and only then.

Of a walk through an expression more can be said.  It is composed of a few steps that
touch facts, each for an expression inside it, and steps that look at no facts.  It
declares variables, but gives them no types and blocks no states.

Key definitions: `Routine.Improves`, `Routine.Heeds`, `Made`, `Composed`, `Watched`, `Walker.Gains`.
Key theorems: `composed_meaning`, `made_block`, `made_drain`, `Made.gains`, `Made.logs`.
-/
import ShapeFlow.Proofs.Interning
import ShapeFlow.Proofs.Keeping
import ShapeFlow.Proofs.Knowledge

namespace ShapeFlow

open ShapeFlow.Flow List
open ShapeFlow.Expr (meaning)

/-! ### Tables that are added to -/

namespace ShapeTable

theorem extends_updated {t t' : ShapeTable} {s value new : TypeSet}
    (h : t.updated s value = some (new, t')) : t.Extends t' := by
  unfold updated at h
  split at h
  · cases h
    exact .refl t
  · rcases helems : t.elements (t.restrict s .array) with _ | elems <;> rw [helems] at h
    · cases h
    · cases h
      exact extends_arrayOf t _

end ShapeTable

/-! ### Routines that learn -/

namespace Routine

variable {r r' r'' : Routine} {changed : Bool} {s : State}

/-- A routine gains while it is gone through: nobody says how far it has come, and marks that it
got stay. -/
structure Improves (r r' : Routine) : Prop extends Gains r r' where
  status : r'.status = r.status
  dynamicCall : r.flags.dynamicCall = true → r'.flags.dynamicCall = true
  callsDynamic : r'.flags.callsDynamic = r.flags.callsDynamic

theorem Improves.refl (r : Routine) : r.Improves r := ⟨.refl r, rfl, fun h => h, rfl⟩

theorem Improves.trans (h : r.Improves r') (h' : r'.Improves r'') : r.Improves r'' where
  toGains := h.toGains.trans h'.toGains
  status := h'.status.trans h.status
  dynamicCall hd := h'.dynamicCall (h.dynamicCall hd)
  callsDynamic := h'.callsDynamic.trans h.callsDynamic

/-- A routine learns, and is marked for dynamic calls with cause: only if `d` holds, and whenever
one of the calls in `N` is bound for the first time. -/
structure Heeds (d : Prop) (N : Nat → Prop) (r r' : Routine) : Prop extends Improves r r' where
  cause : r'.flags.dynamicCall = true → r.flags.dynamicCall = true ∨ d
  effect : ∀ k, N k → (r'.target? k).isSome = true →
    (r.target? k).isSome = true ∨ r'.flags.dynamicCall = true

variable {d : Prop} {N : Nat → Prop} {b : Nat}

theorem Heeds.refl (r : Routine) : r.Heeds d N r := ⟨.refl r, .inl, fun _ _ => .inl⟩

theorem Heeds.trans (h : r.Heeds d N r') (h' : r'.Heeds d N r'') : r.Heeds d N r'' where
  toImproves := h.toImproves.trans h'.toImproves
  cause hd := (h'.cause hd).elim h.cause .inr
  effect k hk ht := (h'.effect k hk ht).elim
    (fun ht' => (h.effect k hk ht').imp_right h'.dynamicCall) .inr

theorem Gains.heeds (h : r.Gains r') (hstatus : r'.status = r.status) (hflags : r'.flags = r.flags)
    (htargets : ∀ k, r'.target? k = r.target? k) : r.Heeds d N r' where
  toGains := h
  status := hstatus
  dynamicCall hd := hflags ▸ hd
  callsDynamic := by rw [hflags]
  cause hd := .inl (hflags ▸ hd)
  effect k _ hk := .inl (htargets k ▸ hk)

theorem learns_addFlags (r : Routine) {f : Flags} (hf : f.callsDynamic = false) :
    r.Improves { r with flags := r.flags ∪ f } where
  toGains := gains_marks r r.status r.sites r.pending _
  status := rfl
  dynamicCall hd := by
    show (r.flags.dynamicCall || f.dynamicCall) = true
    rw [hd, Bool.true_or]
  callsDynamic := by
    show (r.flags.callsDynamic || f.callsDynamic) = r.flags.callsDynamic
    rw [hf, Bool.or_false]

theorem target?_modify (r : Routine) (id k : Nat) (f : Fact → Fact) :
    ({ r with facts := r.facts.modify id f } : Routine).target? k =
      if id = k then r.facts[k]? >>= fun x => (f x).target else r.target? k := by
  show (r.facts.modify id f)[k]? >>= Fact.target = _
  rw [Array.getElem?_modify]
  split
  · rcases r.facts[k]? with _ | x <;> rfl
  · rfl

theorem flowInto_frame (h : r.flowInto b s = .ok (changed, r')) :
    r' = { r with inputs := r'.inputs, pending := r'.pending } := by
  rcases flowInto_cases h with rfl | ⟨s', rfl, -⟩ <;> rfl

theorem heeds_flowInto (h : r.flowInto b s = .ok (changed, r')) : r.Heeds d N r' := by
  have hframe := flowInto_frame h
  refine (gains_flowInto h).heeds (by rw [hframe]) (by rw [hframe]) fun k => ?_
  unfold target?
  rw [hframe]

/-! ### Variables that are only declared -/

/-- No variable is lost and none has got types, and no block has been given a state. -/
structure Declares (r r' : Routine) : Prop where
  scope : r.scope ≤ r'.scope
  merged : ∀ i, r'.merged i = r.merged i
  inputs : r'.inputs = r.inputs

theorem Declares.refl (r : Routine) : r.Declares r := ⟨Scope.le_refl _, fun _ => rfl, rfl⟩

theorem Declares.trans (h : r.Declares r') (h' : r'.Declares r'') : r.Declares r'' where
  scope := Scope.le_trans h.scope h'.scope
  merged i := (h'.merged i).trans (h.merged i)
  inputs := h'.inputs.trans h.inputs

theorem declares_of_scope (h : r'.scope = r.scope) (hinputs : r'.inputs = r.inputs) :
    r.Declares r' := by
  refine ⟨h ▸ Scope.le_refl _, fun i => ?_, hinputs⟩
  unfold merged
  rw [h]

theorem declares_use (r : Routine) (name : String) :
    r.Declares { r with scope := (r.scope.use name).2 } := by
  refine ⟨Scope.le_use _ _, fun i => ?_, rfl⟩
  unfold merged Scope.use Scope.declare
  dsimp only
  split
  · rfl
  · by_cases hi : i < r.scope.vars.length
    · rw [getElem?_append_left hi]
    · have hnone : r.scope.vars[i]? = none := getElem?_eq_none (by omega)
      rw [getElem?_append_right (by omega), hnone, getElem?_singleton]
      split <;> rfl

end Routine

/-- The library function of that name looks at its caller. -/
def Library.Dynamic (name : String) : Prop := ∃ f, Library.find? name = some f ∧ f.dynamic = true

namespace Infer

/-! ### The steps -/

section Steps

variable {β γ : Type} {d : Prop} {N : Nat → Prop} {e : Expr Nat}
  {f : ShapeTable → TypeSet × ShapeTable} {name : String}

/-- A step that looks at the state and changes it. -/
def onState (f : State → Except Fault (β × State)) : Walk β := fun w =>
  match f w.state with
  | .ok (b, state) => .ok b { w with state }
  | .error e => .error e w

/-- A step that looks at the table and changes it. -/
def onTable (f : ShapeTable → Except Fault (β × ShapeTable)) : Walk β := fun w =>
  match f w.table with
  | .ok (b, table) => .ok b { w with table }
  | .error e => .error e w

/-- A step that looks at the routine and changes it. -/
def onRoutine (f : Routine → Except Fault (β × Routine)) : Walk β := fun w =>
  match f w.routine with
  | .ok (b, routine) => .ok b { w with routine }
  | .error e => .error e w

/-- Leaves an edge for a call of the routine and reports it. -/
def logCall (e : CallEdge) : Walk Unit :=
  modify fun w => withCall w { e with caller := w.routine.id }

/-- A call of `name` is dynamic: no routine goes by the name, and the library function of that name
is. -/
def Setting.Dynamic (c : Setting) (name : String) : Prop :=
  (c.directory.candidates name).filterMap (c.signatures[·]?) = [] ∧ Library.Dynamic name

/-- The step is put together from steps that add shapes, heed and log calls. -/
inductive Made (d : Prop) (N : Nat → Prop) : {β : Type} → Walk β → Prop
  | state {β : Type} (f : State → Except Fault (β × State)) : Made d N (onState f)
  | table {β : Type} (f : ShapeTable → Except Fault (β × ShapeTable)) :
    (∀ t b t', f t = .ok (b, t') → t.Extends t') → Made d N (onTable f)
  | routine {β : Type} (f : Routine → Except Fault (β × Routine)) :
    (∀ r b r', f r = .ok (b, r') → r.Heeds d N r') → Made d N (onRoutine f)
  | call (e : CallEdge) : Made d N (logCall e)
  | bind {β γ : Type} {m : Walk β} {f : β → Walk γ} : Made d N m → (∀ b, Made d N (f b)) → Made d N (m >>= f)

theorem made_pure (b : β) : Made d N (pure b : Walk β) := .state fun s => .ok (b, s)

theorem made_throw (f : Fault) : Made d N (throw f : Walk β) := .state fun _ => .error f

theorem Made.forM {f : β → Walk PUnit} : ∀ {l : List β}, (∀ a ∈ l, Made d N (f a)) → Made d N (l.forM f)
  | [], _ => made_pure _
  | a :: _, h => (h a (.head _)).bind fun _ =>
      .forM fun b hb => h b (.tail _ hb)

theorem made_getState : Made d N getState := .state fun s => .ok (s, s)

theorem made_modifyState (f : State → State) : Made d N (modifyState f) := .state fun s => .ok ((), f s)

theorem made_setState (s : State) : Made d N (setState s) := .state fun _ => .ok ((), s)

theorem made_getRoutine : Made d N getRoutine :=
  .routine (fun r => .ok (r, r)) fun r _ _ h => by cases h; exact .refl r

theorem made_modifyRoutine {f : Routine → Routine} (hf : ∀ r : Routine, r.Heeds d N (f r)) :
    Made d N (modifyRoutine f) :=
  .routine (fun r => .ok ((), f r)) fun r _ _ h => by cases h; exact hf r

theorem made_modifyFact (id : Nat) {f : Fact → Fact} (hf : ∀ k, k ≤ f k)
    (htarget : ∀ k, (f k).target = k.target) :
    Made d N (modifyRoutine fun r => { r with facts := r.facts.modify id f }) := by
  refine made_modifyRoutine fun r =>
    (Routine.gains_facts fun k => persists_modify Fact.le_refl hf id k).heeds rfl rfl fun k => ?_
  rw [Routine.target?_modify]
  simp only [htarget]
  rw [Routine.target?, ite_self]

theorem made_record (id : Nat) (s : TypeSet) : Made d N (record id s) := by
  refine made_getRoutine.bind fun r => ?_
  split
  · exact made_modifyFact id (fun k =>
      ⟨TypeSet.le_union_left _ _, .refl ReadSite.le_refl _⟩) fun _ => rfl
  · exact made_throw _

theorem Made.recorded {m : Walk TypeSet} (h : Made d N m) (id : Nat) : Made d N (recorded id m) :=
  h.bind fun s => (made_record id s).bind fun _ => made_pure s

theorem made_recordedTypes (id : Nat) : Made d N (recordedTypes id) :=
  made_getRoutine.bind fun _ => made_pure _

theorem gains_bindCall (r : Routine) (id : Nat) (target : Target) :
    r.Gains { r with facts := r.facts.modify id fun k => { k with target := some target } } :=
  Routine.gains_facts fun k => persists_modify Fact.le_refl
    (f := fun k : Fact => { k with target := some target })
    (fun _ => ⟨TypeSet.le_refl _, .refl ReadSite.le_refl _⟩) id k

theorem made_bindCall {id : Nat} (hid : ¬ N id) (target : Target) : Made d N (bindCall id target) := by
  refine made_modifyRoutine fun r => ⟨⟨gains_bindCall r id target, rfl, fun h => h, rfl⟩, .inl,
    fun k hk ht => ?_⟩
  have hne : id ≠ k := by
    rintro rfl
    exact hid hk
  rw [Routine.target?_modify, if_neg hne] at ht
  exact .inl ht

theorem made_markCall (hd : d) (id : Nat) (target : Target) :
    Made d N (do addFlags { dynamicCall := true }; bindCall id target) := by
  have hone : (do addFlags { dynamicCall := true }; bindCall id target : Walk Unit) =
      modifyRoutine fun r => { r with
        flags := r.flags ∪ { dynamicCall := true }
        facts := r.facts.modify id fun k => { k with target := some target } } := rfl
  rw [hone]
  refine made_modifyRoutine fun r => ⟨?_, fun _ => .inr hd, fun k _ _ => .inr (Bool.or_true _)⟩
  have hbound : r.Improves { r with facts := r.facts.modify id fun k => { k with target := some target } } :=
    ⟨gains_bindCall r id target, rfl, fun h => h, rfl⟩
  exact hbound.trans (Routine.learns_addFlags _ rfl)

theorem made_noteRead (id var : Nat) (possibly certainly : Bool) :
    Made d N (noteRead id var possibly certainly) := by
  refine made_modifyFact id (fun k => ⟨TypeSet.le_refl _, ?_⟩) fun _ => rfl
  rcases k.read with _ | site
  · exact persists_none _ _
  · exact persists_some ⟨rfl, fun h => by simp [h], fun h => (Bool.and_eq_true _ _ ▸ h).1⟩

theorem made_updateScope {f : Scope → Except Fault (β × Scope)}
    (hf : ∀ s b s', f s = .ok (b, s') → s ≤ s') : Made d N (updateScope f) := by
  have heq : updateScope f = onRoutine fun r =>
      match f r.scope with
      | .ok (b, scope) => .ok (b, { r with scope })
      | .error e => .error e := by
    funext w
    rw [updateScope, getRoutine_bind, onRoutine]
    dsimp only
    rcases f w.routine.scope with e | ⟨b, scope⟩ <;> rfl
  rw [heq]
  refine .routine _ fun r b r' h => ?_
  rcases hscope : f r.scope with e | ⟨b', scope⟩ <;> rw [hscope] at h <;> cases h
  exact (Routine.gains_scope (hf _ _ _ hscope)).heeds rfl rfl fun _ => rfl

theorem made_useVar (name : String) : Made d N (useVar name) :=
  .routine (fun r => .ok ((r.scope.use name).1, { r with scope := (r.scope.use name).2 }))
    fun r _ _ h => by cases h; exact (Routine.gains_scope (Scope.le_use _ _)).heeds rfl rfl fun _ => rfl

theorem made_readVariable (id : Nat) (name : String) (quiet : Bool) :
    Made d N (readVariable id name quiet) := by
  refine (made_useVar name).bind fun var => made_getState.bind fun s => ?_
  split
  · exact (made_noteRead _ _ _ _).bind fun _ => made_pure _
  · exact made_pure _

theorem made_queue (b : Nat) : Made d N (queue b) :=
  made_modifyRoutine fun r => (Routine.gains_queue r b).heeds rfl rfl fun _ => rfl

theorem made_addFlags {f : Flags} (hf : f.callsDynamic = false) (hd : f.dynamicCall = false) :
    Made d N (addFlags f) := by
  refine made_modifyRoutine fun r => ⟨r.learns_addFlags hf, fun h => .inl ?_, fun _ _ => .inl⟩
  change (r.flags.dynamicCall || f.dynamicCall) = true at h
  rwa [hd, Bool.or_false] at h

/-! ### Steps that look at no facts -/

/-- What a step left, whether it has a result or has failed. -/
def walkerOf : EStateM.Result Fault Walker β → Walker
  | .ok _ w => w
  | .error _ w => w

/-- The walker with other facts. -/
def withFacts (w : Walker) (facts : Array Fact) : Walker :=
  { w with routine := { w.routine with facts } }

/-- What a step left, with other facts. -/
def resultWith (facts : Array Fact) :
    EStateM.Result Fault Walker β → EStateM.Result Fault Walker β
  | .ok b w => .ok b (withFacts w facts)
  | .error f w => .error f (withFacts w facts)

/-- The step neither looks at facts nor changes them. -/
def Blind (m : Walk β) : Prop := ∀ w facts, m (withFacts w facts) = resultWith facts (m w)

/-- The step loses no variable, gives none types and blocks no states. -/
def Declaring (m : Walk β) : Prop := ∀ w : Walker, w.routine.Declares (walkerOf (m w)).routine

theorem declaring_of_scope {m : Walk β}
    (h : ∀ w : Walker, (walkerOf (m w)).routine.scope = w.routine.scope ∧
      (walkerOf (m w)).routine.inputs = w.routine.inputs) : Declaring m :=
  fun w => Routine.declares_of_scope (h w).1 (h w).2

theorem declaring_useVar (name : String) : Declaring (useVar name) :=
  fun w => w.routine.declares_use name

/-! ### Steps on facts about some expressions -/

/-- The step is put together from steps on facts about expressions of `E` and steps that look at no
facts.  A dynamic call is bound and its routine marked at once.  The read of a variable and what is
recorded for it go together. -/
inductive Composed (c : Setting) (E : Set (Expr Nat)) : {β : Type} → Walk β → Prop
  | blind {β : Type} {m : Walk β} : Blind m → Declaring m → (∀ d N, Made d N m) → Composed c E m
  | record {e : Expr Nat} (s : TypeSet) : e ∈ E → Composed c E (record e.tag s)
  | recordedTypes {e : Expr Nat} : e ∈ E → Composed c E (recordedTypes e.tag)
  | bindCall {k : Nat} {name : String} {args : List (Expr Nat)} (target : Target) :
    .call k name args ∈ E → ¬ c.Dynamic name → Composed c E (bindCall k target)
  | markCall {k : Nat} {name : String} {args : List (Expr Nat)} (target : Target) :
    .call k name args ∈ E → c.Dynamic name →
    Composed c E (do addFlags { dynamicCall := true }; bindCall k target)
  | read {k : Nat} {name : String} (quiet : Bool) {rest : Walk Unit} : .var k name ∈ E → Blind rest →
    Declaring rest → (∀ d N, Made d N rest) → Composed c E (recorded k do
      let s ← readVariable k name quiet
      rest
      return s)
  | bind {β γ : Type} {m : Walk β} {f : β → Walk γ} : Composed c E m → (∀ b, Composed c E (f b)) →
    Composed c E (m >>= f)

/-- Dynamic calls in `E` are a reason for `d`, and those in `N` are dynamic. -/
def Watched (c : Setting) (d : Prop) (N : Nat → Prop) (E : Set (Expr Nat)) : Prop :=
  ∀ k name args, .call k name args ∈ E → (c.Dynamic name → d) ∧ (N k → c.Dynamic name)

variable {c : Setting} {E : Set (Expr Nat)}

theorem Composed.made {m : Walk β} (h : Composed c E m) (hE : Watched c d N E) : Made d N m := by
  induction h with
  | blind _ _ hmade => exact hmade d N
  | record s _ => exact made_record _ s
  | recordedTypes _ => exact made_recordedTypes _
  | bindCall target he hplain => exact made_bindCall (fun hk => hplain ((hE _ _ _ he).2 hk)) target
  | markCall target he hdynamic => exact made_markCall ((hE _ _ _ he).1 hdynamic) _ target
  | read quiet _ _ _ hmade =>
    refine .recorded ((made_readVariable _ _ quiet).bind fun s => ?_) _
    exact (hmade d N).bind fun _ => made_pure s
  | bind _ _ ihm ihf => exact ihm.bind ihf

theorem watched_any (c : Setting) (E : Set (Expr Nat)) : Watched c True (fun _ => False) E :=
  fun _ _ _ _ => ⟨fun _ => trivial, False.elim⟩

/-- Whatever the calls are, if nothing is asked of the mark. -/
theorem Composed.made_any {m : Walk β} (h : Composed c E m) : Made True (fun _ => False) m :=
  h.made (watched_any c E)

theorem composed_state (f : State → Except Fault (β × State)) : Composed c E (onState f) := by
  refine .blind (fun w facts => ?_) (declaring_of_scope fun w => ?_) fun _ _ => .state f
  · unfold onState
    rw [show (withFacts w facts).state = w.state from rfl]
    rcases f w.state with e | ⟨b, s⟩ <;> rfl
  · unfold onState
    rcases f w.state with e | ⟨b, s⟩ <;> exact ⟨rfl, rfl⟩

theorem composed_table {f : ShapeTable → Except Fault (β × ShapeTable)}
    (hf : ∀ t b t', f t = .ok (b, t') → t.Extends t') : Composed c E (onTable f) := by
  refine .blind (fun w facts => ?_) (declaring_of_scope fun w => ?_) fun _ _ => .table f hf
  · unfold onTable
    rw [show (withFacts w facts).table = w.table from rfl]
    rcases f w.table with e | ⟨b, t⟩ <;> rfl
  · unfold onTable
    rcases f w.table with e | ⟨b, t⟩ <;> exact ⟨rfl, rfl⟩

theorem composed_pure (b : β) : Composed c E (pure b : Walk β) := composed_state fun s => .ok (b, s)

theorem composed_throw (f : Fault) : Composed c E (throw f : Walk β) := composed_state fun _ => .error f

theorem composed_getState : Composed c E getState := composed_state fun s => .ok (s, s)

theorem composed_setState (s : State) : Composed c E (setState s) := composed_state fun _ => .ok ((), s)

theorem composed_modifyState (f : State → State) : Composed c E (modifyState f) :=
  composed_state fun s => .ok ((), f s)

theorem composed_intern (hf : ∀ t : ShapeTable, t.Extends (f t).2) : Composed c E (intern f) :=
  composed_table (f := fun t => .ok (f t)) fun t _ _ h => by
    have := hf t
    rw [Except.ok.inj h] at this
    exact this

theorem composed_getTable : Composed c E getTable :=
  composed_table (f := fun t => .ok (t, t)) fun t _ _ h => by cases h; exact .refl t

theorem Composed.discard {m : Walk β} (h : Composed c E m) : Composed c E (discard m) := by
  rw [discard_eq]
  exact h.bind fun _ => composed_pure _

theorem Composed.forM {f : β → Walk PUnit} : ∀ {l : List β}, (∀ a ∈ l, Composed c E (f a)) →
    Composed c E (l.forM f)
  | [], _ => composed_pure _
  | a :: _, h => (h a (.head _)).bind fun _ =>
      .forM fun b hb => h b (.tail _ hb)

theorem Composed.mapM {f : β → Walk γ} : ∀ {l : List β}, (∀ a ∈ l, Composed c E (f a)) →
    Composed c E (l.mapM f)
  | [], _ => composed_pure _
  | a :: l, h => by
    rw [mapM_cons]
    exact (h a (.head _)).bind fun _ =>
      (Composed.mapM fun b hb => h b (mem_cons_of_mem a hb)).bind fun _ => composed_pure _

theorem Composed.foldlM {f : γ → β → Walk γ} : ∀ {l : List β} (s : γ),
    (∀ a ∈ l, ∀ s, Composed c E (f s a)) → Composed c E (l.foldlM f s)
  | [], s, _ => composed_pure s
  | a :: l, s, h => by
    rw [foldlM_cons]
    exact (h a (.head _) s).bind fun s' =>
      .foldlM s' fun b hb => h b (.tail _ hb)

theorem Composed.recorded {m : Walk TypeSet} (h : Composed c E m) (he : e ∈ E) :
    Composed c E (recorded e.tag m) :=
  h.bind fun s => (Composed.record s he).bind fun _ => composed_pure s

theorem composed_ofExcept (x : Except Fault β) : Composed c E (ofExcept x) := by
  cases x with
  | error f => exact composed_throw f
  | ok b => exact composed_pure b

theorem composed_joinWith (before : State) : Composed c E (joinWith before) :=
  composed_getState.bind fun _ => (composed_ofExcept _).bind composed_setState

theorem composed_inspect (f : ShapeTable → Option TypeSet) : Composed c E (inspect f) := by
  apply composed_getTable.bind
  intro t
  split
  · exact composed_pure _
  · exact composed_throw _

theorem composed_useVar (name : String) : Composed c E (useVar name) :=
  .blind (fun _ _ => rfl) (declaring_useVar name) fun _ _ => made_useVar name

/-- A step on the variables, if it loses none and gives none types. -/
theorem composed_updateScope {f : Scope → Except Fault (β × Scope)}
    (hle : ∀ s b s', f s = .ok (b, s') → s ≤ s')
    (hf : ∀ (r : Routine) b s', f r.scope = .ok (b, s') → r.Declares { r with scope := s' }) :
    Composed c E (updateScope f) := by
  refine .blind (fun w facts => ?_) (fun w => ?_) fun _ _ => made_updateScope hle
  · show EStateM.bind (ofExcept (f w.routine.scope)) _ (withFacts w facts) =
      resultWith facts (EStateM.bind (ofExcept (f w.routine.scope)) _ w)
    rcases f w.routine.scope with e | ⟨b, scope⟩ <;> rfl
  · show w.routine.Declares (walkerOf (EStateM.bind (ofExcept (f w.routine.scope)) _ w)).routine
    rcases hscope : f w.routine.scope with e | ⟨b, scope⟩
    · exact .refl _
    · exact hf _ _ _ hscope

theorem composed_markAliased (var : Nat) : Composed c E (markAliased var) :=
  composed_updateScope (fun s _ _ h => Scope.markAliased_ok h ▸ s.le_alias _) fun r _ _ h =>
    Scope.markAliased_ok h ▸ ⟨r.scope.le_alias _, fun _ => rfl, rfl⟩

theorem composed_addFlags {f : Flags} (hf : f.callsDynamic = false) (hd : f.dynamicCall = false) :
    Composed c E (addFlags f) :=
  .blind (fun _ _ => rfl) (declaring_of_scope fun _ => ⟨rfl, rfl⟩) fun _ _ => made_addFlags hf hd

theorem composed_varOf? (e : Expr Nat) : Composed c E (varOf? e) := by
  unfold varOf?
  cases e.varName? with
  | none => exact composed_pure none
  | some name => exact (composed_useVar name).bind fun i => composed_pure (some i)

theorem composed_ifVar (e : Expr Nat) {f : Nat → Walk Unit} (hf : ∀ var, Composed c E (f var)) :
    Composed c E (do if let some var ← varOf? e then f var) := by
  apply (composed_varOf? e).bind
  intro var
  cases var with
  | none => exact composed_pure ()
  | some var => exact hf var

/-! ### Conditions -/

theorem composed_learn (e : Expr Nat) {clue : Clue}
    (h : ∀ limit other, clue = .limit limit other → other ∈ E) : Composed c E (learn e clue) := by
  cases clue with
  | test q outcome =>
    exact composed_ifVar e fun var => composed_getTable.bind fun t => composed_modifyState _
  | isA className =>
    exact composed_ifVar e fun var =>
      (composed_intern fun t => ShapeTable.extends_intern t _).bind fun s => composed_modifyState _
  | limit limit other =>
    have hint : Composed c E (isIntSoFar other.tag) := composed_getTable.bind fun t =>
      (Composed.recordedTypes (h limit other rfl)).bind fun _ => composed_pure _
    refine hint.bind fun known => ?_
    cases known
    · exact composed_pure ()
    · exact composed_ifVar e fun var => composed_modifyState _

theorem composed_narrow (he : ∀ x ∈ e.walk, x ∈ E) (outcome : Bool) :
    Composed c E (narrow e outcome) := by
  rw [narrow_eq]
  refine .forM fun p hp => composed_learn p.1 fun limit other hclue => ?_
  have hother : other ∈ e.operands := Expr.limit_mem_clues hp hclue
  exact he other (Expr.mem_walk_of_operand hother other.mem_walk_self)

theorem composed_narrowTo (he : ∀ x ∈ e.walk, x ∈ E) (b : Branch) :
    Composed c E (narrowTo e b) := by
  cases b with
  | either => exact composed_pure ()
  | holds => exact composed_narrow he true
  | fails => exact composed_narrow he false

/-! ### Expressions -/

variable {m l r : Meaning} {k : Nat}

/-- Whatever the meaning is used for. -/
structure Meaning.IsComposed (c : Setting) (E : Set (Expr Nat)) (m : Meaning) : Prop where
  value : Composed c E m.value
  quiet : Composed c E m.quiet
  assume : ∀ b, Composed c E (m.assume b)
  store : ∀ s, Composed c E (m.store s)

theorem isComposed_ofValue (he : ∀ x ∈ e.walk, x ∈ E) {step : Walk TypeSet} (h : Composed c E step) :
    (Meaning.ofValue e step).IsComposed c E where
  value := h.recorded (he e e.mem_walk_self)
  quiet := h.recorded (he e e.mem_walk_self)
  assume b := .recorded (h.bind fun s => (composed_narrowTo he b).bind fun _ => composed_pure s)
    (he e e.mem_walk_self)
  store _ := (h.recorded (he e e.mem_walk_self)).discard

theorem isComposed_ofCondition (he : e ∈ E) {step : Branch → Walk Unit}
    (h : ∀ b, Composed c E (step b)) : (Meaning.ofCondition e step).IsComposed c E := by
  have hassume : ∀ b, Composed c E ((Meaning.ofCondition e step).assume b) := fun b =>
    .recorded ((h b).bind fun _ => composed_pure _) he
  exact ⟨hassume .either, hassume .either, hassume, fun _ => (hassume .either).discard⟩

theorem isComposed_var (he : .var k name ∈ E) :
    ((Expr.var k name).meaning c).IsComposed c E := by
  have hread : ∀ quiet, Composed c E (recorded k (readVariable k name quiet)) := by
    intro quiet
    have := @Composed.read c E k name quiet (pure ()) he (fun _ _ => rfl)
      (declaring_of_scope fun _ => ⟨rfl, rfl⟩) fun _ _ => made_pure ()
    simpa only [pure_bind, bind_pure] using this
  rw [meaning]
  refine ⟨hread false, hread true, fun b => Composed.read false he ?_ ?_ fun _ _ => ?_, fun s => ?_⟩
  · cases b <;> exact fun _ _ => rfl
  · cases b with
    | holds => exact declaring_useVar name
    | either | fails => exact declaring_of_scope fun _ => ⟨rfl, rfl⟩
  · cases b with
    | holds => exact (made_useVar name).bind fun var => made_modifyState _
    | either | fails => exact made_pure ()
  · exact (composed_useVar name).bind fun var => (composed_modifyState _).bind fun _ =>
      Composed.record s he

theorem Meaning.IsComposed.branchStates (h : m.IsComposed c E) : Composed c E m.branchStates :=
  composed_getState.bind fun _ => (h.assume .holds).bind fun _ => composed_getState.bind fun _ =>
    (composed_setState _).bind fun _ => (h.assume .fails).bind fun _ => composed_getState.bind fun _ =>
      composed_pure _

theorem Meaning.IsComposed.maybeValue (h : m.IsComposed c E) : Composed c E m.maybeValue :=
  composed_getState.bind fun _ => h.value.bind fun s =>
    (composed_joinWith _).bind fun _ => composed_pure s

theorem Meaning.IsComposed.storeElement (h : m.IsComposed c E) (value : TypeSet) :
    Composed c E (m.storeElement value) := by
  have heq : m.storeElement value = m.quiet >>= fun old =>
      (onTable fun t =>
        match t.updated old value with
        | some x => .ok x
        | none => .error .unknownShape) >>= m.store := by
    unfold Meaning.storeElement
    congr 1
    funext old w
    rw [getTable_bind]
    show _ = EStateM.bind _ _ _
    simp only [EStateM.bind, onTable]
    rcases w.table.updated old value with _ | ⟨new, table⟩ <;> rfl
  rw [heq]
  refine h.quiet.bind fun old => .bind (composed_table fun t new t' hnew => ?_) h.store
  rcases hupdated : t.updated old value with _ | x <;> rw [hupdated] at hnew <;> cases hnew
  exact ShapeTable.extends_updated hupdated

theorem composed_shortCircuit (runs : Branch) (hl : l.IsComposed c E) (hr : r.IsComposed c E) (b : Branch) :
    Composed c E (Meaning.shortCircuit runs l r b) := by
  unfold Meaning.shortCircuit
  split
  · exact (hl.assume runs).bind fun _ => (hr.assume b).bind fun _ => composed_pure ()
  · exact composed_getState.bind fun start => (hl.assume runs.negate).bind fun _ =>
      composed_getState.bind fun decided => (composed_setState start).bind fun _ =>
        (hl.assume runs).bind fun _ => (hr.assume b).bind fun _ => composed_joinWith decided

theorem composed_callOne (k : Nat) (name : String) (args : List (Expr Nat)) (types : Tuple)
    (callee : Nat) : Composed c E (callOne c k name args types callee) := by
  unfold callOne
  rcases c.signatures[callee]? with _ | sig
  · exact composed_throw _
  · have hlog : Composed c E (modify fun w : Walker => withCall w
        { caller := w.routine.id, callee, site := k, block := c.block,
          argExprs := args.map Expr.tag, argTypes := types } : Walk Unit) :=
      .blind (fun _ _ => rfl) (declaring_of_scope fun _ => ⟨rfl, rfl⟩) fun _ _ =>
        Made.call ⟨0, callee, k, c.block, args.map Expr.tag, types⟩
    refine hlog.bind fun _ => .bind (.forM fun p _ => ?_) fun _ => composed_pure _
    obtain ⟨arg, n⟩ := p
    dsimp only
    split
    · exact composed_ifVar arg fun var =>
        (composed_markAliased var).bind fun _ => composed_modifyState _
    · exact composed_pure ()

theorem composed_call {args : List (Expr Nat)} (he : .call k name args ∈ E)
    (hargs : ∀ a ∈ args, (a.meaning c).IsComposed c E) :
    Composed c E (call c k name args (Expr.meanings c args)) := by
  have hbind : ∀ (target : Target) (s : TypeSet), ¬ c.Dynamic name →
      Composed c E (do bindCall k target; return s) :=
    fun target s hplain => (Composed.bindCall target he hplain).bind fun _ => composed_pure s
  rw [call_eq, argTypes_eq]
  refine .bind (.mapM fun p hp => ?_) fun types => ?_
  · have ha := hargs p.1 (fst_mem_of_mem_zipIdx hp)
    dsimp only
    split
    · exact ha.quiet.bind fun _ => composed_pure _
    · exact ha.value.bind fun _ => composed_pure _
  · split
    next hcands =>
      split
      next f hf =>
        split
        next hdynamic =>
          have hmark := Composed.markCall (c.bind name types) he
            ⟨isEmpty_iff.1 hcands, f, hf, hdynamic⟩
          exact hmark.bind fun _ => composed_pure _
        next hplain =>
          refine hbind _ _ fun ⟨_, f', hf', hdynamic⟩ => hplain ?_
          obtain rfl := Option.mem_unique hf hf'
          exact hdynamic
      next hnone =>
        refine hbind _ _ fun ⟨_, f', hf', _⟩ => ?_
        rw [hnone] at hf'
        cases hf'
    next hcands =>
      refine .bind (.foldlM _ fun callee _ s => ?_) fun s =>
        hbind _ s fun hdynamic => hcands (isEmpty_iff.2 hdynamic.1)
      exact (composed_callOne k name args types callee).bind fun _ => composed_pure _

theorem extends_result (e : Expr Nat) (types : List TypeSet) (t : ShapeTable) :
    t.Extends (e.result types t).2 := by
  unfold Expr.result
  split <;> first
    | exact .refl t
    | exact ShapeTable.extends_intern t _
    | exact ShapeTable.extends_arrayOf t _

theorem composed_gather (h : ∀ x ∈ e.operands, (x.meaning c).IsComposed c E) :
    Composed c E (e.gather c) := by
  refine .bind (.mapM fun x hx => ?_) fun types => composed_intern (extends_result e types)
  rcases e.look_cases with heq | heq <;> rw [heq]
  · exact (h x hx).value
  · exact (h x hx).quiet

theorem composed_choose {m : Meaning} {yes no : Walk TypeSet} (hcond : m.IsComposed c E)
    (hyes : Composed c E yes) (hno : Composed c E no) : Composed c E (m.choose yes no) :=
  hcond.branchStates.bind fun _ => (composed_setState _).bind fun _ => hyes.bind fun _ =>
    composed_getState.bind fun _ => (composed_setState _).bind fun _ => hno.bind fun _ =>
      (composed_joinWith _).bind fun _ => composed_pure _

/-- **An expression does not look outside.**  Its steps touch facts about the expressions inside it
only. -/
theorem composed_meaning (he : ∀ x ∈ e.walk, x ∈ E) : (e.meaning c).IsComposed c E := by
  induction e using Expr.induct_operands with
  | _ e ih =>
  replace ih : ∀ x ∈ e.operands, (x.meaning c).IsComposed c E := fun x hx =>
    ih x hx fun y hy => he y (Expr.mem_walk_of_operand hx hy)
  have hown : e ∈ E := he e e.mem_walk_self
  -- the three ways a meaning is built: from places, values and conditions
  have hplace : ∀ step quiet store, e.meaning c =
      { Meaning.ofValue e step with quiet := recorded e.tag quiet, store } →
      Composed c E step → Composed c E quiet → (∀ s, Composed c E (store s)) →
      (e.meaning c).IsComposed c E := by
    intro step quiet store heq hstep hquiet hstore
    rw [heq]
    exact { isComposed_ofValue he hstep with quiet := hquiet.recorded hown, store := hstore }
  have hvalue : ∀ step, e.meaning c = .ofValue e step → Composed c E step → (e.meaning c).IsComposed c E :=
    fun step heq hstep => heq ▸ isComposed_ofValue he hstep
  have hcondition : ∀ step, e.meaning c = .ofCondition e step → (∀ b, Composed c E (step b)) →
      (e.meaning c).IsComposed c E := fun step heq hstep => heq ▸ isComposed_ofCondition hown hstep
  by_cases hplain : e.IsPlain
  · exact hvalue _ (Expr.meaning_plain hplain c) (composed_gather ih)
  cases e with
  | var j name => exact isComposed_var hown
  | assign j target value =>
    have ht := ih target (.head _)
    have hv := ih value (.tail _ (.head _))
    exact hvalue _ (by rw [meaning])
      (hv.value.bind fun s => (ht.store _).bind fun _ => composed_pure _)
  | update j op target value =>
    have ht := ih target (.head _)
    have hv := ih value (.tail _ (.head _))
    have hstore : ∀ s, Composed c E (do (target.meaning c).store s; return s) := fun s =>
      (ht.store s).bind fun _ => composed_pure s
    refine hvalue _ (by rw [meaning]) (ht.value.bind fun old => ?_)
    split
    · exact hv.maybeValue.bind fun v => hstore _
    · exact hv.value.bind fun v => composed_getTable.bind fun t => hstore _
  | step j op target =>
    have ht := ih target (.head _)
    refine hvalue _ (by rw [meaning]) (ht.value.bind fun old => ?_)
    refine (composed_varOf? target).bind fun var => ?_
    cases var with
    | none => exact (ht.store _).bind fun _ => composed_pure _
    | some var =>
      exact composed_getTable.bind fun t => composed_getState.bind fun s =>
        (ht.store _).bind fun _ => composed_pure _
  | binary j op l r =>
    have hl := ih l (.head _)
    have hr := ih r (.tail _ (.head _))
    rcases BinOp.of_not_isPlain hplain with rfl | rfl | rfl
    · exact hcondition _ (by rw [meaning]) (composed_shortCircuit .holds hl hr)
    · exact hcondition _ (by rw [meaning]) (composed_shortCircuit .fails hl hr)
    · refine hvalue _ (by rw [meaning]) ?_
      exact hl.quiet.bind fun s => hr.maybeValue.bind fun t => composed_pure _
  | unary j op operand =>
    obtain rfl : op = .not := not_not.1 hplain
    exact hcondition _ (by rw [meaning]) fun b => ((ih operand (.head _)).assume b.negate).discard
  | field j object name =>
    exact hplace _ _ _ (by rw [meaning, ← Expr.gather_field]; rfl) (composed_gather ih)
      (composed_gather ih) fun s => (ih object (.head _)).value.bind fun _ => Composed.record s hown
  | choose j cond yes no =>
    have hyes := ih yes (.tail _ (.head _))
    have hno := ih no (by simp [Expr.operands])
    exact hvalue _ (by rw [meaning]) (composed_choose (ih cond (.head _)) hyes.value hno.value)
  | orElse j cond no =>
    have hmem : cond ∈ E :=
      he cond (Expr.mem_walk_of_operand (.head _) cond.mem_walk_self)
    exact hvalue _ (by rw [meaning]) (composed_choose (ih cond (.head _))
      ((Composed.recordedTypes hmem).bind fun _ => composed_pure _) (ih no (.tail _ (.head _))).value)
  | call j name args => exact hvalue _ (by rw [meaning]) (composed_call hown ih)
  | item j array key =>
    have ha := ih array (.head _)
    have hk := ih key (.tail _ (.head _))
    refine hplace _ _ _ (by rw [meaning]; rfl)
      (ha.value.bind fun s => hk.value.bind fun _ => composed_inspect _)
      (ha.quiet.bind fun s => hk.value.bind fun _ => composed_inspect _) fun s => ?_
    exact hk.value.bind fun _ => (ha.storeElement s).bind fun _ => Composed.record s hown
  | append j array =>
    exact hplace _ _ _ (by rw [meaning, ← Expr.gather_append]; rfl) (composed_gather ih)
      (composed_gather ih) fun s => ((ih array (.head _)).storeElement s).bind fun _ =>
        Composed.record s hown
  | _ => exact absurd trivial hplain

theorem composed_self (c : Setting) (e : Expr Nat) : (e.meaning c).IsComposed c {x | x ∈ e.walk} :=
  composed_meaning fun _ hx => hx

/-! ### Blocks -/

theorem composed_getScope {f : Scope → Walk β} (hf : ∀ s, Composed c E (f s)) :
    Composed c E (getRoutine >>= fun r => f r.scope) := by
  have hget : Composed c E (fun w => .ok w.routine.scope w : Walk Scope) :=
    .blind (fun _ _ => rfl) (declaring_of_scope fun _ => ⟨rfl, rfl⟩) fun _ _ =>
      made_getRoutine.bind fun r => made_pure r.scope
  exact hget.bind hf

theorem composed_addKept (var : Nat) (t : TypeSet) :
    Composed c E (updateScope (·.addKept var t)) := by
  refine composed_updateScope (fun _ _ _ h => Scope.le_addKept h) fun r b s' h =>
    ⟨Scope.le_addKept h, fun i => ?_, rfl⟩
  obtain ⟨v, all, hv, -, rfl⟩ := Scope.addKept_ok h
  unfold Routine.merged
  rw [getElem?_set]
  split
  next heq =>
    subst heq
    rw [if_pos (List.getElem?_eq_some_iff.1 hv).1, hv]
    rfl
  next => rfl

theorem composed_queue (b : Nat) : Composed c E (queue b) :=
  .blind (fun _ _ => rfl) (declaring_of_scope fun _ => ⟨rfl, rfl⟩) fun _ _ => made_queue b

theorem composed_keep (var : Nat) (t : TypeSet) : Composed c E (keep c var t) := by
  refine (composed_addKept var t).bind fun grew => ?_
  split
  · exact (composed_queue _).bind fun _ => composed_queue _
  · exact composed_pure ()

theorem composed_optValue {o : Option (Expr Nat)} (ho : ∀ e ∈ o.toList, ∀ x ∈ e.walk, x ∈ E) :
    Composed c E (optValue c o) := by
  cases o with
  | none => exact composed_pure _
  | some e => exact (composed_meaning (ho e (.head _))).value

theorem composed_op {o : Op Nat} (ho : ∀ e ∈ o.exprs, ∀ x ∈ e.walk, x ∈ E) :
    Composed c E (op c o) := by
  cases o with
  | eval e => exact (composed_meaning (ho e (.head _))).value.discard
  | static name init =>
    rw [op_static]
    refine (composed_addFlags rfl rfl).bind fun _ => (composed_useVar name).bind fun var => ?_
    refine (composed_optValue ho).bind fun first => .bind ?_ fun _ => ?_
    · refine .blind (fun _ _ => rfl) (declaring_of_scope fun _ => ⟨rfl, rfl⟩) fun _ _ =>
        made_modifyRoutine fun r => ?_
      exact (Routine.gains_marks r r.status _ r.pending r.flags).heeds rfl rfl fun _ => rfl
    · refine composed_getScope (f := fun s => do
        let held ← ofExcept (s.get var)
        keep c var (first ∪ held.types.plain)
        let r ← getRoutine
        modifyState (·.assign var ((r.scope.kept? var).getD (first ∪ held.types.plain)))) fun s => ?_
      refine (composed_ofExcept _).bind fun held => (composed_keep var _).bind fun _ => ?_
      exact composed_getScope (f := fun s => modifyState (·.assign var ((s.kept? var).getD _)))
        fun s => composed_modifyState _
  | global names =>
    refine (composed_addFlags rfl rfl).bind fun _ => .forM fun name _ => ?_
    exact (composed_useVar name).bind fun var => (composed_markAliased var).bind fun _ =>
      composed_modifyState _
  | unset names =>
    exact .forM fun name _ => (composed_useVar name).bind fun var => composed_modifyState _

theorem composed_loopTypes (s : TypeSet) : Composed c E (loopTypes s) := by
  refine composed_getTable.bind fun t => ?_
  split
  · exact composed_pure _
  · exact composed_inspect _

theorem composed_loopKey (done : State) (key : Option String) : Composed c E (loopKey done key) := by
  cases key with
  | none => exact composed_pure _
  | some name => exact (composed_useVar name).bind fun _ => composed_pure _

theorem composed_wayOut {x : Exit Nat} (hx : ∀ e ∈ x.exprs, ∀ y ∈ e.walk, y ∈ E) :
    Composed c E (wayOut c x) := by
  cases x with
  | fall => exact composed_getState.bind fun _ => composed_pure _
  | branch cond =>
    exact (composed_meaning (hx cond (.head _))).branchStates.bind fun _ => composed_pure _
  | each source key value =>
    refine (composed_meaning (hx source (.head _))).value.bind fun s => ?_
    exact (composed_loopTypes s).bind fun _ => composed_getState.bind fun _ =>
      (composed_loopKey _ key).bind fun _ => (composed_useVar value).bind fun _ => composed_pure _
  | ret e =>
    exact (composed_optValue hx).bind fun _ => composed_getState.bind fun _ => composed_pure _

theorem made_addTypes (var : Nat) (t : TypeSet) : Made d N (updateScope (·.addTypes var t)) :=
  made_updateScope fun _ _ _ h => Scope.le_addTypes h

theorem made_commit (s : State) : Made d N (commit s) := by
  refine .forM fun p _ => made_getRoutine.bind fun r => (made_addTypes _ _).bind fun grew => ?_
  split
  · split
    · exact (made_queue _).bind fun _ => made_queue _
    · exact made_pure ()
  · exact made_pure ()

theorem made_flowInto (b : Nat) (s : State) : Made d N (flowInto b s) := by
  have heq : flowInto b s = onRoutine fun r =>
      match r.flowInto b s with
      | .ok (_, r') => .ok ((), r')
      | .error e => .error e := by
    funext w
    rw [flowInto, getRoutine_bind, onRoutine]
    dsimp only
    rcases w.routine.flowInto b s with e | ⟨changed, r'⟩ <;> rfl
  rw [heq]
  refine .routine _ fun r _ r' h => ?_
  rcases hflow : r.flowInto b s with e | ⟨changed, r''⟩ <;> rw [hflow] at h <;> cases h
  exact Routine.heeds_flowInto hflow

theorem made_propagate (yes no : State) : Made d N (propagate c yes no) :=
  made_getRoutine.bind fun _ => .forM fun _ _ => made_flowInto _ _

theorem made_depart : ∀ way, Made d N (depart c way)
  | .onward _ _ _ => (Made.forM fun s _ => made_commit s).bind fun _ => made_propagate _ _
  | .back _ _ => (made_commit _).bind fun _ => made_modifyRoutine fun _ =>
    (Routine.gains_scope (Scope.le_addReturn _ _)).heeds rfl rfl fun _ => rfl

theorem made_body {k : Block Nat} (hk : ∀ e ∈ k.roots, ∀ x ∈ e.walk, x ∈ E) (hE : Watched c d N E)
    (s : State) : Made d N (do setState s; k.ops.forM (op c); exit c k.exit) := by
  refine (made_setState s).bind fun _ => (Made.forM fun o ho => ?_).bind fun _ => ?_
  · refine (composed_op fun e he => hk e ?_).made hE
    exact mem_append_left _ (mem_flatMap.2 ⟨o, ho, he⟩)
  · rw [exit_eq]
    exact ((composed_wayOut fun e he => hk e (mem_append_right _ he)).made hE).bind made_depart

/-- **A walk through a block is made of steps.** -/
theorem made_block (c : Setting) : Made True (fun _ => False) (block c) := by
  refine made_getRoutine.bind fun r => ?_
  split
  · exact made_throw _
  next s _ =>
    rcases hk : r.graph.blocks[c.block]? with _ | k
    · simp only
      exact (made_setState s).bind fun _ => made_pure ()
    · exact made_body (fun _ _ _ _ => Set.mem_univ _) (watched_any c Set.univ) s

/-- **Draining a routine is made of steps.** -/
theorem made_drain (c : Nat → Setting) : ∀ bound, Made True (fun _ => False) (drain c bound)
  | 0 => by
    refine made_getRoutine.bind fun r => ?_
    split
    · exact made_throw _
    · exact made_pure ()
  | bound + 1 => by
    refine made_getRoutine.bind fun r => ?_
    split
    · exact made_pure ()
    · refine .bind (made_modifyRoutine fun r => ?_) fun _ =>
        (made_block _).bind fun _ => made_drain c bound
      exact (Routine.gains_marks r r.status r.sites _ r.flags).heeds rfl rfl fun _ => rfl

end Steps

/-! ### What steps do -/

/-- Shapes, calls and what is known of the routine are only added to. -/
structure Walker.Gains (d : Prop) (N : Nat → Prop) (w w' : Walker) : Prop where
  table : w.table.Extends w'.table
  calls : ∀ i : Nat, Climbs w.calls.edges[i]? w'.calls.edges[i]?
  routine : w.routine.Heeds d N w'.routine

section Made

variable {β : Type} {m : Walk β} {w w' w'' : Walker} {d : Prop} {N : Nat → Prop}

theorem Walker.Gains.refl (w : Walker) : w.Gains d N w :=
  ⟨.refl _, fun _ => .refl CallEdge.le_refl _, .refl _⟩

theorem Walker.Gains.trans (h : w.Gains d N w') (h' : w'.Gains d N w'') : w.Gains d N w'' :=
  ⟨h.table.trans h'.table,
    fun i => (h.calls i).trans (fun _ _ _ => CallEdge.le_trans) (h'.calls i),
    h.routine.trans h'.routine⟩

/-- **Nothing that is known is lost**, also by a walk that fails. -/
theorem Made.gains (h : Made d N m) (w : Walker) :
    Ends (fun _ w' => w.Gains d N w') m w fun _ w' => w.Gains d N w' := by
  induction h generalizing w with
  | state f =>
    unfold Ends onState
    rcases f w.state with e | ⟨b, s⟩
    · exact .refl w
    · exact ⟨.refl _, fun _ => .refl CallEdge.le_refl _, .refl _⟩
  | table f hf =>
    unfold Ends onTable
    rcases hstep : f w.table with e | ⟨b, t⟩
    · exact .refl w
    · exact ⟨hf _ _ _ hstep, fun _ => .refl CallEdge.le_refl _, .refl _⟩
  | routine f hf =>
    unfold Ends onRoutine
    rcases hstep : f w.routine with e | ⟨b, r⟩
    · exact .refl w
    · exact ⟨.refl _, fun _ => .refl CallEdge.le_refl _, hf _ _ _ hstep⟩
  | call e =>
    exact ⟨.refl _, CallGraph.climbs_add _ _, .refl _⟩
  | bind _ _ ihm ihf =>
    refine (ihm w).andThen fun b w1 h1 => ?_
    exact (ihf b w1).mono (fun _ _ h2 => h1.trans h2) fun _ _ h2 => h1.trans h2

end Made
end Infer

/-- Adds the calls one by one. -/
def CallGraph.addAll (g : CallGraph) (es : List CallEdge) : CallGraph :=
  es.foldl (fun g e => (g.add e).2) g

theorem CallGraph.addAll_append (g : CallGraph) (es ds : List CallEdge) :
    g.addAll (es ++ ds) = (g.addAll es).addAll ds := foldl_append

namespace Infer

/-- The walker after it has logged the calls. -/
def Walker.logged (w : Walker) (calls : CallGraph) (reports : Array (Nat × Tuple))
    (es : List CallEdge) : Walker :=
  { w with
    calls := calls.addAll es
    reports := reports ++ (es.map fun e => (e.callee, e.argTypes)).toArray }

/-- What a step comes to when it logs the calls `es` after others. -/
def relog {β : Type} (calls : CallGraph) (reports : Array (Nat × Tuple)) (es : List CallEdge) :
    EStateM.Result Fault Walker β → EStateM.Result Fault Walker β
  | .ok b w => .ok b (w.logged calls reports es)
  | .error f w => .error f (w.logged calls reports es)

theorem Walker.logged_nil (w : Walker) (calls : CallGraph) (reports : Array (Nat × Tuple)) :
    w.logged calls reports [] = { w with calls, reports } := by
  simp [logged, CallGraph.addAll]

theorem Walker.logged_logged (w : Walker) (calls : CallGraph) (reports : Array (Nat × Tuple))
    (es ds : List CallEdge) :
    w.logged (calls.addAll es) (reports ++ (es.map fun e => (e.callee, e.argTypes)).toArray) ds =
      w.logged calls reports (es ++ ds) := by
  unfold logged
  rw [CallGraph.addAll_append, map_append, ← append_toArray, Array.append_assoc]

/-- **What was logged before makes no difference to a walk.**  It logs some calls of its
routine, always the same. -/
theorem Made.logs {β : Type} {m : Walk β} {d : Prop} {N : Nat → Prop} (h : Made d N m) (w : Walker) :
    ∃ es : List CallEdge, (∀ e ∈ es, e.caller = w.routine.id) ∧
      ∀ calls reports, m { w with calls, reports } = relog calls reports es (m w) := by
  induction h generalizing w with
  | state f =>
    refine ⟨[], by simp, fun calls reports => ?_⟩
    unfold onState
    rcases f w.state with e | ⟨b, s⟩ <;> simp only [relog, Walker.logged_nil]
  | table f hf =>
    refine ⟨[], by simp, fun calls reports => ?_⟩
    unfold onTable
    rcases f w.table with e | ⟨b, t⟩ <;> simp only [relog, Walker.logged_nil]
  | routine f hf =>
    refine ⟨[], by simp, fun calls reports => ?_⟩
    unfold onRoutine
    rcases f w.routine with e | ⟨b, r⟩ <;> simp only [relog, Walker.logged_nil]
  | call e =>
    refine ⟨[{ e with caller := w.routine.id }], by simp, fun calls reports => ?_⟩
    refine congrArg (EStateM.Result.ok ()) ?_
    simp [Walker.logged, CallGraph.addAll, withCall]
  | @bind β γ m f hm _ ihm ihf =>
    obtain ⟨es, hes, hlog⟩ := ihm w
    rcases hrun : m w with ⟨b, w1⟩ | ⟨e, w1⟩
    · obtain ⟨ds, hds, hlog'⟩ := ihf b w1
      have hid : w1.routine.id = w.routine.id := ((hm.gains w).ok hrun).routine.id_eq
      refine ⟨es ++ ds, fun e he => ?_, fun calls reports => ?_⟩
      · rcases mem_append.1 he with he | he
        · exact hes e he
        · exact (hds e he).trans hid
      · have hfirst : m { w with calls, reports } = .ok b (w1.logged calls reports es) := by
          rw [hlog, hrun]
          rfl
        rw [bind_of_ok hfirst, bind_of_ok hrun, Walker.logged, hlog']
        rcases f b w1 with ⟨c, w2⟩ | ⟨e, w2⟩ <;>
          simp only [relog, Walker.logged_logged]
    · refine ⟨es, hes, fun calls reports => ?_⟩
      show EStateM.bind m f _ = relog calls reports es (EStateM.bind m f w)
      unfold EStateM.bind
      rw [hlog, hrun]
      rfl

end Infer
end ShapeFlow
