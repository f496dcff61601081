/-
# The analysis follows the code

Whatever types it finds, a walk marks variables as initialized just as the code
it goes through initializes them.  A block hands what is initialized after it to
its successors: each of them takes it in, and they take in nothing else.

Key definitions: `Follows`, `Tracks`, `Hands`.
Key theorems: `Infer.effect_tracks`, `Infer.block_hands`.
-/
import ShapeFlow.Proofs.Draining
import ShapeFlow.Proofs.Initialization

namespace ShapeFlow

open ShapeFlow.Flow Infer List
open ShapeFlow.Expr (effect meaning)

/-- The index of a variable. -/
def Routine.index (r : Routine) (name : String) : Nat := r.scope.names.idxOf name

namespace Infer

variable {r : Routine} {w : Walker}

/-- The routine has the variables of `r`. -/
abbrev SameVars (r : Routine) (w : Walker) : Prop := w.routine.scope.names = r.scope.names

/-- In the middle of a block of `r`, at a point where `m` is initialized. -/
structure Follows (r : Routine) (m : Inits) (w : Walker) : Prop where
  names : w.routine.scope.names = r.scope.names
  graph : w.routine.graph = r.graph
  inputs : w.routine.inputs = r.inputs
  inits : w.state.inits = m

/-- If the step does not fail, it ends as `Q` says. -/
abbrev Yields {β : Type} (m : Walk β) (w : Walker) (Q : β → Walker → Prop) : Prop :=
  Ends (fun _ _ => True) m w Q

/-- The step initializes as `T` says, if it does not fail. -/
def Tracks {β : Type} (r : Routine) (m : Walk β) (T : Inits → Inits) : Prop :=
  ∀ (x : Inits) (w : Walker), Follows r x w → Yields m w fun _ w' => Follows r (T x) w'

section Tracks

variable {β γ : Type} {T U : Inits → Inits}

theorem Tracks.pure (b : β) : Tracks r (pure b : Walk β) fun x => x :=
  fun _ _ hw => hw

variable {m : Walk β} {f : β → Walk γ} {F : Inits → β → Inits}

theorem Tracks.andThen {Q : γ → Walker → Prop} {x : Inits} (hm : Tracks r m T) (hw : Follows r x w)
    (hf : ∀ b w', Follows r (T x) w' → Yields (f b) w' Q) : Yields (m >>= f) w Q :=
  (hm x w hw).andThen hf

theorem Tracks.bind (hm : Tracks r m T) (hf : ∀ b, Tracks r (f b) U) :
    Tracks r (m >>= f) fun x => U (T x) :=
  fun x _ hw => hm.andThen hw fun b w' hw' => hf b (T x) w' hw'

theorem Tracks.congr (hm : Tracks r m T) (h : ∀ x, T x = U x) : Tracks r m U :=
  funext h ▸ hm

theorem Tracks.discard (hm : Tracks r m T) : Tracks r (discard m) T := by
  intro x w hw
  rw [discard_eq]
  exact (hm.bind fun _ => .pure _) x w hw

theorem Tracks.forM {f : β → Walk Unit} :
    ∀ {l : List β}, (∀ a ∈ l, Tracks r (f a) fun x => F x a) →
    Tracks r (l.forM f) fun x => l.foldl F x
  | [], _ => .pure ()
  | a :: _, h => (h a (.head _)).bind fun _ =>
      .forM fun b hb => h b (.tail _ hb)

theorem Tracks.mapM :
    ∀ {l : List β}, (∀ a ∈ l, Tracks r (f a) fun x => F x a) →
    Tracks r (l.mapM f) fun x => l.foldl F x
  | [], _ => .pure []
  | a :: l, h => by
    rw [mapM_cons]
    have hrest : Tracks r (l.mapM f) fun x => l.foldl F x := .mapM fun b hb => h b (.tail _ hb)
    exact (h a (.head _)).bind fun b => hrest.bind fun _ => .pure _

/-- The step changes nothing that matters for initialization. -/
abbrev Still (r : Routine) (m : Walk β) : Prop := Tracks r m fun x => x

theorem Still.bind (hm : Still r m) (hf : ∀ b, Tracks r (f b) U) :
    Tracks r (m >>= f) U := .bind hm hf

theorem Tracks.still (hm : Tracks r m T) (hf : ∀ b, Still r (f b)) :
    Tracks r (m >>= f) T := .bind (U := fun x => x) hm hf

theorem Still.forM {f : β → Walk Unit} : ∀ {l : List β}, (∀ a ∈ l, Still r (f a)) →
    Still r (l.forM f)
  | [], _ => .pure ()
  | a :: _, h => (h a (.head _)).bind fun _ =>
      Still.forM fun b hb => h b (mem_cons_of_mem a hb)

theorem Still.foldlM {f : γ → β → Walk γ} (h : ∀ s a, Still r (f s a)) :
    ∀ (l : List β) (s : γ), Still r (l.foldlM f s)
  | [], s => .pure s
  | a :: l, s => by
    rw [foldlM_cons]
    exact (h s a).bind fun s' => Still.foldlM h l s'

theorem still_throw (f : Fault) : Still r (throw f : Walk β) := fun _ _ _ => trivial

theorem still_modifyRoutine {f : Routine → Routine}
    (hf : ∀ r, (f r).scope.names = r.scope.names ∧ (f r).graph = r.graph ∧ (f r).inputs = r.inputs) :
    Still r (modifyRoutine f) := fun _ w hw =>
  have ⟨hnames, hgraph, hinputs⟩ := hf w.routine
  ⟨hnames.trans hw.names, hgraph.trans hw.graph, hinputs.trans hw.inputs, hw.inits⟩

theorem still_getTable : Still r getTable := fun _ _ hw => hw

theorem still_getState : Still r getState := fun _ _ hw => hw

theorem still_getRoutine : Still r getRoutine := fun _ _ hw => hw

theorem still_modifyTable (t : ShapeTable) :
    Still r (modify fun w : Walker => { w with table := t } : Walk Unit) :=
  fun _ _ hw => { hw with }

theorem still_intern (f : ShapeTable → TypeSet × ShapeTable) : Still r (intern f) :=
  fun _ _ hw => { hw with }

theorem still_inspect (f : ShapeTable → Option TypeSet) : Still r (inspect f) := by
  refine still_getTable.bind fun t => ?_
  split
  · exact .pure _
  · exact still_throw _

theorem still_record (k : Nat) (s : TypeSet) : Still r (record k s) := by
  refine still_getRoutine.bind fun r => ?_
  split
  · exact still_modifyRoutine fun _ => ⟨rfl, rfl, rfl⟩
  · exact still_throw _

theorem Tracks.recorded {m : Walk TypeSet} (hm : Tracks r m T) (k : Nat) :
    Tracks r (recorded k m) T :=
  hm.still fun s => (still_record k s).bind fun _ => .pure s

theorem still_recordedTypes (k : Nat) : Still r (recordedTypes k) :=
  still_getRoutine.bind fun _ => .pure _

theorem still_bindCall (k : Nat) (t : Target) : Still r (bindCall k t) :=
  still_modifyRoutine fun _ => ⟨rfl, rfl, rfl⟩

theorem still_noteRead (k i : Nat) (p c : Bool) : Still r (noteRead k i p c) :=
  still_modifyRoutine fun _ => ⟨rfl, rfl, rfl⟩

theorem still_addFlags (f : Flags) : Still r (addFlags f) := still_modifyRoutine fun _ => ⟨rfl, rfl, rfl⟩

theorem tracks_modifyState {f : State → State} (h : ∀ s, (f s).inits = T s.inits) :
    Tracks r (modifyState f) T := fun _ w hw =>
  { hw with inits := (h w.state).trans (hw.inits ▸ rfl) }

theorem tracks_setState (s : State) : Tracks r (setState s) fun _ => s.inits :=
  fun _ _ hw => { hw with inits := rfl }

theorem inits_join {a b s : State} (h : a.join b = .ok s) : s.inits = a.inits.join b.inits := by
  unfold State.join at h
  split at h
  · obtain rfl := Except.ok.inj h
    rfl
  · cases h

theorem tracks_joinWith (before : State) : Tracks r (joinWith before) fun x => before.inits.join x := by
  intro x w hw
  show Ends _ (ofExcept (before.join w.state) >>= setState) w _
  rcases hjoin : before.join w.state with f | s
  · exact trivial
  · refine { hw with inits := ?_ }
    rw [show ({ w with state := s } : Walker).state.inits = s.inits from rfl, inits_join hjoin, hw.inits]

end Tracks

/-! ### Variables and conditions -/

section Variables

variable {β : Type} {T : Inits → Inits} {e : Expr Nat} {name : String}

/-- The variables an expression mentions are variables of the routine. -/
def Mentions (r : Routine) (e : Expr Nat) : Prop :=
  ∀ x ∈ e.walk, ∀ name ∈ x.varName?, name ∈ r.scope.names

theorem Mentions.operand {x : Expr Nat} (h : Mentions r e) (hx : x ∈ e.operands) :
    Mentions r x := fun y hy => h y (Expr.mem_walk_of_operand hx hy)

theorem Mentions.self (h : Mentions r e) : ∀ name ∈ e.varName?, name ∈ r.scope.names :=
  h e e.mem_walk_self

theorem useVar_eq (hnames : SameVars r w) (hname : name ∈ r.scope.names) :
    useVar name w = .ok (r.index name) { w with routine := { w.routine with
      scope := { w.routine.scope with used := w.routine.scope.used.insert (r.index name) } } } := by
  show EStateM.Result.ok (w.routine.scope.use name).1 { w with routine := { w.routine with
    scope := (w.routine.scope.use name).2 } } = _
  rw [Scope.use_eq (hnames ▸ hname), hnames]
  rfl

theorem useVar_yields (hname : name ∈ r.scope.names) {x : Inits} (hw : Follows r x w)
    {f : Nat → Walk β} {Q : β → Walker → Prop}
    (hf : ∀ w', Follows r x w' → Yields (f (r.index name)) w' Q) : Yields (useVar name >>= f) w Q :=
  .of_eq (bind_of_ok (useVar_eq hw.names hname)) (hf _ { hw with })

theorem tracks_useVar (hname : name ∈ r.scope.names) {f : Nat → Walk β}
    (hf : Tracks r (f (r.index name)) T) : Tracks r (useVar name >>= f) T :=
  fun x _ hw => useVar_yields hname hw fun w' hw' => hf x w' hw'

variable {f : Option Nat → Walk β}

theorem tracks_varOf? (he : Mentions r e) (hf : Tracks r (f (e.varName?.map r.index)) T) :
    Tracks r (varOf? e >>= f) T := by
  unfold varOf?
  rcases hvar : e.varName? with _ | name
  · rw [hvar] at hf
    exact hf
  · rw [hvar] at hf
    have hname := he.self name hvar
    rw [show (Option.mapM useVar (some name) : Walk (Option Nat)) =
      (useVar name >>= fun i => Pure.pure (some i)) from rfl, bind_assoc]
    simp only [pure_bind]
    exact tracks_useVar hname hf

theorem tracks_ifVar (he : Mentions r e) {f : Nat → Walk Unit} {F : Inits → Nat → Inits}
    (hf : ∀ i, Tracks r (f i) fun x => F x i) :
    Tracks r (do if let some var ← varOf? e then f var)
      fun x => e.varName?.toList.foldl (fun x name => F x (r.index name)) x := by
  refine tracks_varOf? he ?_
  rcases e.varName? with _ | name
  · exact .pure ()
  · exact hf (r.index name)

theorem inits_narrow (s : State) (i : Nat) (t : TypeSet) : (s.narrow i t).inits = s.inits := by
  unfold State.narrow
  split <;> rfl

theorem tracks_assignState (i : Nat) (f : State → TypeSet) :
    Tracks r (modifyState fun s => s.assign i (f s)) fun x => x.assign i :=
  tracks_modifyState fun _ => rfl

theorem inits_change (t : ShapeTable) (i : Nat) (s : State) (q : Test) (outcome : Bool) :
    (q.change t i s outcome).inits =
      if (Clue.test q outcome).proves then s.inits.assign i else s.inits := by
  cases q with
  | null op => cases op <;> cases outcome <;> first | rfl | exact inits_narrow s i _
  | kind kind =>
    by_cases hkind : kind = .null <;> cases outcome <;>
      simp [Test.change, Clue.proves, hkind, inits_narrow] <;> rfl

theorem tracks_learn (he : Mentions r e) (clue : Clue) :
    Tracks r (learn e clue) fun x =>
      (if clue.proves then e.varName?.toList else []).foldl (fun x name => x.assign (r.index name)) x := by
  cases clue with
  | test q outcome =>
    refine (tracks_ifVar (F := fun x i => if (Clue.test q outcome).proves then x.assign i else x) he
      fun i => still_getTable.bind fun t => tracks_modifyState fun s => inits_change t i s q outcome).congr
      fun x => ?_
    split
    · rfl
    · cases e.varName? <;> rfl
  | isA className =>
    exact tracks_ifVar he fun i => (still_intern _).bind fun s => tracks_assignState i fun _ => s
  | limit limit other =>
    have hint : Still r (isIntSoFar other.tag) :=
      still_getTable.bind fun t => (still_recordedTypes _).bind fun _ => .pure _
    refine hint.bind fun known => ?_
    cases known
    · exact .pure ()
    · have hnote : Tracks r (noteLimit limit true e) _ :=
        tracks_ifVar (F := fun x _ => x) he fun i => tracks_modifyState fun _ => rfl
      exact hnote.congr fun x => by cases e.varName? <;> rfl

/-- What an outcome proves is what the analysis takes it to prove. -/
theorem tracks_narrow (he : Mentions r e) (outcome : Bool) :
    Tracks r (narrow e outcome)
      fun x => (e.provenBy outcome).foldl (fun x name => x.assign (r.index name)) x := by
  rw [narrow_eq, Expr.provenBy_eq]
  refine (Tracks.forM fun p hp => tracks_learn ?_ p.2).congr fun x => (foldl_flatMap ..).symm
  rcases Expr.mem_clues hp with heq | hop
  · exact heq ▸ he
  · exact he.operand hop

theorem tracks_narrowTo (he : Mentions r e) (b : Branch) :
    Tracks r (narrowTo e b) (Effect.proven r.index e b) := by
  cases b with
  | either => exact .pure ()
  | holds => exact tracks_narrow he true
  | fails => exact tracks_narrow he false

end Variables

/-! ### Calls and conditions -/

section Meanings

variable {β : Type} {T : Inits → Inits} {c : Setting} {f : Effect} {e : Expr Nat} {x : Inits}
  {args : List (Expr Nat)} {m : Meaning} {name : String}

/-- Whatever a meaning is used for, it initializes as the effect says. -/
structure TracksAs (r : Routine) (m : Meaning) (f : Effect) : Prop where
  value : Tracks r m.value f.value
  quiet : Tracks r m.quiet f.value
  assume : ∀ b, Tracks r (m.assume b) (f.assume b)
  store : ∀ s, Tracks r (m.store s) f.store

/-- No routine takes a parameter by reference. -/
def Setting.NoneByRef (c : Setting) : Prop := ∀ sig ∈ c.signatures, ∀ i, sig.isByRef i = false

theorem still_callOne (hc : Setting.NoneByRef c) (k : Nat) (name : String) (args : List (Expr Nat))
    (types : Tuple) (callee : Nat) : Still r (callOne c k name args types callee) := by
  unfold callOne
  rcases hsig : c.signatures[callee]? with _ | sig
  · exact still_throw _
  · have hnone := hc sig (mem_of_getElem? hsig)
    have hmodify : Still r (modify fun w : Walker => withCall w
        { caller := w.routine.id, callee, site := k, block := c.block,
          argExprs := args.map Expr.tag, argTypes := types } : Walk Unit) :=
      fun _ _ hw => { hw with }
    refine hmodify.bind fun _ => ?_
    refine Still.bind (Still.forM fun p _ => ?_) fun _ => Tracks.pure _
    obtain ⟨arg, i⟩ := p
    simp only [hnone i, Bool.false_eq_true, if_false]
    exact .pure ()

theorem tracks_argTypes (hargs : ∀ a ∈ args, TracksAs r (a.meaning c) (a.effect r.index))
    (name : String) : Tracks r (argTypes c name args) (Expr.effects r.index args) := by
  rw [argTypes_eq]
  refine (Tracks.mapM (F := fun x p => (p.1.effect r.index).value x) fun p hp => ?_).congr fun x => ?_
  · have ha := hargs p.1 (fst_mem_of_mem_zipIdx hp)
    dsimp only
    split
    · exact ha.quiet.still fun _ => .pure _
    · exact ha.value.still fun _ => .pure _
  · rw [Expr.effects_eq, ← foldl_map (f := Prod.fst) (g := fun x a => (effect r.index a).value x),
      zipIdx_map_fst]

theorem tracks_call (hc : Setting.NoneByRef c)
    (hargs : ∀ a ∈ args, TracksAs r (a.meaning c) (a.effect r.index)) (k : Nat) (name : String) :
    Tracks r (call c k name args (Expr.meanings c args)) (Expr.effects r.index args) := by
  refine (tracks_argTypes hargs name).still fun types => ?_
  split
  · split
    · split
      · exact (still_addFlags _).bind fun _ => (still_bindCall k _).bind fun _ => .pure _
      · exact (still_bindCall k _).bind fun _ => .pure _
    · exact (still_bindCall k _).bind fun _ => .pure _
  · refine .bind (.foldlM (fun s callee => ?_) _ _) fun s =>
      (still_bindCall k _).bind fun _ => .pure s
    exact (still_callOne hc k name args types callee).bind fun _ => .pure _

theorem tracks_gather (h : ∀ x ∈ e.operands, TracksAs r (x.meaning c) (x.effect r.index)) :
    Tracks r (e.gather c) fun m => e.operands.foldl (fun m x => (x.effect r.index).value m) m := by
  refine Tracks.still (.mapM fun x hx => ?_) fun _ => still_intern _
  rcases e.look_cases with heq | heq <;> rw [heq]
  · exact (h x hx).value
  · exact (h x hx).quiet

/-! ### Conditions -/

variable {Q : β → Walker → Prop}

theorem getState_yields (hw : Follows r x w) {f : State → Walk β}
    (hf : ∀ s, s.inits = x → Yields (f s) w Q) : Yields (getState >>= f) w Q :=
  .bind (.of_ok (a := w.state) (u := w) rfl (hf w.state hw.inits))

theorem setState_yields (hw : Follows r x w) {s : State} {f : Unit → Walk β}
    (hf : ∀ w', Follows r s.inits w' → Yields (f ()) w' Q) : Yields (setState s >>= f) w Q :=
  (tracks_setState s).andThen hw fun _ => hf

theorem branchStates_bind (m : Meaning) (k : State × State → Walk β) : m.branchStates >>= k = (do
    let start ← getState
    let _ ← m.assume .holds
    let yes ← getState
    setState start
    let _ ← m.assume .fails
    k (yes, ← getState)) := by
  unfold Meaning.branchStates
  simp only [bind_assoc, pure_bind]

theorem branchStates_yields (h : TracksAs r m f) (hw : Follows r x w) {k : State × State → Walk β}
    (hk : ∀ yes no w', yes.inits = f.assume .holds x → no.inits = f.assume .fails x →
      Follows r (f.assume .fails x) w' → Yields (k (yes, no)) w' Q) :
    Yields (m.branchStates >>= k) w Q := by
  rw [branchStates_bind]
  refine getState_yields hw fun start hstart => ?_
  refine (h.assume .holds).andThen hw fun _ w1 hw1 => ?_
  refine getState_yields hw1 fun yes hyes => ?_
  refine setState_yields hw1 fun w2 hw2 => ?_
  rw [hstart] at hw2
  refine (h.assume .fails).andThen hw2 fun _ w3 hw3 => ?_
  exact getState_yields hw3 fun no hno => hk yes no w3 hyes hno hw3

theorem tracks_shortCircuit {l : Meaning} {g : Effect} (hl : TracksAs r l f) (hm : TracksAs r m g)
    (runs b : Branch) :
    Tracks r (Meaning.shortCircuit runs l m b) (Effect.shortCircuit runs f g b) := by
  intro x w hw
  unfold Meaning.shortCircuit Effect.shortCircuit
  split
  · refine (hl.assume runs).andThen hw fun _ w1 hw1 => ?_
    exact (hm.assume b).andThen hw1 fun _ w2 hw2 => hw2
  · refine getState_yields hw fun start hstart => ?_
    refine (hl.assume runs.negate).andThen hw fun _ w1 hw1 => ?_
    refine getState_yields hw1 fun decided hdecided => ?_
    refine setState_yields hw1 fun w2 hw2 => ?_
    rw [hstart] at hw2
    refine (hl.assume runs).andThen hw2 fun _ w3 hw3 => ?_
    refine (hm.assume b).andThen hw3 fun _ w4 hw4 => ?_
    have hjoin := tracks_joinWith decided _ w4 hw4
    rwa [hdecided] at hjoin

theorem tracks_choose {yes no : Walk TypeSet} {S T : Inits → Inits} (h : TracksAs r m f)
    (hyes : Tracks r yes S) (hno : Tracks r no T) :
    Tracks r (m.choose yes no) fun x => (S (f.assume .holds x)).join (T (f.assume .fails x)) := by
  intro x w hw
  refine branchStates_yields h hw fun onTrue onFalse w1 htrue hfalse hw1 => ?_
  refine setState_yields hw1 fun w2 hw2 => ?_
  refine hyes.andThen hw2 fun s w3 hw3 => getState_yields hw3 fun after hafter => ?_
  refine setState_yields hw3 fun w4 hw4 => ?_
  refine hno.andThen hw4 fun t w5 hw5 => ?_
  refine (tracks_joinWith after).andThen hw5 fun _ w6 hw6 => ?_
  rwa [hafter, htrue, hfalse] at hw6

theorem tracks_maybeValue (h : TracksAs r m f) :
    Tracks r m.maybeValue fun x => x.join (f.value x) := by
  intro x w hw
  refine getState_yields hw fun before hbefore => ?_
  refine h.value.andThen hw fun s w1 hw1 => ?_
  refine (tracks_joinWith before).andThen hw1 fun _ w2 hw2 => ?_
  rwa [hbefore] at hw2

theorem tracks_storeElement (h : TracksAs r m f) (value : TypeSet) :
    Tracks r (m.storeElement value) fun x => f.store (f.value x) := by
  refine h.quiet.bind fun old => still_getTable.bind fun t => ?_
  split
  · exact (still_modifyTable _).bind fun _ => h.store _
  · exact fun _ _ _ => trivial

/-! ### Expressions -/

theorem tracksAs_ofValue (he : Mentions r e) {step : Walk TypeSet} (h : Tracks r step T) :
    TracksAs r (.ofValue e step) (.ofParts r.index e T) := by
  have hvalue := h.recorded e.tag
  refine ⟨hvalue, hvalue, fun b => .recorded ?_ e.tag, fun s => hvalue.discard⟩
  exact h.bind fun s => (tracks_narrowTo he b).still fun _ => .pure s

theorem tracksAs_ofCondition {step : Branch → Walk Unit} {S : Branch → Inits → Inits}
    (h : ∀ b, Tracks r (step b) (S b)) : TracksAs r (.ofCondition e step) (.ofCondition S) := by
  have hassume : ∀ b, Tracks r (recorded e.tag do step b; return .bool) (S b) := fun b =>
    ((h b).still fun _ => .pure _).recorded e.tag
  exact ⟨hassume .either, hassume .either, hassume, fun s => (hassume .either).discard⟩

theorem still_readVariable (hname : name ∈ r.scope.names) (k : Nat) (quiet : Bool) :
    Still r (readVariable k name quiet) := by
  refine tracks_useVar hname (still_getState.bind fun s => ?_)
  cases quiet
  · exact (still_noteRead k _ _ _).bind fun _ => .pure _
  · exact .pure _

theorem tracksAs_var {k : Nat} (hname : name ∈ r.scope.names) (he : Mentions r (.var k name)) :
    TracksAs r ((Expr.var k name).meaning c) ((Expr.var k name).effect r.index) := by
  rw [meaning, effect]
  refine { tracksAs_ofValue he (still_readVariable hname k false) with
    quiet := (still_readVariable hname k true).recorded k
    store := fun s => tracks_useVar hname ?_ }
  exact (tracks_assignState (r.index name) fun _ => s).still fun _ => still_record k s

/-- **A walk initializes as the code does**, whatever an expression is used for. -/
theorem effect_tracks (hc : Setting.NoneByRef c) (e : Expr Nat) :
    Mentions r e → TracksAs r (e.meaning c) (e.effect r.index) := by
  induction e using Expr.induct_operands with
  | _ e ih =>
  intro he
  have hop : ∀ x ∈ e.operands, TracksAs r (x.meaning c) (x.effect r.index) := fun x hx =>
    ih x hx (he.operand hx)
  by_cases hplain : e.IsPlain
  · rw [Expr.meaning_plain hplain, Expr.effect_plain hplain]
    exact tracksAs_ofValue he (tracks_gather hop)
  cases e with
  | var k name => exact tracksAs_var (he.self name rfl) he
  | assign k target value =>
    have ht := hop target (.head _)
    have hv := hop value (.tail _ (.head _))
    rw [meaning, effect]
    exact tracksAs_ofValue he (hv.value.bind fun s => (ht.store _).still fun _ => .pure _)
  | update k op target value =>
    have ht := hop target (.head _)
    have hv := hop value (.tail _ (.head _))
    rw [meaning, effect]
    refine tracksAs_ofValue he ?_
    by_cases hop : op = .coalesce
    · subst hop
      simp only [if_true]
      refine ht.value.bind (U := fun x =>
        (target.effect r.index).store (x.join ((value.effect r.index).value x))) fun old => ?_
      refine (tracks_maybeValue hv).bind fun v => ?_
      exact (ht.store _).still fun _ => .pure _
    · simp only [hop, if_false]
      refine ht.value.bind (U := fun x =>
        (target.effect r.index).store ((value.effect r.index).value x)) fun old => ?_
      refine hv.value.bind fun v => still_getTable.bind fun t => ?_
      exact (ht.store _).still fun _ => .pure _
  | step k op target =>
    have ht := hop target (.head _)
    have hstore : ∀ s t : TypeSet, Tracks r (do (target.meaning c).store s; return t) (target.effect r.index).store :=
      fun s t => (ht.store s).still fun _ => .pure t
    rw [meaning, effect]
    refine tracksAs_ofValue he (ht.value.bind fun old => tracks_varOf? (he.operand (.head _)) ?_)
    rcases target.varName? with _ | name
    · exact hstore _ _
    · exact still_getTable.bind fun t => still_getState.bind fun s => hstore _ _
  | binary k op l m =>
    have hl := hop l (.head _)
    have hm := hop m (.tail _ (.head _))
    rcases BinOp.of_not_isPlain hplain with rfl | rfl | rfl <;> rw [effect, meaning]
    · exact tracksAs_ofCondition fun b => tracks_shortCircuit hl hm _ b
    · exact tracksAs_ofCondition fun b => tracks_shortCircuit hl hm _ b
    · exact tracksAs_ofValue he (hl.quiet.bind
        (U := fun x => x.join ((m.effect r.index).value x)) fun s =>
          (tracks_maybeValue hm).still fun t => .pure _)
  | unary k op operand =>
    obtain rfl : op = .not := not_not.1 hplain
    rw [effect, meaning]
    exact tracksAs_ofCondition fun b => ((hop operand (.head _)).assume b.negate).discard
  | field k operand name =>
    have ho := hop operand (.head _)
    rw [effect, meaning]
    exact { tracksAs_ofValue he (ho.value.still fun s => .pure _) with
      store := fun s => ho.value.still fun _ => still_record _ s }
  | choose k cond yes no =>
    have hyes := hop yes (.tail _ (.head _))
    have hno := hop no (by simp [Expr.operands])
    rw [effect, meaning]
    exact tracksAs_ofValue he (tracks_choose (hop cond (.head _)) hyes.value hno.value)
  | orElse k cond no =>
    have hcond := hop cond (.head _)
    have hno := hop no (.tail _ (.head _))
    have hyes := (still_recordedTypes (r := r) cond.tag).still fun s => .pure (s.remove .null)
    rw [effect, meaning]
    exact tracksAs_ofValue he (tracks_choose hcond hyes hno.value)
  | call k name args =>
    rw [effect, meaning]
    exact tracksAs_ofValue he (tracks_call hc hop k name)
  | item k array key =>
    have ha := hop array (.head _)
    have hk := hop key (.tail _ (.head _))
    rw [effect, meaning]
    exact { tracksAs_ofValue he
        (ha.value.bind fun s => hk.value.still fun _ => still_inspect _) with
      quiet := (ha.quiet.bind fun s => hk.value.still fun _ => still_inspect _).recorded k
      store := fun s => hk.value.bind fun _ => (tracks_storeElement ha s).still fun _ => still_record k s }
  | append k array =>
    have ha := hop array (.head _)
    rw [effect, meaning]
    exact { tracksAs_ofValue he (ha.value.still fun s => .pure _) with
      store := fun s => (tracks_storeElement ha s).still fun _ => still_record k s }
  | _ => exact absurd trivial hplain

end Meanings

/-! ### Operations -/

section Blocks

variable {β : Type} {c : Setting} {T : Inits → Inits}

theorem still_updateScope {f : Scope → Except Fault (β × Scope)}
    (h : ∀ s b s', f s = .ok (b, s') → s'.names = s.names) : Still r (updateScope f) := by
  intro x w hw
  show Yields (ofExcept (f w.routine.scope) >>= fun p => _ : Walk β) w _
  rcases hf : f w.routine.scope with e | ⟨b, s'⟩
  · exact trivial
  · exact { hw with names := (h _ b s' hf).trans hw.names }

theorem still_queue (b : Nat) : Still r (queue b) :=
  still_modifyRoutine fun _ => ⟨rfl, rfl, rfl⟩

theorem still_addTypes (i : Nat) (t : TypeSet) : Still r (updateScope (·.addTypes i t)) := by
  refine still_updateScope fun s b s' h => ?_
  obtain ⟨v, hv, rfl⟩ := Scope.addTypes_ok h
  exact Scope.names_set hv rfl

theorem still_addKept (i : Nat) (t : TypeSet) : Still r (updateScope (·.addKept i t)) := by
  refine still_updateScope fun s b s' h => ?_
  obtain ⟨v, all, hv, -, rfl⟩ := Scope.addKept_ok h
  exact Scope.names_set hv rfl

theorem still_markAliased (i : Nat) : Still r (markAliased i) :=
  still_updateScope fun s b s' h => by rw [Scope.markAliased_ok h]; rfl

theorem still_commit (s : State) : Still r (commit s) := by
  rw [commit_eq]
  refine .forM fun p _ => still_getRoutine.bind fun r' => ?_
  refine (still_addTypes _ _).bind fun grew => ?_
  split
  · split
    · exact (still_queue _).bind fun _ => still_queue _
    · exact .pure ()
  · exact .pure ()

theorem still_keep (i : Nat) (t : TypeSet) : Still r (keep c i t) := by
  refine (still_addKept i t).bind fun grew => ?_
  split
  · exact (still_queue _).bind fun _ => still_queue _
  · exact .pure ()

theorem still_ofExcept (x : Except Fault β) : Still r (ofExcept x) := by
  cases x with
  | error f => exact still_throw f
  | ok b => exact .pure b

theorem mentions_of_names {e : Expr Nat} (h : ∀ name ∈ e.names, name ∈ r.scope.names) : Mentions r e :=
  fun x hx _ hname => h _ (mem_filterMap.2 ⟨x, hx, hname⟩)

theorem op_tracks (hc : Setting.NoneByRef c) {o : Op Nat}
    (hnames : ∀ name ∈ o.names, name ∈ r.scope.names) : Tracks r (op c o) (o.effect r.index) := by
  have htracks : ∀ e ∈ o.exprs, TracksAs r (e.meaning c) (e.effect r.index) := fun e he =>
    effect_tracks hc e (mentions_of_names fun name hname =>
      hnames name (Op.names_of_exprs he name hname))
  cases o with
  | eval e => exact (htracks e (by simp [Op.exprs])).value.discard
  | static name init =>
    have hinit : Tracks r (optValue c init) (Expr.optEffect r.index init) := by
      cases init with
      | none => exact .pure _
      | some e => exact (htracks e (by simp [Op.exprs])).value
    rw [op_static]
    refine (still_addFlags _).bind fun _ => tracks_useVar (hnames name (by simp [Op.names])) ?_
    refine hinit.bind (U := fun x => x.assign (r.index name)) fun first => ?_
    refine Still.bind (still_modifyRoutine fun _ => ⟨rfl, rfl, rfl⟩) fun _ => ?_
    refine still_getRoutine.bind fun r1 => (still_ofExcept _).bind fun held => ?_
    refine (still_keep _ _).bind fun _ => still_getRoutine.bind fun r2 => ?_
    exact tracks_assignState (r.index name) _
  | global names =>
    refine (still_addFlags _).bind fun _ => .forM fun name hname => ?_
    refine tracks_useVar (hnames name hname) ((still_markAliased _).bind fun _ => ?_)
    exact tracks_assignState (r.index name) _
  | unset names =>
    refine .forM fun name hname => tracks_useVar (hnames name hname) ?_
    exact tracks_modifyState fun _ => rfl

end Blocks

end Infer

/-! ### What flows into blocks -/

namespace Flow.Inits

/-- `new` is what holds where `old`, if anything has come there, and those of `come` meet. -/
structure Meets (old : Option Inits) (come : Inits → Prop) (new : Option Inits) : Prop where
  isSome : new.isSome = true ↔ old.isSome = true ∨ ∃ y, come y
  possibly : ∀ n ∈ new, ∀ i, n.possibly.contains i = true ↔
    (∃ o ∈ old, o.possibly.contains i = true) ∨ ∃ y, come y ∧ y.possibly.contains i = true
  certainly : ∀ n ∈ new, ∀ i, n.certainly.contains i = true ↔
    (∀ o ∈ old, o.certainly.contains i = true) ∧ ∀ y, come y → y.certainly.contains i = true

variable {a b d : Option Inits} {S S' : Inits → Prop}

theorem Meets.congr (h : Meets a S b) (hS : ∀ y, S y ↔ S' y) : Meets a S' b :=
  (funext fun y => propext (hS y)) ▸ h

theorem Meets.refl (a : Option Inits) : Meets a (fun _ => False) a where
  isSome := by simp
  possibly n hn i := by simp [Option.mem_def.1 hn]
  certainly n hn i := by simp [Option.mem_def.1 hn]

theorem Meets.trans (h : Meets a S b) (h' : Meets b S' d) : Meets a (fun y => S y ∨ S' y) d := by
  rcases b with _ | m
  · have hnone : a = none ∧ ∀ y, ¬ S y := by
      have := h.isSome
      simpa using this
    obtain ⟨rfl, hS⟩ := hnone
    exact h'.congr fun y => by simp [hS]
  · have hsome : a.isSome = true ∨ ∃ y, S y := h.isSome.1 rfl
    refine ⟨?_, fun n hn i => ?_, fun n hn i => ?_⟩
    · rw [h'.isSome, exists_or]
      exact ⟨fun _ => hsome.imp_right .inl, fun _ => .inl rfl⟩
    · rw [h'.possibly n hn i]
      simp only [Option.mem_some_iff, exists_eq_left', h.possibly m rfl i, or_and_right, exists_or,
        or_assoc]
    · rw [h'.certainly n hn i]
      simp only [Option.mem_some_iff, forall_eq', h.certainly m rfl i, or_imp, forall_and, and_assoc]

theorem meets_one (old : Option Inits) (y : Inits) :
    Meets old (· = y) (some (old.elim y (·.join y))) := by
  rcases old with _ | o
  · constructor <;> simp
  · constructor <;> simp [join, VarSet.contains_union, VarSet.contains_inter]

end Flow.Inits

namespace Routine

variable {r r' : Routine} {b : Nat} {come come' : Nat → Inits → Prop}

/-- What is initialized where a block is entered. -/
def initsAt (r : Routine) (b : Nat) : Option Inits := (r.input? b).map State.inits

/-- States have flowed into blocks, as `come` says. -/
structure TakenIn (come : Nat → Inits → Prop) (r r' : Routine) : Prop where
  graph : r'.graph = r.graph
  names : r'.scope.names = r.scope.names
  size : r'.inputs.size = r.inputs.size
  meets : ∀ d, Inits.Meets (r.initsAt d) (come d) (r'.initsAt d)

theorem TakenIn.refl (r : Routine) : TakenIn (fun _ _ => False) r r :=
  ⟨rfl, rfl, rfl, fun d => .refl (r.initsAt d)⟩

theorem TakenIn.trans {r'' : Routine} (h : TakenIn come r r') (h' : TakenIn come' r' r'') :
    TakenIn (fun d y => come d y ∨ come' d y) r r'' :=
  ⟨h'.graph.trans h.graph, h'.names.trans h.names, h'.size.trans h.size,
    fun d => (h.meets d).trans (h'.meets d)⟩

theorem TakenIn.congr (h : TakenIn come r r') (heq : ∀ d y, come d y ↔ come' d y) : TakenIn come' r r' :=
  { h with meets := fun d => (h.meets d).congr (heq d) }

theorem taken_setInput (hb : b < r.inputs.size) {new : State} {y : Inits}
    (hnew : new.inits = (r.initsAt b).elim y (·.join y)) :
    TakenIn (fun d m => d = b ∧ m = y) r ((r.setInput b new).queue b) := by
  refine ⟨rfl, rfl, Array.size_setIfInBounds, fun d => ?_⟩
  have hat : ((r.setInput b new).queue b).initsAt d = if b = d then some new.inits else r.initsAt d := by
    show ((r.setInput b new).input? d).map State.inits = _
    rw [r.input?_setInput hb]
    split <;> rfl
  rw [hat]
  split
  next heq =>
    subst heq
    rw [hnew]
    exact (Inits.meets_one _ _).congr fun m => by simp
  next hne => exact (Inits.Meets.refl _).congr fun m => by simp [Ne.symm hne]

theorem flowInto_taken {s : State} {changed : Bool} (hb : b < r.inputs.size)
    (h : r.flowInto b s = .ok (changed, r')) : TakenIn (fun d m => d = b ∧ m = s.inits) r r' := by
  unfold flowInto at h
  split at h
  next hnone =>
    cases h
    exact taken_setInput hb (by simp [initsAt, hnone])
  next old hold =>
    obtain ⟨new, hjoin, h⟩ := ok_of_except h
    have hinits : new.inits = (r.initsAt b).elim s.inits (·.join s.inits) := by
      rw [Infer.inits_join hjoin, initsAt, hold]
      rfl
    split at h <;> cases h
    next hagree =>
      -- nothing changes: what is initialized already is what the join says
      have hsame : r.initsAt b = some new.inits := by
        simp only [State.agrees, Bool.and_eq_true, beq_iff_eq] at hagree
        simp [initsAt, hold, State.inits, hagree.1.1.1.2, hagree.1.1.2]
      refine ⟨rfl, rfl, rfl, fun d => ?_⟩
      by_cases hd : d = b
      · have hmeets := Inits.meets_one (r.initsAt b) s.inits
        rw [← hinits, ← hsame] at hmeets
        subst hd
        exact hmeets.congr fun m => by simp
      · exact (Inits.Meets.refl _).congr fun m => by simp [hd]
    next => exact taken_setInput hb hinits

end Routine

namespace Infer

section Exits

variable {r : Routine} {w : Walker} {c : Setting} {x : Inits}

theorem flowInto_yields {b : Nat} (s : State) (hb : b < w.routine.inputs.size) :
    Yields (flowInto b s) w fun _ w' =>
      Routine.TakenIn (fun d m => d = b ∧ m = s.inits) w.routine w'.routine := by
  show Yields (ofExcept (w.routine.flowInto b s) >>= fun p => modifyRoutine fun _ => p.2) w _
  rcases hflow : w.routine.flowInto b s with f | ⟨changed, r'⟩
  · exact trivial
  · exact Routine.flowInto_taken hb hflow

theorem flowAll_yields {y : Label → State} : ∀ {l : List (Nat × Label)} {w : Walker},
    (∀ p ∈ l, p.1 < w.routine.inputs.size) →
    Yields (l.forM fun p => flowInto p.1 (y p.2)) w fun _ w' =>
      Routine.TakenIn (fun d m => ∃ x, (d, x) ∈ l ∧ m = (y x).inits) w.routine w'.routine
  | [], w, _ => (Routine.TakenIn.refl _).congr fun d m => by simp
  | (b, x) :: l, w, h => by
    refine (flowInto_yields (y x) (h _ (.head _))).andThen fun _ w1 h1 => ?_
    have hl : ∀ p ∈ l, p.1 < w1.routine.inputs.size := fun p hp =>
      h1.size ▸ h p (.tail _ hp)
    refine (flowAll_yields hl).imp fun _ w2 h2 => ?_
    refine (h1.trans h2).congr fun d m => ?_
    simp only [mem_cons, Prod.mk.injEq, or_and_right, exists_or]
    refine or_congr ⟨?_, ?_⟩ Iff.rfl
    · rintro ⟨rfl, rfl⟩
      exact ⟨x, ⟨rfl, rfl⟩, rfl⟩
    · rintro ⟨z, ⟨rfl, rfl⟩, rfl⟩
      exact ⟨rfl, rfl⟩

/-- The successors of a block take in what is initialized along the edges to them. -/
def Hands (r : Routine) (b : Nat) (y : Label → Inits) (r' : Routine) : Prop :=
  Routine.TakenIn (fun d m => ∃ x, (d, x) ∈ r.graph.succs b ∧ m = y x) r r'

theorem Follows.taken (hw : Follows r x w) : Routine.TakenIn (fun _ _ => False) r w.routine := by
  refine ⟨hw.graph, hw.names, by rw [hw.inputs], fun d => ?_⟩
  have hat : w.routine.initsAt d = r.initsAt d := by
    unfold Routine.initsAt Routine.input?
    rw [hw.inputs]
  exact hat ▸ .refl _

theorem still_loopTypes (s : TypeSet) : Still r (loopTypes s) := by
  refine still_getTable.bind fun t => ?_
  split
  · exact .pure _
  · exact still_inspect _

theorem propagate_yields (hw : Follows r x w) (hgraph : r.graph.Sound)
    (hsize : r.inputs.size = r.graph.size) {yes no : State} {y : Label → Inits}
    (hy : ∀ l, y l = if l = .onFalse then no.inits else yes.inits) :
    Yields (propagate c yes no) w fun _ w' => Hands r c.block y w'.routine := by
  have hl : ∀ p ∈ w.routine.graph.succs c.block, p.1 < w.routine.inputs.size := by
    rw [hw.graph, hw.inputs, hsize]
    exact fun p hp => hgraph.succs_lt hp
  have hflow := flowAll_yields (y := fun l => if l = .onFalse then no else yes) hl
  refine .imp (show Yields (propagate c yes no) w _ from hflow) fun _ w' h => ?_
  refine (hw.taken.trans h).congr fun d m => ?_
  rw [hw.graph]
  simp only [false_or]
  refine exists_congr fun l => and_congr_right fun _ => ?_
  rw [hy]
  split <;> rfl

/-- Along each edge the way hands on the state that `y` says; only a block that returns has
nowhere to go. -/
def Way.Hands (ex : Exit Nat) (y : Label → Inits) : Way → Prop
  | onward _ yes no => ∀ l, y l = if l = .onFalse then no.inits else yes.inits
  | back _ _ => ∃ e, ex = .ret e

theorem wayOut_yields (hc : Setting.NoneByRef c) {ex : Exit Nat}
    (hnames : ∀ name ∈ ex.names, name ∈ r.scope.names) (hw : Follows r x w) :
    Yields (wayOut c ex) w fun way w' =>
      way.Hands ex (fun l => ex.effect r.index l x) ∧ ∃ z, Follows r z w' := by
  have htracks : ∀ e ∈ ex.exprs, TracksAs r (e.meaning c) (e.effect r.index) := fun e he =>
    effect_tracks hc e (mentions_of_names fun name hname =>
      hnames name (Exit.names_of_exprs he name hname))
  cases ex with
  | fall => exact getState_yields hw fun s hs => ⟨fun l => by simp [Exit.effect, hs], _, hw⟩
  | branch cond =>
    refine branchStates_yields (htracks cond (.head _)) hw fun yes no w1 hyes hno hw1 =>
      ⟨fun l => ?_, _, hw1⟩
    rw [hyes, hno]
    simp only [Exit.effect]
    split <;> rfl
  | each source key value =>
    have hvalue : value ∈ r.scope.names := hnames value (by simp [Exit.names])
    refine (htracks source (.head _)).value.andThen hw fun s w1 hw1 => ?_
    refine (still_loopTypes s).andThen hw1 fun elem w2 hw2 => getState_yields hw2 fun done hdone => ?_
    simp only [Exit.effect]
    rw [← hdone]
    cases key with
    | none =>
      rw [loopKey, pure_bind]
      exact useVar_yields hvalue hw2 fun w3 hw3 => ⟨fun _ => rfl, _, hw3⟩
    | some k =>
      unfold loopKey
      simp only [bind_assoc, pure_bind]
      refine useVar_yields (hnames k (by simp [Exit.names])) hw2 fun w3 hw3 => ?_
      exact useVar_yields hvalue hw3 fun w4 hw4 => ⟨fun _ => rfl, _, hw4⟩
  | ret e =>
    have hvalue : Tracks r (optValue c e) (Expr.optEffect r.index e) := by
      cases e with
      | none => exact .pure _
      | some e => exact (htracks e (.head _)).value
    exact hvalue.andThen hw fun s w1 hw1 => getState_yields hw1 fun _ _ => ⟨⟨e, rfl⟩, _, hw1⟩

theorem exit_yields (hc : Setting.NoneByRef c) {k : Block Nat}
    (hk : r.graph.blocks[c.block]? = some k) (hgraph : r.graph.Sound)
    (hsize : r.inputs.size = r.graph.size) (hnames : ∀ name ∈ k.exit.names, name ∈ r.scope.names)
    (hw : Follows r x w) :
    Yields (exit c k.exit) w fun _ w' =>
      Hands r c.block (fun l => k.exit.effect r.index l x) w'.routine := by
  rw [exit_eq]
  refine (wayOut_yields hc hnames hw).andThen fun way w1 hway => ?_
  obtain ⟨hleads, z, hw1⟩ := hway
  cases way with
  | onward held yes no =>
    refine (Still.forM fun s _ => still_commit s).andThen hw1 fun _ w2 hw2 => ?_
    exact propagate_yields hw2 hgraph hsize hleads
  | back held returned =>
    have hret : Still r (modifyRoutine fun r => { r with scope := (r.scope.addReturn returned).2 }) :=
      still_modifyRoutine fun _ => ⟨rfl, rfl, rfl⟩
    refine ((still_commit held).bind (fun _ => hret) z w1 hw1).imp fun _ w2 hw2 => ?_
    refine hw2.taken.congr fun d m => ?_
    simp [hgraph.succs_of_ret hk hleads.choose_spec]

/-- **A block hands on what its code initializes**, and nothing else flows. -/
theorem block_hands (hc : Setting.NoneByRef c) (hgraph : w.routine.graph.Sound)
    (hsize : w.routine.inputs.size = w.routine.graph.size)
    (hnames : ∀ x ∈ w.routine.graph.names, x ∈ w.routine.scope.names) {s : State}
    (hs : w.routine.input? c.block = some s) (hlt : c.block < w.routine.graph.size) :
    Yields (block c) w fun _ w' => Hands w.routine c.block
      (fun l => w.routine.graph.transfer w.routine.index c.block l s.inits) w'.routine := by
  obtain ⟨k, hk⟩ : ∃ k, w.routine.graph.blocks[c.block]? = some k := ⟨_, getElem?_eq_getElem hlt⟩
  have hmem := mem_of_getElem? hk
  have hstart : Follows w.routine w.state.inits w := ⟨rfl, rfl, rfl, rfl⟩
  refine .of_eq (block_eq hs hk) (setState_yields hstart fun w1 hw1 => ?_)
  have hops : Tracks w.routine (k.ops.forM (op c)) fun x =>
      k.ops.foldl (fun m o => o.effect w.routine.index m) x :=
    .forM fun o ho => op_tracks hc fun name hname =>
      hnames name (Graph.names_of_op hmem ho hname)
  refine hops.andThen hw1 fun _ w2 hw2 => ?_
  have hexit := exit_yields hc hk hgraph hsize
    (fun name hname => hnames name (Graph.names_of_exit hmem hname)) hw2
  unfold Graph.transfer
  rw [hk]
  exact hexit

end Exits

end Infer

end ShapeFlow
