/-
# Conditions lose nothing

A walk goes through a condition under one outcome at a time, and what it finds of
types depends on what it recorded and on the table as it then is.  But in each case
it does what the condition says: a test looks at its operands, which changes no
state, and then narrows the state as its outcome tells; `!`, `&&` and `||` put the
outcomes of their operands together.  The table that the last of the walks leaves
tells all of them the same as the one they had.

So the states in which a condition came out true and false, and the one for whatever
it comes out, are related as the outcomes of conditions are, in whatever order they
are computed.

Key definitions: `Expr.IsTest`, `Expr.IsCondition`, `Expr.narrowing`, `Expr.outcomes`,
`Infer.Meaning.statesUnder`.
Key theorems: `Expr.IsCondition.splits`, `Infer.narrow_narrows`,
`Infer.condition_comesOut`, `Infer.branching_lossless`.
-/
import ShapeFlow.Proofs.Branching
import ShapeFlow.Proofs.Repeating

namespace ShapeFlow

open ShapeFlow.Flow Infer List TypeSet ShapeFlow.Expr

/-! ### Conditions -/

/-- A test of variables: one by itself, `isset`, a library function that checks a kind,
`instanceof`, or a comparison in which literals may take part. -/
inductive Expr.IsTest (c : Setting) : Expr Nat → Prop
  | var (k : Nat) (x : String) : IsTest c (.var k x)
  | isset (k : Nat) (vs : List (Expr Nat)) (hvs : ∀ v ∈ vs, v.varName?.isSome = true) :
    IsTest c (.isset k vs)
  /-- No routine of the program answers to the name. -/
  | check (k j : Nat) (name x : String) (hchecks : (Library.checks? name).isSome = true)
    (hlibrary : (c.directory.candidates name).filterMap (c.signatures[·]?) = []) :
    IsTest c (.call k name [.var j x])
  | instanceOf (k j : Nat) (x className : String) : IsTest c (.instanceOf k (.var j x) className)
  | comparison (k : Nat) (op : BinOp) (l r : Expr Nat) (hop : op.isComparison = true)
    (hl : l.isAtom = true) (hr : r.isAtom = true) : IsTest c (.binary k op l r)

/-- Tests put together by `!`, `&&` and `||`. -/
inductive Expr.IsCondition (c : Setting) : Expr Nat → Prop
  | test {e : Expr Nat} (h : e.IsTest c) : IsCondition c e
  | not {e : Expr Nat} (k : Nat) (h : IsCondition c e) : IsCondition c (.unary k .not e)
  | and {l r : Expr Nat} (k : Nat) (hl : IsCondition c l) (hr : IsCondition c r) :
    IsCondition c (.binary k .and l r)
  | or {l r : Expr Nat} (k : Nat) (hl : IsCondition c l) (hr : IsCondition c r) :
    IsCondition c (.binary k .or l r)

namespace Narrowing

/-- What is told of a variable, if there is one. -/
def about (x : Option Nat) (E : Nat → Narrowing) : Narrowing := (x.map E).getD nothing

/-- A test for a kind came out so. -/
def ofKind (x : Nat) (k : Kind) : Bool → Narrowing
  | true => if k = .null then absent x else kind x k
  | false => if k = .null then present [x] else notKind x k

/-- A comparison with null came out so. -/
def ofNull (x : Nat) : BinOp → Bool → Narrowing
  | .identical, true | .notIdentical, false => absent x
  | .identical, false | .notIdentical, true | .eq, false | .notEq, true => present [x]
  | _, _ => nothing

/-- One is smaller than the other. -/
def ofOrder (low high : Option Nat) : Narrowing :=
  noted (low.toList.map (⟨·, .belowMax⟩) ++ high.toList.map (⟨·, .aboveMin⟩))

end Narrowing

/-- What is told of variables if the test came out as `outcome`; `ix` gives the index of a
variable. -/
def Expr.narrowing (ix : String → Nat) : Expr Nat → Bool → Narrowing
  | .var _ name, true => .present [ix name]
  | .isset _ vs, true => .present ((vs.filterMap varName?).map ix)
  | .isset _ [v], false => .about (v.varName?.map ix) .absent
  | .call _ name [arg], outcome =>
    match Library.checks? name with
    | some k => .about (arg.varName?.map ix) (.ofKind · k outcome)
    | none => .nothing
  | .instanceOf _ v className, true => .about (v.varName?.map ix) (.named · className)
  | .binary _ .lt l r, true => .ofOrder (l.varName?.map ix) (r.varName?.map ix)
  | .binary _ .gt l r, true => .ofOrder (r.varName?.map ix) (l.varName?.map ix)
  | .binary _ op l r, outcome => .about ((comparedVar? l r).map ix) (.ofNull · op outcome)
  | _, _ => .nothing

/-- What a condition makes of a state under each outcome. -/
def Expr.outcomes (t : ShapeTable) (ix : String → Nat) : Expr Nat → Outcomes
  | .unary _ .not e => Outcomes.negated (e.outcomes t ix)
  | .binary _ .and l r => Outcomes.short .holds (l.outcomes t ix) (r.outcomes t ix)
  | .binary _ .or l r => Outcomes.short .fails (l.outcomes t ix) (r.outcomes t ix)
  | e => Outcomes.test t (e.narrowing ix)

section Conditions

variable {c : Setting} {e : Expr Nat} {t : ShapeTable} {ix : String → Nat}

theorem Narrowing.opposed_ofKind (x : Nat) (k : Kind) :
    (ofKind x k true).Opposed (ofKind x k false) ∧ (ofKind x k false).notes = [] := by
  by_cases hk : k = .null
  · simp only [ofKind, if_pos hk]
    exact ⟨.symm (.present x), rfl⟩
  · simp only [ofKind, if_neg hk]
    exact ⟨.kind x k, rfl⟩

theorem Narrowing.opposed_ofNull (x : Nat) (op : BinOp) :
    (ofNull x op true).Opposed (ofNull x op false) ∧ (ofNull x op false).notes = [] := by
  refine ⟨?_, by cases op <;> rfl⟩
  cases op with
  | identical => exact .symm (.present x)
  | notIdentical => exact .present x
  | eq => exact .symm (.nothing _)
  | _ => exact .nothing _

theorem Expr.IsTest.opposed (h : e.IsTest c) (ix : String → Nat) :
    (e.narrowing ix true).Opposed (e.narrowing ix false) ∧ (e.narrowing ix false).notes = [] := by
  cases h with
  | var k x => exact ⟨.nothing _, rfl⟩
  | isset k vs hvs =>
    match vs with
    | [] => exact ⟨.nothing _, rfl⟩
    | [v] =>
      obtain ⟨x, hx⟩ := Option.isSome_iff_exists.1 (hvs v (.head _))
      simp only [narrowing, filterMap_cons, filterMap_nil, hx]
      exact ⟨.present (ix x), rfl⟩
    | _ :: _ :: _ => exact ⟨.nothing _, rfl⟩
  | check k j name x hchecks =>
    obtain ⟨kind, hkind⟩ := Option.isSome_iff_exists.1 hchecks
    simp only [narrowing, hkind]
    exact Narrowing.opposed_ofKind (ix x) kind
  | instanceOf k j x className => exact ⟨.nothing _, rfl⟩
  | comparison k op l r hop =>
    have hnull : (Narrowing.about ((comparedVar? l r).map ix) (.ofNull · op true)).Opposed
        (.about ((comparedVar? l r).map ix) (.ofNull · op false)) ∧
        (Narrowing.about ((comparedVar? l r).map ix) (.ofNull · op false)).notes = [] := by
      rcases comparedVar? l r with _ | x
      · exact ⟨.nothing _, rfl⟩
      · exact Narrowing.opposed_ofNull (ix x) op
    -- only "less" and "greater" that come out true make notes
    cases op with
    | lt => exact ⟨.noted _ _, hnull.2⟩
    | gt => exact ⟨.noted _ _, hnull.2⟩
    | _ => exact hnull

theorem Expr.IsTest.outcomes_eq (h : e.IsTest c) :
    e.outcomes t ix = Outcomes.test t (e.narrowing ix) := by
  cases h with
  | comparison k op l r hop => cases op <;> first | rfl | cases hop
  | _ => rfl

/-- **Conditions split states without loss.** -/
theorem Expr.IsCondition.splits (h : e.IsCondition c) (t : ShapeTable) (ix : String → Nat) :
    (e.outcomes t ix).Splits := by
  induction h with
  | test h =>
    rw [h.outcomes_eq]
    exact Outcomes.splits_test (h.opposed ix).1 (h.opposed ix).2
  | not k _ ih => exact ih.negated
  | and _ _ _ ihl ihr | or _ _ _ ihl ihr => exact ihl.short ihr (by decide)

end Conditions

/-! ### Longer tables -/

namespace ShapeTable

variable {t t' : ShapeTable} {m : TypeSet}

theorem found_null (t : ShapeTable) (m : TypeSet) : t.found m .null = .null := by
  unfold found
  split
  · rfl
  next hsome =>
    rw [Bool.or_eq_true, not_or] at hsome
    have hany : ¬ m.isAny = true := fun h => hsome.2 (by rw [restrict, if_pos h]; rfl)
    rw [restrict, if_neg hany] at hsome ⊢
    obtain ⟨j, hj⟩ := not_forall_not.1 (mt isVoid_iff.2 hsome.1)
    obtain ⟨hjm, hj⟩ := mem_common.1 hj
    have hnull : ∀ i ∈ null, i = 0 := fun i hi => (mem_single.1 hi).1
    refine ext_mem (fun i => mem_common.trans (and_iff_right_of_imp fun hi => ?_)) rfl
    rwa [hnull i hi, ← hnull j hj]

theorem Extends.found (h : t.Extends t') (hm : t.Knows m) (k : Kind) : t'.found m k = t.found m k := by
  rw [ShapeTable.found, ShapeTable.found, h.restrict hm]

theorem named_again {name : String} (h : (t.named name).2.Extends t') :
    (t'.named name).1 = (t.named name).1 := by
  rw [named, intern_again h, named]

end ShapeTable

namespace Infer

variable {β γ : Type} {r : Routine} {w w' w'' : Walker} {e : Expr Nat} {c : Setting} {k : Nat}
  {x : String}

/-! ### Looking at operands -/

/-- The step succeeds, and ends as `Q` says. -/
abbrev Gets (m : Walk β) (w : Walker) (Q : β → Walker → Prop) : Prop :=
  Ends (fun _ _ => False) m w Q

variable {m : Walk β} {f : β → Walk γ} {Q : β → Walker → Prop}

theorem Gets.discard {P : Walker → Prop} (h : Gets m w fun _ w' => P w') :
    Gets (discard m) w fun _ w' => P w' := by
  rw [discard_eq]
  exact h.andThen fun _ _ hP => hP

theorem getState_gets : Gets getState w fun s w' => s = w.state ∧ w' = w := ⟨rfl, rfl⟩

theorem setState_gets (s : State) : Gets (setState s) w fun _ w' => w' = { w with state := s } := rfl

theorem getTable_gets : Gets getTable w fun t w' => t = w.table ∧ w' = w := ⟨rfl, rfl⟩

theorem Gets.exists_ok (h : Gets m w Q) : ∃ b w', m w = .ok b w' ∧ Q b w' := by
  unfold Gets Ends at h
  rcases hm : m w with ⟨b, w'⟩ | ⟨f, w'⟩ <;> rw [hm] at h
  · exact ⟨b, w', rfl, h⟩
  · exact h.elim

/-- `w'` differs from `w` only in what has been recorded. -/
structure Looked (w w' : Walker) : Prop where
  state : w'.state = w.state
  table : w'.table = w.table
  names : w'.routine.scope.names = w.routine.scope.names
  size : w'.routine.facts.size = w.routine.facts.size

theorem Looked.refl (w : Walker) : Looked w w := ⟨rfl, rfl, rfl, rfl⟩

theorem Looked.trans (h : Looked w w') (h' : Looked w' w'') : Looked w w'' :=
  ⟨h'.state.trans h.state, h'.table.trans h.table, h'.names.trans h.names, h'.size.trans h.size⟩

theorem looked_withFact (k : Nat) (f : Fact → Fact) : Looked w (withFact w k f) :=
  ⟨rfl, rfl, rfl, Array.size_modify⟩

/-- The step succeeds and changes neither state nor table. -/
def Looks (m : Walk β) (w : Walker) : Prop := Gets m w fun _ w' => Looked w w'

theorem looks_pure (b : β) : Looks (pure b) w := .refl w

theorem Looks.bind (h : Looks m w) (hf : ∀ b w', Looked w w' → Looks (f b) w') :
    Looks (m >>= f) w :=
  Ends.andThen h fun b w' hw' => (hf b w' hw').imp fun _ _ hw'' => hw'.trans hw''

theorem Looks.discard (h : Looks m w) : Looks (discard m) w := Gets.discard h

theorem Looks.forM {f : β → Walk PUnit} : ∀ {l : List β} {w : Walker},
    (∀ x ∈ l, ∀ w', Looked w w' → Looks (f x) w') → Looks (l.forM f) w
  | [], _, _ => looks_pure _
  | x :: _, w, h => (h x (.head _) w (.refl w)).bind fun _ _ h1 =>
      .forM fun y hy w' h2 => h y (.tail _ hy) w' (h1.trans h2)

theorem looks_record (hk : k < w.routine.facts.size) (s : TypeSet) : Looks (record k s) w :=
  .of_ok (record_eq hk s) (looked_withFact k _)

theorem Looks.recorded {m : Walk TypeSet} (h : Looks m w) (hk : k < w.routine.facts.size) :
    Looks (recorded k m) w :=
  h.bind fun s _ h1 => (looks_record (h1.size ▸ hk) s).bind fun _ _ _ => looks_pure s

/-- The walker has a place for what it finds of `e`, and `e` is about variables of `r`. -/
structure Prepared (r : Routine) (e : Expr Nat) (w : Walker) : Prop where
  names : w.routine.scope.names = r.scope.names
  mentions : Mentions r e
  tags : ∀ x ∈ e.walk, x.tag < w.routine.facts.size

theorem Prepared.looked (h : Prepared r e w) (hl : Looked w w') : Prepared r e w' :=
  ⟨hl.names.trans h.names, h.mentions, fun x hx => hl.size ▸ h.tags x hx⟩

theorem Prepared.operand {x : Expr Nat} (h : Prepared r e w) (hx : x ∈ e.operands) :
    Prepared r x w :=
  ⟨h.names, h.mentions.operand hx, fun y hy => h.tags y (mem_walk_of_operand hx hy)⟩

theorem Prepared.tag (h : Prepared r e w) : e.tag < w.routine.facts.size := h.tags e e.mem_walk_self

theorem useVar_gets (hnames : SameVars r w) (hx : x ∈ r.scope.names) :
    Gets (useVar x) w fun i w' => i = r.index x ∧ Looked w w' :=
  .of_ok (useVar_eq hnames hx) ⟨rfl, rfl, rfl, rfl, rfl⟩

theorem readVariable_looks (hw : Prepared r (.var k x) w) (quiet : Bool) :
    Looks (readVariable k x quiet) w := by
  have huse : Looks (useVar x) w :=
    (useVar_gets hw.names (hw.mentions.self x rfl)).imp fun _ _ h => h.2
  refine huse.bind fun i w1 _ => ?_
  refine .bind (m := getState) (.refl w1) fun s w2 _ => ?_
  cases quiet
  · exact .bind (m := noteRead k i _ _) (looked_withFact k _) fun _ _ _ => looks_pure _
  · exact looks_pure _

theorem atom_looks (hatom : e.isAtom = true) (hw : Prepared r e w) : Looks (e.meaning c).value w := by
  cases e with
  | lit k kind =>
    rw [meaning]
    exact (looks_pure _).recorded hw.tag
  | var k x =>
    rw [meaning]
    exact (readVariable_looks hw false).recorded hw.tag
  | _ => cases hatom

theorem quiet_looks (hvar : e.varName?.isSome = true) (hw : Prepared r e w) :
    Looks (e.meaning c).quiet w := by
  cases e with
  | var k x =>
    rw [meaning]
    exact (readVariable_looks hw true).recorded hw.tag
  | _ => cases hvar

theorem call_looks {name : String} {arg : Expr Nat} (hatom : arg.isAtom = true)
    (hlibrary : (c.directory.candidates name).filterMap (c.signatures[·]?) = [])
    (hw : Prepared r (.call k name [arg]) w) :
    Looks (call c k name [arg] (meanings c [arg])) w := by
  have harg : arg ∈ (Expr.call k name [arg]).operands := by simp [operands]
  have hbind : ∀ (w : Walker) (x : Target) (s : TypeSet), Looks (do bindCall k x; return s) w :=
    fun w x s => .bind (m := bindCall k x) (looked_withFact k _) fun _ _ _ => looks_pure s
  have hargs : Looks (argTypes c name [arg]) w := by
    unfold argTypes
    rw [hlibrary, meanings_eq, map_singleton, zipIdx_singleton, mapM_cons,
      mapM_nil]
    refine .bind ?_ fun _ _ _ => looks_pure _
    exact (atom_looks hatom (hw.operand harg)).bind fun _ _ _ => looks_pure _
  rw [call_eq, hlibrary]
  refine hargs.bind fun types w1 _ => ?_
  rw [if_pos isEmpty_nil]
  split
  next f _ =>
    split
    · exact .bind (m := addFlags _) ⟨rfl, rfl, rfl, rfl⟩ fun _ w2 _ => hbind w2 _ _
    · exact hbind w1 _ _
  next => exact hbind w1 _ _

/-- **A test looks** at its operands before it tells anything. -/
theorem test_looks (h : e.IsTest c) : ∃ step : Walk TypeSet,
    (∀ b, (e.meaning c).assume b = (Meaning.ofValue e step).assume b) ∧
      ∀ w, Prepared r e w → Looks step w := by
  cases h with
  | var k x =>
    refine ⟨readVariable k x false, fun b => ?_, fun w hw => readVariable_looks hw false⟩
    rw [meaning]
  | isset k vs hvs =>
    refine ⟨_, fun b => by rw [meaning], fun w hw => ?_⟩
    refine .bind ?_ fun _ _ _ => looks_pure _
    rw [meanings_eq, forM_eq_forM, forM_map]
    refine .forM fun v hv w' hw' => .discard ?_
    exact quiet_looks (hvs v hv) ((hw.operand hv).looked hw')
  | check k j name x _ hlibrary =>
    exact ⟨_, fun b => by rw [meaning], fun w hw => call_looks rfl hlibrary hw⟩
  | instanceOf k j x className =>
    refine ⟨_, fun b => by rw [meaning], fun w hw => ?_⟩
    exact (atom_looks rfl (hw.operand (.head _))).bind fun _ _ _ => looks_pure _
  | comparison k op l m hop hl hm =>
    have hplain : op.IsPlain := by refine ⟨?_, ?_, ?_⟩ <;> rintro rfl <;> cases hop
    refine ⟨_, fun b => by rw [meaning_binary hplain], fun w hw => ?_⟩
    refine (atom_looks hl (hw.operand (.head _))).bind fun s w1 h1 => ?_
    refine (atom_looks hm ((hw.operand (.tail _ (.head _))).looked h1)).bind fun t w2 _ => ?_
    exact .bind (m := getTable) (.refl w2) fun _ _ _ => looks_pure _

/-! ### Narrowing by tests -/

/-- `w'` comes from `w` by narrowing its state as `E` tells, whatever longer table it is looked
up in. -/
structure NarrowedBy (E : Narrowing) (w w' : Walker) : Prop where
  table : w.table.Extends w'.table
  names : w'.routine.scope.names = w.routine.scope.names
  size : w'.routine.facts.size = w.routine.facts.size
  gives : ∀ T : ShapeTable, w'.table.Extends T → T.Valid → E.Gives T w.state w'.state

section NarrowedBy

variable {E : Narrowing} {l m : Expr Nat}

theorem NarrowedBy.after (h : NarrowedBy E w' w'') (hl : Looked w w') : NarrowedBy E w w'' where
  table := hl.table ▸ h.table
  names := h.names.trans hl.names
  size := h.size.trans hl.size
  gives T hT hv := hl.state ▸ h.gives T hT hv

theorem NarrowedBy.same (h : ∀ T, E.apply T w.state = w.state) : NarrowedBy E w w where
  table := .refl _
  names := rfl
  size := rfl
  gives T _ _ := ⟨[], nil_subset _, (h T).symm⟩

theorem NarrowedBy.present_append {xs ys : List Nat} (h : NarrowedBy (.present xs) w w')
    (h' : NarrowedBy (.present ys) w' w'') : NarrowedBy (.present (xs ++ ys)) w w'' where
  table := h.table.trans h'.table
  names := h'.names.trans h.names
  size := h'.size.trans h.size
  gives T hT hv := by
    obtain ⟨l, hl, hs⟩ := h.gives T (h'.table.trans hT) hv
    obtain ⟨l', hl', hs'⟩ := h'.gives T hT hv
    -- neither makes notes
    obtain rfl := subset_nil.1 hl
    obtain rfl := subset_nil.1 hl'
    refine ⟨[], nil_subset _, ?_⟩
    rw [hs', hs]
    exact foldl_append.symm

theorem NarrowedBy.noted_append {ns ms : List Note} (h : NarrowedBy (.noted ns) w w')
    (h' : NarrowedBy (.noted ms) w' w'') : NarrowedBy (.noted (ns ++ ms)) w w'' where
  table := h.table.trans h'.table
  names := h'.names.trans h.names
  size := h'.size.trans h.size
  gives T hT hv := by
    obtain ⟨l, hl, hs⟩ := h.gives T (h'.table.trans hT) hv
    obtain ⟨l', hl', hs'⟩ := h'.gives T hT hv
    refine ⟨l ++ l', append_subset.2 ⟨subset_append_of_subset_left _ hl,
      subset_append_of_subset_right _ hl'⟩, ?_⟩
    rw [foldl_append, hs']
    exact congrArg (foldl State.addNote · l') hs

theorem modifyState_narrows {f : State → State}
    (h : ∀ T, w.table.Extends T → E.apply T w.state = f w.state) :
    Gets (modifyState f) w fun _ w' => NarrowedBy E w w' :=
  show NarrowedBy E w { w with state := f w.state } from
    ⟨.refl _, rfl, rfl, fun T hT _ => ⟨[], nil_subset _, (h T hT).symm⟩⟩

theorem assumeNotNull_narrows (i : Nat) :
    Gets (assumeNotNull i) w fun _ w' => NarrowedBy (.present [i]) w w' :=
  modifyState_narrows fun _ _ => rfl

theorem ifVar_narrows {o : Option String} (hnames : SameVars r w)
    (ho : ∀ x ∈ o, x ∈ r.scope.names) {F : Nat → Narrowing} {f : Nat → Walk Unit}
    (hf : ∀ i w', Looked w w' → Gets (f i) w' fun _ w'' => NarrowedBy (F i) w' w'') :
    Gets (do if let some i ← o.mapM useVar then f i) w
      fun _ w' => NarrowedBy (.about (o.map r.index) F) w w' := by
  rcases o with _ | x
  · exact NarrowedBy.same (E := .nothing) fun _ => rfl
  · rw [show (Option.mapM useVar (some x) : Walk (Option Nat)) =
      (useVar x >>= fun i => pure (some i)) from rfl, bind_assoc]
    refine (useVar_gets hnames (ho x rfl)).andThen fun i w1 h1 => ?_
    obtain ⟨rfl, h1⟩ := h1
    exact (hf _ w1 h1).imp fun _ _ h => h.after h1

theorem isset_narrows : ∀ {vs : List (Expr Nat)} {w : Walker},
    SameVars r w → (∀ v ∈ vs, Mentions r v) →
    (∀ v ∈ vs, v.varName?.isSome = true) →
    Gets (vs.forM fun v => do if let some i ← varOf? v then assumeNotNull i) w
      fun _ w' => NarrowedBy (.present ((vs.filterMap varName?).map r.index)) w w'
  | [], w, _, _, _ => NarrowedBy.same fun _ => rfl
  | v :: vs, w, hnames, hmentions, hvs => by
    obtain ⟨x, hx⟩ := Option.isSome_iff_exists.1 (hvs v (.head _))
    have hfirst := ifVar_narrows (F := fun i => .present [i]) hnames
      (hmentions v (.head _)).self fun i w' _ => assumeNotNull_narrows (w := w') i
    rw [hx] at hfirst
    rw [filterMap_cons_some hx, map_cons]
    refine Ends.andThen (m := do if let some i ← varOf? v then assumeNotNull i)
      (by unfold varOf?; rw [hx]; exact hfirst) fun _ w1 h1 => ?_
    have hrest := isset_narrows (h1.names.trans hnames)
      (fun y hy => hmentions y (.tail _ hy))
      fun y hy => hvs y (.tail _ hy)
    exact hrest.imp fun _ _ h => h1.present_append h

theorem narrowByKind_narrows (hv : w.table.Valid) (hknown : State.Known w.table w.state) (i : Nat)
    (k : Kind) (outcome : Bool) :
    Gets (narrowByKind i k outcome) w fun _ w' => NarrowedBy (.ofKind i k outcome) w w' := by
  have hcur : w.table.Knows (current w.state i) := by
    have hget := (hknown.get i).plain
    exact hget.ite (hget.union hv.knows_null)
  refine getTable_gets.andThen fun t w' h => ?_
  obtain ⟨rfl, rfl⟩ := h
  by_cases hk : k = .null
  · subst hk
    cases outcome
    · exact assumeNotNull_narrows i
    · simp only [Narrowing.ofKind, if_true]
      refine modifyState_narrows fun T _ => ?_
      exact congrArg (w'.state.narrow i) (w'.table.found_null (current w'.state i)).symm
  · cases outcome
    · simp only [Narrowing.ofKind, if_neg hk, Bool.false_eq_true, if_false]
      refine modifyState_narrows fun T hT => ?_
      exact congrArg (w'.state.narrow i) (hT.remove_ofKind hcur k)
    · simp only [Narrowing.ofKind, if_neg hk, if_true]
      refine modifyState_narrows fun T hT => ?_
      exact congrArg (w'.state.assign i) (hT.found hcur k)

theorem narrowByNull_narrows (i : Nat) (op : BinOp) (outcome : Bool) :
    Gets (narrowByNull i op outcome) w fun _ w' => NarrowedBy (.ofNull i op outcome) w w' := by
  cases op <;> cases outcome <;>
    first
      | exact NarrowedBy.same fun _ => rfl
      | exact assumeNotNull_narrows i
      | exact modifyState_narrows fun _ _ => rfl

theorem named_narrows (i : Nat) (className : String) :
    Gets (do let s ← intern (·.named className); modifyState (·.assign i s)) w
      fun _ w' => NarrowedBy (.named i className) w w' :=
  show NarrowedBy (.named i className) w { w with
      table := (w.table.named className).2
      state := w.state.assign i (w.table.named className).1 } from
    { table := ShapeTable.extends_intern _ _
      names := rfl
      size := rfl
      gives := fun _ hT _ => ⟨[], nil_subset _,
        congrArg (w.state.assign i) (ShapeTable.named_again hT).symm⟩ }

theorem noteLimit_narrows (limit : Limit) (known : Bool)
    (hnames : SameVars r w) (he : Mentions r e) :
    Gets (noteLimit limit known e) w
      fun _ w' => NarrowedBy (.noted ((e.varName?.map r.index).toList.map (⟨·, limit⟩))) w w' := by
  cases known
  · exact NarrowedBy.same fun _ => rfl
  · refine (ifVar_narrows (F := fun i => .noted [⟨i, limit⟩]) hnames he.self fun i w' _ => ?_).imp
      fun _ w' h => ?_
    · exact ⟨.refl _, rfl, rfl, fun _ _ _ => ⟨_, .refl _, rfl⟩⟩
    · revert h
      rcases e.varName? with _ | x
      · exact fun h => { h with gives := h.gives }
      · exact id

theorem isIntSoFar_gets (k : Nat) : Gets (isIntSoFar k) w fun _ w' => w' = w := rfl

theorem narrowByOrder_narrows {low high : Expr Nat} (hnames : SameVars r w)
    (hlow : Mentions r low) (hhigh : Mentions r high) :
    Gets (narrowByOrder low high) w fun _ w' =>
      NarrowedBy (.ofOrder (low.varName?.map r.index) (high.varName?.map r.index)) w w' := by
  rw [narrowByOrder_eq]
  refine (isIntSoFar_gets high.tag).andThen fun known w1 h1 => ?_
  subst h1
  refine (noteLimit_narrows _ known hnames hlow).andThen fun _ w2 h2 => ?_
  refine (isIntSoFar_gets low.tag).andThen fun known w3 h3 => ?_
  subst h3
  exact (noteLimit_narrows _ known (h2.names.trans hnames) hhigh).imp fun _ _ h => h2.noted_append h

theorem comparedWithNull_eq (l m : Expr Nat) :
    comparedWithNull l m = (comparedVar? l m).mapM useVar := by
  unfold comparedWithNull comparedVar? varOf?
  cases l.isNull <;> cases m.isNull <;> rfl

theorem comparedVar?_mem (hl : Mentions r l) (hm : Mentions r m) :
    ∀ x ∈ comparedVar? l m, x ∈ r.scope.names := by
  unfold comparedVar?
  split
  · exact hl.self
  · exact hm.self
  · simp

theorem comparison_narrows (op : BinOp) (outcome : Bool)
    (hnames : SameVars r w) (hl : Mentions r l) (hm : Mentions r m) :
    Gets (do
      if op = .identical || op = .notIdentical || op = .eq || op = .notEq then
        if let some i ← comparedWithNull l m then narrowByNull i op outcome) w
      fun _ w' => NarrowedBy (.about ((comparedVar? l m).map r.index) (.ofNull · op outcome)) w w' := by
  split
  · rw [comparedWithNull_eq]
    exact ifVar_narrows hnames (comparedVar?_mem hl hm) fun i w' _ => narrowByNull_narrows i op outcome
  next hop =>
    refine NarrowedBy.same fun T => ?_
    rcases comparedVar? l m with _ | x
    · rfl
    · cases op <;> first | rfl | exact absurd rfl hop

/-- **A test narrows** the state as its outcome tells. -/
theorem narrow_narrows (h : e.IsTest c) (hw : Prepared r e w) (hv : w.table.Valid)
    (hknown : State.Known w.table w.state) (outcome : Bool) :
    Gets (narrow e outcome) w fun _ w' => NarrowedBy (e.narrowing r.index outcome) w w' := by
  have hop : ∀ x ∈ e.operands, Mentions r x := fun x hx => hw.mentions.operand hx
  cases h with
  | var k x =>
    cases outcome
    · exact NarrowedBy.same fun _ => rfl
    · exact ifVar_narrows hw.names hw.mentions.self fun i _ _ => assumeNotNull_narrows i
  | isset k vs hvs =>
    cases outcome
    · match vs with
      | [] => exact NarrowedBy.same fun _ => rfl
      | [v] =>
        exact ifVar_narrows hw.names (hop v (.head _)).self
          fun i _ _ => modifyState_narrows fun _ _ => rfl
      | _ :: _ :: _ => exact NarrowedBy.same fun _ => rfl
    · exact isset_narrows hw.names hop hvs
  | check k j name x hchecks =>
    obtain ⟨kind, hkind⟩ := Option.isSome_iff_exists.1 hchecks
    simp only [narrow, narrowing, hkind]
    refine ifVar_narrows hw.names (hop _ (.head _)).self fun i w' hl => ?_
    exact narrowByKind_narrows (hl.table ▸ hv) (hl.table ▸ hl.state ▸ hknown) i kind outcome
  | instanceOf k j x className =>
    cases outcome
    · exact NarrowedBy.same fun _ => rfl
    · exact ifVar_narrows hw.names (hop _ (.head _)).self
        fun i _ _ => named_narrows i className
  | comparison k op l m hcomp =>
    have hl : Mentions r l := hop l (.head _)
    have hm : Mentions r m := hop m (.tail _ (.head _))
    have hnull := comparison_narrows op outcome hw.names hl hm
    cases op with
    | lt =>
      cases outcome
      · exact hnull
      · exact narrowByOrder_narrows hw.names hl hm
    | gt =>
      cases outcome
      · exact hnull
      · exact narrowByOrder_narrows hw.names hm hl
    | _ => exact hnull

end NarrowedBy

/-! ### Going through conditions -/

section ComesOut

variable {g : Place} {l m : Expr Nat}

/-- Going through `e` makes of the state what the condition says, in whatever longer table its
types are looked up. -/
def ComesOut (g : Place) (r : Routine) (e : Expr Nat) : Prop := ∀ b w, Sane g w →
  Gets ((e.meaning g.setting).assume b) w fun _ w' => Sane g w' ∧ Learns g w w' ∧
    ∀ T : ShapeTable, w'.table.Extends T → T.Valid → e.outcomes T r.index b w.state w'.state

theorem Gets.and_runs {m : Walk β} {R : β → Walker → Prop} (h : Gets m w Q) (hm : Runs g m w R) :
    Gets m w fun b w' => Sane g w' ∧ Learns g w w' ∧ Q b w' := by
  unfold Runs at hm
  unfold Gets at h ⊢
  unfold Ends at h hm ⊢
  rcases hmw : m w with ⟨b, w'⟩ | ⟨f, w'⟩ <;> rw [hmw] at h hm
  · exact ⟨hm.1, hm.2.1, h⟩
  · exact h

theorem Sane.prepared (hw : Sane g w) (hr : r.scope.names = g.names) (he : Fits g e) :
    Prepared r e w where
  names := hw.names.trans hr.symm
  mentions x hx name hname := hr ▸ (he x hx).2.1 name hname
  tags x hx := hw.tags _ (he x hx).1

theorem recorded_gets {m : Walk TypeSet} {P : State → ShapeTable → Prop}
    (h : Gets m w fun _ w' => k < w'.routine.facts.size ∧ P w'.state w'.table) :
    Gets (recorded k m) w fun _ w' => P w'.state w'.table := by
  refine h.andThen fun s w1 h1 => ?_
  refine (looks_record h1.1 s).andThen fun _ w2 h2 => ?_
  show P w2.state w2.table
  rw [h2.state, h2.table]
  exact h1.2

theorem joinWith_gets {before c : State} (h : before.join w.state = .ok c) :
    Gets (joinWith before) w fun _ w' => w' = { w with state := c } := by
  show Ends _ (ofExcept (before.join w.state) >>= setState) w _
  rw [h]
  rfl

theorem narrowTo_gets (h : e.IsTest c) (hw : Prepared r e w) (hv : w.table.Valid)
    (hknown : State.Known w.table w.state) (b : Branch) :
    Gets (narrowTo e b) w fun _ w' => w'.routine.facts.size = w.routine.facts.size ∧
      ∀ T : ShapeTable, w'.table.Extends T → T.Valid → e.outcomes T r.index b w.state w'.state := by
  simp only [h.outcomes_eq]
  cases b with
  | either => exact ⟨rfl, fun _ _ _ => rfl⟩
  | holds => exact (narrow_narrows h hw hv hknown true).imp fun _ _ h => ⟨h.size, h.gives⟩
  | fails => exact (narrow_narrows h hw hv hknown false).imp fun _ _ h => ⟨h.size, h.gives⟩

theorem test_comesOut (hfree : g.Free) (h : e.IsTest g.setting) (hr : r.scope.names = g.names)
    (he : Fits g e) : ComesOut g r e := by
  intro b w hw
  refine Gets.and_runs ?_ ((meaning_sound hfree e he).assume b w hw)
  obtain ⟨step, hstep, hlooks⟩ := test_looks (r := r) h
  have hprepared := hw.prepared hr he
  rw [hstep]
  refine recorded_gets (P := fun s t => ∀ T : ShapeTable, t.Extends T → T.Valid →
    e.outcomes T r.index b w.state s) ?_
  refine (hlooks w hprepared).andThen fun s w1 h1 => ?_
  refine (narrowTo_gets h (hprepared.looked h1) (h1.table ▸ hw.table)
    (h1.table ▸ h1.state ▸ hw.known) b).andThen fun _ w2 h2 => ?_
  refine ⟨?_, fun T hT hv => h1.state ▸ h2.2 T hT hv⟩
  rw [h2.1, h1.size]
  exact hprepared.tag

/-- What a condition is put together of comes out, and so does the condition. -/
theorem ofCondition_comesOut (hfree : g.Free) (he : Fits g e) {step : Branch → Walk Unit}
    (hm : e.meaning g.setting = Meaning.ofCondition e step)
    (hstep : ∀ b w, Sane g w → Gets (step b) w fun _ w' => Sane g w' ∧
      ∀ T : ShapeTable, w'.table.Extends T → T.Valid → e.outcomes T r.index b w.state w'.state) :
    ComesOut g r e := by
  intro b w hw
  refine Gets.and_runs ?_ ((meaning_sound hfree e he).assume b w hw)
  rw [hm]
  refine recorded_gets (P := fun s t => ∀ T : ShapeTable, t.Extends T → T.Valid →
    e.outcomes T r.index b w.state s) ?_
  exact (hstep b w hw).andThen fun _ w1 h1 => ⟨h1.1.tags _ he.tag, h1.2⟩

theorem shortCircuit_gets (hl : ComesOut g r l) (hm : ComesOut g r m) (runs b : Branch)
    (hw : Sane g w) :
    Gets (Meaning.shortCircuit runs (l.meaning g.setting) (m.meaning g.setting) b) w fun _ w' =>
      Sane g w' ∧ ∀ T : ShapeTable, w'.table.Extends T → T.Valid →
        Outcomes.short runs (l.outcomes T r.index) (m.outcomes T r.index) b w.state w'.state := by
  unfold Meaning.shortCircuit Outcomes.short
  by_cases hb : b = runs
  · subst hb
    simp only [if_true]
    refine (hl b w hw).andThen fun _ w1 ⟨hw1, _, h1⟩ => ?_
    refine (hm b w1 hw1).andThen fun _ w2 ⟨hw2, hl2, h2⟩ => ?_
    exact ⟨hw2, fun T hT hv => ⟨w1.state, h1 T (hl2.table.trans hT) hv, h2 T hT hv⟩⟩
  · simp only [if_neg hb]
    refine getState_gets.andThen fun start w' h => ?_
    obtain ⟨rfl, rfl⟩ := h
    refine (hl runs.negate w' hw).andThen fun _ w1 ⟨hw1, hl1, h1⟩ => ?_
    refine getState_gets.andThen fun decided u h => ?_
    obtain ⟨rfl, rfl⟩ := h
    -- the second time from the start again, but with whatever the first one has recorded
    have hback : Sane g { u with state := w'.state } :=
      hw1.withState hw.fits (hw.known.mono hl1.table)
    refine (setState_gets w'.state).andThen fun _ v h => ?_
    subst h
    refine (hl runs _ hback).andThen fun _ w3 ⟨hw3, hl3, h3⟩ => ?_
    refine (hm b w3 hw3).andThen fun _ w4 ⟨hw4, hl4, h4⟩ => ?_
    obtain ⟨c, hc, hfits, -⟩ := State.join_spec hw1.fits hw4.fits
    have hcknown := (hw1.known.mono (hl3.table.trans hl4.table)).join hw4.known hw4.table hw1.fits
      hw4.fits hc
    refine (joinWith_gets hc).imp fun _ w5 h => ?_
    subst h
    refine ⟨hw4.withState hfits hcknown, fun T hT hv => ?_⟩
    have hT3 : w3.table.Extends T := hl4.table.trans hT
    exact ⟨u.state, w3.state, w4.state, h1 T (hl3.table.trans hT3) hv, h3 T hT3 hv, h4 T hT hv, hc⟩

/-- **Conditions come out** as they say. -/
theorem condition_comesOut (hfree : g.Free) (h : e.IsCondition g.setting)
    (hr : r.scope.names = g.names) (he : Fits g e) : ComesOut g r e := by
  induction h with
  | test h => exact test_comesOut hfree h hr he
  | not k _ ih =>
    refine ofCondition_comesOut hfree he (by rw [meaning]) fun b w hw => ?_
    exact .discard ((ih (he.operand (.head _)) b.negate w hw).imp
      fun _ _ h => ⟨h.1, h.2.2⟩)
  | and k _ _ ihl ihr =>
    refine ofCondition_comesOut hfree he (by rw [meaning]) fun b w hw => ?_
    exact shortCircuit_gets (ihl (he.operand (.head _)))
      (ihr (he.operand (.tail _ (.head _)))) .holds b hw
  | or k _ _ ihl ihr =>
    refine ofCondition_comesOut hfree he (by rw [meaning]) fun b w hw => ?_
    exact shortCircuit_gets (ihl (he.operand (.head _)))
      (ihr (he.operand (.tail _ (.head _)))) .fails b hw

/-! ### One outcome after the other -/

/-- The states that a condition leaves under each of the outcomes.  It is gone through from the
current state each time. -/
def Meaning.statesUnder (m : Meaning) (bs : List Branch) : Walk (List State) := do
  let start ← getState
  bs.mapM fun b => do
    setState start
    let _ ← m.assume b
    getState

theorem statesUnder_gets (h : ComesOut g r e) {start : State}
    (hfits : State.Fits g.routine g.vars start) : ∀ (bs : List Branch) (w : Walker), Sane g w →
    State.Known w.table start →
    Gets (bs.mapM fun b => do
      setState start
      let _ ← (e.meaning g.setting).assume b
      getState) w fun ss w' => Sane g w' ∧ w.table.Extends w'.table ∧
        ∀ T : ShapeTable, w'.table.Extends T → T.Valid →
          List.Forall₂ (fun b s => e.outcomes T r.index b start s) bs ss
  | [], w, hw, _ => by
    rw [mapM_nil]
    exact ⟨hw, .refl _, fun _ _ _ => .nil⟩
  | b :: bs, w, hw, hknown => by
    rw [mapM_cons, bind_assoc]
    refine (setState_gets start).andThen fun _ v hv => ?_
    subst hv
    rw [bind_assoc]
    refine (h b _ (hw.withState hfits hknown)).andThen fun _ w1 ⟨hw1, hl1, h1⟩ => ?_
    refine getState_gets.andThen fun s u hs => ?_
    obtain ⟨rfl, rfl⟩ := hs
    refine (statesUnder_gets h hfits bs u hw1 (hknown.mono hl1.table)).andThen
      fun ss w2 ⟨hw2, hext, hall⟩ => ?_
    exact ⟨hw2, hl1.table.trans hext, fun T hT hv => .cons (h1 T (hext.trans hT) hv) (hall T hT hv)⟩

/-- **Branching loses nothing.**  Whichever outcomes of a condition are gone through from a state
without aliases, and in whatever order, the state for whatever it comes out is below the join of
those for true and for false, and a note that is left in that join was there before. -/
theorem branching_lossless (hfree : g.Free) (h : e.IsCondition g.setting) (he : Fits g e)
    (hw : Sane g w) (hs : w.state.Unaliased) (bs : List Branch) :
    ∃ ss w', (e.meaning g.setting).statesUnder bs w = .ok ss w' ∧ ss.length = bs.length ∧
      ∀ a y n, (.either, a) ∈ bs.zip ss → (.holds, y) ∈ bs.zip ss → (.fails, n) ∈ bs.zip ss →
        ∃ m, y.join n = .ok m ∧ a ≤ m ∧ ∀ k ∈ m.notes, k ∈ w.state.notes := by
  have hcomes := condition_comesOut (r := w.routine) hfree h hw.names he
  obtain ⟨ss, w', hrun, hw', -, hall⟩ :=
    (statesUnder_gets hcomes hw.fits bs w hw hw.known).exists_ok
  -- all states are looked at in the table that is there in the end
  have hall := hall w'.table (ShapeTable.Extends.refl _) hw'.table
  refine ⟨ss, w', hrun, hall.length_eq.symm, fun a y n ha hy hn => ?_⟩
  have houtcome : ∀ {b s}, (b, s) ∈ bs.zip ss →
      e.outcomes w'.table w.routine.index b w.state s := List.forall₂_zip hall
  exact (h.splits _ _).either_le_join hs (houtcome ha) (houtcome hy) (houtcome hn)

/-- The condition `!($x instanceof C) && (is_int($y) || $y < 1)`. -/
def guarded : Expr Nat :=
  .binary 0 .and (.unary 1 .not (.instanceOf 2 (.var 3 "x") "C"))
    (.binary 4 .or (.call 5 "is_int" [.var 6 "y"]) (.binary 7 .lt (.var 8 "y") (.lit 9 .int)))

/-- A block that `guarded` stands in. -/
def guardedPlace : Place where
  setting := bareSetting
  routine := 1
  names := ["x", "y"]
  tags := (· < 10)
  calls _ _ _ := True

/-- Just before `guarded`, where `$x` need not have a value. -/
def guardedWalker : Walker :=
  { walkerWith .standard 10 [("x", .object ∪ .null), ("y", .int ∪ .null)] with
    state :=
      { scope := 1, slots := [.object ∪ .null, .int ∪ .null]
        possibly := .insert (.insert .empty 0) 1, certainly := .insert .empty 1
        notes := [⟨1, .aboveMin⟩] } }

theorem sane_guardedWalker : Sane guardedPlace guardedWalker := by
  have hstd := ShapeTable.valid_standard
  have hfacts : ∀ (k : Nat) (f : Fact), guardedWalker.routine.facts[k]? = some f → f = {} := by
    intro k f hf
    obtain ⟨hk, rfl⟩ := Array.getElem?_eq_some_iff.1 hf
    exact Array.getElem_replicate hk
  refine { table := hstd, id := rfl, scope := rfl, names := rfl, tags := fun k hk => ?_,
           facts := fun k f hf => ?_, fits := ?_, known := fun s hs => ?_,
           sigs := fun i s hs => ?_, edges := fun e he => ?_, reports := fun x hx => ?_ }
  · simpa [guardedWalker, walkerWith] using show k < 10 from hk
  · rw [hfacts k f hf]
    exact ⟨ShapeTable.knows_void, by simp, by simp⟩
  · refine ⟨rfl, rfl, by simp [guardedWalker], by simp [guardedWalker, guardedPlace, Place.vars],
      fun i hi => ?_⟩
    rcases i with _ | _ | i
    · decide
    · decide
    · exact (mem_any 0).2 (by decide)
  · rcases mem_cons.1 hs with rfl | hs
    · exact hstd.knows_object.union hstd.knows_null
    · rw [mem_singleton.1 hs]
      exact hstd.knows_int.union hstd.knows_null
  · cases hs
  · cases he
  · simp [guardedWalker, walkerWith] at hx

theorem isCondition_guarded : guarded.IsCondition guardedPlace.setting :=
  .and 0 (.not 1 (.test (.instanceOf 2 3 "x" "C")))
    (.or 4 (.test (.check 5 6 "is_int" "y" (by decide +kernel) (by decide +kernel)))
      (.test (.comparison 7 .lt (.var 8 "y") (.lit 9 .int) rfl rfl rfl)))

theorem fits_guardedPlace (h : ∀ x ∈ e.walk, x.tag < 10 ∧ ∀ name ∈ x.varName?, name ∈ ["x", "y"]) :
    Fits guardedPlace e :=
  fun x hx => ⟨(h x hx).1, (h x hx).2, fun _ _ _ _ => trivial⟩

theorem fits_guarded : Fits guardedPlace guarded := fits_guardedPlace (by decide)

/-- A branch on `guarded`. -/
theorem guarded_lossless : ∃ ss w',
    (guarded.meaning guardedPlace.setting).statesUnder [.either, .holds, .fails] guardedWalker =
        .ok ss w' ∧ ss.length = 3 ∧
      ∀ a y n, (.either, a) ∈ [Branch.either, .holds, .fails].zip ss →
        (.holds, y) ∈ [Branch.either, .holds, .fails].zip ss →
        (.fails, n) ∈ [Branch.either, .holds, .fails].zip ss →
        ∃ m, y.join n = .ok m ∧ a ≤ m ∧ ∀ k ∈ m.notes, k ∈ guardedWalker.state.notes := by
  refine branching_lossless (fun _ h => h) isCondition_guarded fits_guarded sane_guardedWalker ?_ _
  rintro (_ | _ | i)
  · rfl
  · rfl
  · rfl

end ComesOut

end Infer

end ShapeFlow
