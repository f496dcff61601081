/-
# What a walk leaves alone

A walk stores into variables and tests them.  A store replaces what a variable
holds; a test that comes out one way may rule shapes out, but then those are what
is left when it comes out the other way.  So whatever a variable holds stays in
its slot unless code stores into it, and whatever is known of an expression stays
unless the walk goes through that expression.

Key definitions: `Expr.stored`, `State.Holds`, `Tolerant`, `Keeps`.
Key theorem: `Infer.meaning_keeps`.
-/
import ShapeFlow.Proofs.Tracking

namespace ShapeFlow

open ShapeFlow.Flow Infer List TypeSet
open ShapeFlow.Expr (meaning)

/-! ### What code stores into -/

namespace Expr

variable {α : Type} {name : String}

/-- The variable that a store into the expression changes. -/
def base? : Expr α → Option String
  | var _ name => some name
  | item _ a _ | append _ a => a.base?
  | _ => none

/-- The variable that the expression itself, not its operands, stores into.  A test for a
kind other than null counts as a store: it may replace what is known. -/
def store? : Expr α → Option String
  | assign _ target _ | update _ _ target _ | step _ _ target => target.base?
  | call _ name [arg] =>
    match Library.checks? name with
    | some kind => if kind = .null then none else arg.varName?
    | none => none
  | _ => none

/-- The variables that the expression and its operands store into. -/
def stored (e : Expr α) : List String := e.walk.filterMap store?

variable {e x : Expr α}

theorem mem_stored_of_operand (hx : x ∈ e.operands) (h : name ∈ x.stored) : name ∈ e.stored := by
  obtain ⟨y, hy, hstore⟩ := mem_filterMap.1 h
  exact mem_filterMap.2 ⟨y, mem_walk_of_operand hx hy, hstore⟩

theorem mem_stored_self (h : name ∈ e.store?) : name ∈ e.stored :=
  mem_filterMap.2 ⟨e, e.mem_walk_self, h⟩

theorem mem_names_of_operand (hx : x ∈ e.operands) (h : name ∈ x.names) : name ∈ e.names := by
  obtain ⟨y, hy, hname⟩ := mem_filterMap.1 h
  exact mem_filterMap.2 ⟨y, mem_walk_of_operand hx hy, hname⟩

theorem mem_names_self (h : name ∈ e.varName?) : name ∈ e.names :=
  mem_filterMap.2 ⟨e, e.mem_walk_self, h⟩

end Expr

/-! ### What a slot holds -/

namespace Flow.State

variable {s : State} {i j x : Nat} {t : TypeSet}

/-- The state has a slot for variable `i`, and shape `x` is in it. -/
def Holds (s : State) (i x : Nat) : Prop := i < s.slots.length ∧ x ∈ s.slot i

theorem Holds.put {s' : State} (h : s.Holds i x) (hslots : s'.slots = put s.slots j t)
    (ht : j = i → x ∈ t) : s'.Holds i x := by
  refine ⟨?_, ?_⟩
  · have := h.1
    rw [hslots, length_put]
    omega
  · rw [slot, hslots, getD_put]
    split
    next heq => exact ht heq
    next => exact h.2

theorem holds_assign (s : State) (hx : x ∈ t) : (s.assign i t).Holds i x := by
  refine ⟨?_, ?_⟩
  · rw [assign, length_put]
    omega
  · rwa [slot_assign, if_pos rfl]

theorem Holds.narrow (h : s.Holds i x) (ht : j = i → x ∈ t) : (s.narrow j t).Holds i x := by
  unfold State.narrow
  split
  · refine h.put rfl fun heq => ?_
    split
    · exact mem_union.2 (.inl (ht heq))
    · exact ht heq
  · exact h

theorem Holds.join {a b : State} (h : a.Holds i x ∨ b.Holds i x) (hjoin : a.join b = .ok s) :
    s.Holds i x := by
  have hscope : a.scope = b.scope := by
    by_contra hne
    rw [State.join, if_neg hne] at hjoin
    cases hjoin
  obtain ⟨c, hc, -, hlen, -⟩ := join_slots hscope
  obtain rfl := Except.ok.inj (hc.symm.trans hjoin)
  obtain ⟨ha, hb, -⟩ := join_bounds hjoin
  rcases h with h | h
  · exact ⟨by have := h.1; omega, (ha.slot i).1 x h.2⟩
  · exact ⟨by have := h.1; omega, (hb.slot i).1 x h.2⟩

theorem Holds.mem_current (h : s.Holds i x) : x ∈ current s i := by
  have hget : x ∈ s.get i := by
    unfold get
    split
    · exact h.2
    · exact (mem_any x).2 (lt_of_mem h.2)
  unfold current
  split
  · exact hget
  · exact mem_union.2 (.inl hget)

theorem Holds.notNull (h : s.Holds i x) (hx : x ≠ 0) (j : Nat) :
    (s.assign j ((Infer.current s j).remove .null)).Holds i x := by
  refine h.put rfl fun heq => ?_
  refine mem_remove.2 ⟨(heq ▸ h).mem_current, .inr fun hnull => ?_⟩
  exact hx (mem_single.1 hnull).1

end Flow.State

namespace Infer

/-- A property of states that survives whatever a walk does without storing: joins, values
that may be anything, and one of the two outcomes of a test for null. -/
structure Tolerant (P : State → Prop) : Prop where
  join : ∀ {a b s : State}, a.join b = .ok s → P a ∨ P b → P s
  any : ∀ (s : State) (j : Nat), P s → P (s.assign j .any)
  test : ∀ j : Nat, (∀ s, P s → P (s.assign j ((current s j).remove .null))) ∨
    ∀ (s : State) (t : TypeSet), 0 ∈ t → P s → P (s.narrow j t)

/-- The property does not depend on variable `j`. -/
structure Harmless (P : State → Prop) (j : Nat) : Prop where
  assign : ∀ (s : State) (t : TypeSet), P s → P (s.assign j t)
  narrow : ∀ (s : State) (t : TypeSet), P s → P (s.narrow j t)
  unset : ∀ s : State, P s → P (s.unset j)

/-- The property survives further notes. -/
def SurvivesNotes (P : State → Prop) : Prop := ∀ (s : State) (n : Note), P s → P (s.addNote n)

theorem tolerant_true : Tolerant fun _ => True :=
  ⟨fun _ _ => trivial, fun _ _ _ => trivial, fun _ => .inl fun _ _ => trivial⟩

theorem survivesNotes_true : SurvivesNotes fun _ => True := fun _ _ _ => trivial

theorem harmless_true (j : Nat) : Harmless (fun _ => True) j :=
  ⟨fun _ _ _ => trivial, fun _ _ _ => trivial, fun _ _ => trivial⟩

theorem tolerant_holds (i x : Nat) : Tolerant (State.Holds · i x) where
  join hjoin h := State.Holds.join h hjoin
  any s j h := h.put rfl fun _ => (mem_any x).2 (lt_of_mem h.2)
  test j := by
    by_cases hx : x = 0
    · exact .inr fun s t ht h => h.narrow fun _ => hx ▸ ht
    · exact .inl fun s h => h.notNull hx j

theorem survivesNotes_holds (i x : Nat) : SurvivesNotes (State.Holds · i x) := fun _ _ h => h

theorem harmless_holds {i j x : Nat} (h : j ≠ i) : Harmless (State.Holds · i x) j where
  assign _ _ hs := hs.put rfl fun heq => absurd heq h
  narrow _ _ hs := hs.narrow fun heq => absurd heq h
  unset _ hs := hs.put rfl fun heq => absurd heq h

end Infer

/-! ### Steps that leave a variable and an expression alone -/

namespace Routine

variable {r r' r'' : Routine} {i k : Nat}

/-- The types a variable has throughout the routine. -/
def merged (r : Routine) (i : Nat) : TypeSet := (r.scope.vars[i]?.map (·.types)).getD .void

/-- The variables are the same, and the types of variable `i` have only grown. -/
structure Widens (i : Nat) (r r' : Routine) : Prop where
  names : r'.scope.names = r.scope.names
  merged : r.merged i ≤ r'.merged i

/-- Nothing new is known of expression `k` either. -/
structure Spares (i k : Nat) (r r' : Routine) : Prop extends Widens i r r' where
  types : r'.exprTypes k = r.exprTypes k

theorem Widens.refl (i : Nat) (r : Routine) : Widens i r r := ⟨rfl, le_refl _⟩

theorem Widens.trans (h : Widens i r r') (h' : Widens i r' r'') : Widens i r r'' :=
  ⟨h'.names.trans h.names, le_trans h.merged h'.merged⟩

theorem Spares.refl (i k : Nat) (r : Routine) : Spares i k r r := ⟨.refl i r, rfl⟩

theorem Spares.trans (h : Spares i k r r') (h' : Spares i k r' r'') : Spares i k r r'' :=
  ⟨h.toWidens.trans h'.toWidens, h'.types.trans h.types⟩

end Routine

namespace Infer

variable {r : Routine} {i k : Nat} {P : State → Prop}

/-- In a routine with the variables of `r`, the step leaves the types of variable `i` and of
expression `k` alone and keeps property `P`, if it does not fail. -/
def Keeps {β : Type} (r : Routine) (i k : Nat) (P : State → Prop) (m : Walk β) : Prop :=
  ∀ w : Walker, w.routine.scope.names = r.scope.names → Yields m w fun _ w' =>
    w.routine.Spares i k w'.routine ∧ (P w.state → P w'.state)

section Keeps

variable {β γ : Type} {j : Nat}

variable {m : Walk β} {f : β → Walk γ}

theorem Keeps.bare (hm : Keeps r i k P m) : Keeps r i k (fun _ => True) m :=
  fun w hw => (hm w hw).imp fun _ _ h => ⟨h.1, fun _ => trivial⟩

theorem Keeps.pure (b : β) : Keeps r i k P (Pure.pure b : Walk β) :=
  fun w _ => ⟨.refl i k w.routine, fun h => h⟩

theorem Keeps.throw (f : Fault) : Keeps r i k P (MonadExcept.throw f : Walk β) := fun _ _ => trivial

theorem Keeps.andThen {Q : γ → Walker → Prop} {w : Walker} (hm : Keeps r i k P m)
    (hw : SameVars r w)
    (hf : ∀ b w', SameVars r w' → w.routine.Spares i k w'.routine →
      (P w.state → P w'.state) → Yields (f b) w' Q) : Yields (m >>= f) w Q :=
  (hm w hw).andThen fun b w' h => hf b w' (h.1.names.trans hw) h.1 h.2

theorem Keeps.bind (hm : Keeps r i k P m) (hf : ∀ b, Keeps r i k P (f b)) :
    Keeps r i k P (m >>= f) := fun _ hw =>
  hm.andThen hw fun b w' hw' hspares hP =>
    (hf b w' hw').imp fun _ _ h => ⟨hspares.trans h.1, fun hp => h.2 (hP hp)⟩

theorem Keeps.discard (hm : Keeps r i k P m) : Keeps r i k P (discard m) := by
  intro w hw
  rw [discard_eq]
  exact (hm.bind fun _ => .pure _) w hw

theorem Keeps.forM {f : β → Walk PUnit} : ∀ {l : List β}, (∀ a ∈ l, Keeps r i k P (f a)) →
    Keeps r i k P (l.forM f)
  | [], _ => .pure _
  | a :: _, h => (h a (.head _)).bind fun _ =>
      .forM fun b hb => h b (.tail _ hb)

theorem Keeps.mapM : ∀ {l : List β}, (∀ a ∈ l, Keeps r i k P (f a)) →
    Keeps r i k P (l.mapM f)
  | [], _ => .pure _
  | a :: l, h => by
    rw [mapM_cons]
    exact (h a (.head _)).bind fun _ =>
      (Keeps.mapM fun b hb => h b (mem_cons_of_mem a hb)).bind fun _ => Keeps.pure _

theorem Keeps.foldlM {f : γ → β → Walk γ} : ∀ {l : List β} (s : γ),
    (∀ a ∈ l, ∀ s, Keeps r i k P (f s a)) → Keeps r i k P (l.foldlM f s)
  | [], s, _ => .pure s
  | a :: l, s, h => by
    rw [foldlM_cons]
    exact (h a (.head _) s).bind fun s' =>
      .foldlM s' fun b hb => h b (.tail _ hb)

theorem keeps_modifyRoutine {f : Routine → Routine} (hf : ∀ r : Routine, r.Spares i k (f r)) :
    Keeps r i k P (modifyRoutine f) := fun w _ => ⟨hf w.routine, fun h => h⟩

theorem keeps_modifyState {f : State → State} (hf : ∀ s, P s → P (f s)) :
    Keeps r i k P (modifyState f) := fun w _ => ⟨.refl i k w.routine, hf w.state⟩

theorem keeps_getTable : Keeps r i k P getTable :=
  fun w _ => ⟨.refl i k w.routine, fun h => h⟩

theorem keeps_getRoutine : Keeps r i k P getRoutine :=
  fun w _ => ⟨.refl i k w.routine, fun h => h⟩

theorem keeps_getState : Keeps r i k P getState :=
  fun w _ => ⟨.refl i k w.routine, fun h => h⟩

theorem keeps_modifyTable (t : ShapeTable) :
    Keeps r i k P (modify fun w : Walker => { w with table := t } : Walk Unit) :=
  fun w _ => ⟨.refl i k w.routine, fun h => h⟩

theorem keeps_intern (f : ShapeTable → TypeSet × ShapeTable) : Keeps r i k P (intern f) :=
  fun w _ => ⟨.refl i k w.routine, fun h => h⟩

theorem keeps_inspect (f : ShapeTable → Option TypeSet) : Keeps r i k P (inspect f) := by
  refine keeps_getTable.bind fun t => ?_
  split
  · exact .pure _
  · exact Keeps.throw _

theorem keeps_ofExcept (x : Except Fault β) : Keeps r i k P (ofExcept x) := by
  cases x with
  | error f => exact Keeps.throw f
  | ok b => exact .pure b

theorem spares_modifyFact (hj : j ≠ k) (f : Fact → Fact) (r : Routine) :
    r.Spares i k { r with facts := r.facts.modify j f } := by
  refine ⟨⟨rfl, le_refl _⟩, ?_⟩
  unfold Routine.exprTypes
  rw [Array.getElem?_modify, if_neg hj]

theorem keeps_record (hj : j ≠ k) (s : TypeSet) : Keeps r i k P (record j s) := by
  refine keeps_getRoutine.bind fun r' => ?_
  split
  · exact keeps_modifyRoutine (spares_modifyFact hj _)
  · exact Keeps.throw _

theorem Keeps.recorded {m : Walk TypeSet} (hm : Keeps r i k P m) (hj : j ≠ k) :
    Keeps r i k P (recorded j m) :=
  hm.bind fun s => (keeps_record hj s).bind fun _ => .pure s

theorem keeps_recordedTypes (j : Nat) : Keeps r i k P (recordedTypes j) :=
  keeps_getRoutine.bind fun _ => .pure _

theorem keeps_bindCall (hj : j ≠ k) (t : Target) : Keeps r i k P (bindCall j t) :=
  keeps_modifyRoutine (spares_modifyFact hj _)

theorem keeps_noteRead (hj : j ≠ k) (var : Nat) (p c : Bool) : Keeps r i k P (noteRead j var p c) :=
  keeps_modifyRoutine (spares_modifyFact hj _)

theorem keeps_addFlags (f : Flags) : Keeps r i k P (addFlags f) :=
  keeps_modifyRoutine fun _ => ⟨⟨rfl, le_refl _⟩, rfl⟩

theorem keeps_queue (b : Nat) : Keeps r i k P (queue b) :=
  keeps_modifyRoutine fun _ => ⟨⟨rfl, le_refl _⟩, rfl⟩

theorem keeps_updateScope {f : Scope → Except Fault (β × Scope)}
    (h : ∀ s b s', f s = .ok (b, s') → ∀ r' : Routine, r'.scope = s →
      r'.Widens i { r' with scope := s' }) : Keeps r i k P (updateScope f) := by
  intro w hw
  show Yields (ofExcept (f w.routine.scope) >>= fun p => _ : Walk β) w _
  rcases hf : f w.routine.scope with e | ⟨b, s'⟩
  · exact trivial
  · exact ⟨⟨h _ b s' hf w.routine rfl, rfl⟩, fun hP => hP⟩

theorem keeps_markAliased (j : Nat) : Keeps r i k P (markAliased j) := by
  refine keeps_updateScope fun s b s' h r' hr' => ?_
  rw [Scope.markAliased_ok h]
  subst hr'
  exact ⟨rfl, le_refl _⟩

end Keeps

/-! ### Variables and tests -/

section Variables

variable {β : Type} {e l m : Expr Nat} {j : Nat} {name : String}

theorem keeps_useVar (hname : name ∈ r.scope.names) {f : Nat → Walk β}
    (hf : Keeps r i k P (f (r.index name))) : Keeps r i k P (useVar name >>= f) := by
  intro w hw
  refine .of_eq (bind_of_ok (useVar_eq hw hname)) ?_
  have hused : w.routine.Spares i k { w.routine with
      scope := { w.routine.scope with used := w.routine.scope.used.insert (r.index name) } } :=
    ⟨⟨rfl, le_refl _⟩, rfl⟩
  refine .imp (hf _ ?_) fun _ _ h => ⟨hused.trans h.1, h.2⟩
  exact hw

variable {f : Option Nat → Walk β}

theorem keeps_varOf? (he : Mentions r e) (hf : Keeps r i k P (f (e.varName?.map r.index))) :
    Keeps r i k P (varOf? e >>= f) := by
  unfold varOf?
  rcases hvar : e.varName? with _ | name
  · rwa [hvar] at hf
  · rw [hvar] at hf
    rw [show (Option.mapM useVar (some name) : Walk (Option Nat)) =
      (useVar name >>= fun i => Pure.pure (some i)) from rfl, bind_assoc]
    simp only [pure_bind]
    exact keeps_useVar (he.self name hvar) hf

theorem keeps_ifVar (he : Mentions r e) {f : Nat → Walk Unit}
    (hf : ∀ name ∈ e.varName?, Keeps r i k P (f (r.index name))) :
    Keeps r i k P (do if let some var ← varOf? e then f var) := by
  refine keeps_varOf? he ?_
  rcases hvar : e.varName? with _ | name
  · exact .pure ()
  · exact hf name hvar

theorem keeps_readVariable (hname : name ∈ r.scope.names) (hj : j ≠ k) (quiet : Bool) :
    Keeps r i k P (readVariable j name quiet) := by
  refine keeps_useVar hname (keeps_getState.bind fun s => ?_)
  cases quiet
  · exact (keeps_noteRead hj _ _ _).bind fun _ => .pure _
  · exact .pure _

theorem zero_mem_restrict (t : ShapeTable) (s : TypeSet) :
    0 ∈ if (t.restrict s .null).isVoid || (t.restrict s .null).isAny then Kind.null.representative
      else t.restrict s .null := by
  have hnull : (0 : Nat) ∈ null := by decide
  split
  · exact hnull
  next h =>
    rw [Bool.or_eq_true, not_or, isVoid_iff] at h
    obtain ⟨x, hx⟩ := not_forall_not.1 h.1
    unfold ShapeTable.restrict at hx h ⊢
    split at hx
    next hany =>
      rw [if_pos hany] at h
      exact absurd (show any.isAny = true by decide) h.2
    next hany =>
      rw [if_neg hany]
      have hzero : x = 0 := (mem_single.1 (mem_common.1 hx).2).1
      exact hzero ▸ hx

/-- A test keeps the property if it comes out one way or if it comes out the other. -/
theorem keeps_change (hP : Tolerant P) (j : Nat) (q : Test) (h : ∀ kind ≠ .null, q = .kind kind → Harmless P j) :
    (∀ t s, P s → P (q.change t j s true)) ∨ ∀ t s, P s → P (q.change t j s false) := by
  cases q with
  | null op =>
    rcases hP.test j with htest | htest
    · cases op
      case identical | eq => exact .inr fun _ => htest
      case notIdentical | notEq => exact .inl fun _ => htest
      all_goals exact .inl fun _ _ hs => hs
    · have hnull : ∀ s, P s → P (s.narrow j .null) := fun s => htest s .null (by decide)
      cases op
      case identical => exact .inl fun _ => hnull
      case notIdentical => exact .inr fun _ => hnull
      case notEq => exact .inr fun _ _ hs => hs
      all_goals exact .inl fun _ _ hs => hs
  | kind kind =>
    by_cases hkind : kind = .null
    · subst hkind
      rcases hP.test j with htest | htest
      · exact .inr fun _ => htest
      · exact .inl fun t s => htest s _ (zero_mem_restrict t (current s j))
    · refine .inr fun t s => ?_
      rw [Test.change, if_neg hkind]
      exact (h kind hkind rfl).narrow s _

theorem keeps_test (he : Mentions r e) {q : Test} {outcome : Bool}
    (h : ∀ name ∈ e.varName?, ∀ t s, P s → P (q.change t (r.index name) s outcome)) :
    Keeps r i k P (learn e (.test q outcome)) :=
  keeps_ifVar he fun name hname => keeps_getTable.bind fun t => keeps_modifyState (h name hname t)

theorem keeps_learn (hP : SurvivesNotes P) (he : Mentions r e) {clue : Clue}
    (h : (∀ limit other, clue ≠ .limit limit other) → ∀ name ∈ e.varName?, Harmless P (r.index name)) :
    Keeps r i k P (learn e clue) := by
  cases clue with
  | test q outcome =>
    refine keeps_test he fun name hname t s hs => ?_
    have hj := h (by simp) name hname
    rcases q.change_cases t (r.index name) s outcome with heq | ⟨m, -, heq | heq⟩ <;> rw [heq]
    · exact hs
    · exact hj.narrow s m hs
    · exact hj.assign s m hs
  | isA className =>
    exact keeps_ifVar he fun name hname => (keeps_intern _).bind fun t =>
      keeps_modifyState fun s => (h (by simp) name hname).assign s t
  | limit limit other =>
    have hint : Keeps r i k P (isIntSoFar other.tag) :=
      keeps_getTable.bind fun t => (keeps_recordedTypes _).bind fun _ => .pure _
    refine hint.bind fun known => ?_
    cases known
    · exact .pure ()
    · exact keeps_ifVar he fun name _ => keeps_modifyState fun s => hP s _

/-- **Of the two outcomes of a condition one keeps the property.** -/
theorem keeps_narrow (hP : Tolerant P) (he : Mentions r e)
    (hstore : ∀ name ∈ e.store?, Harmless P (r.index name)) :
    Keeps r i k P (narrow e true) ∨ Keeps r i k P (narrow e false) := by
  rcases e.clues_cases with hnone | ⟨x, hx, q, hboth, hcall⟩
  · right
    rw [narrow_eq, hnone]
    exact .pure ()
  have hlearn : ∀ b, Keeps r i k P (learn x (.test q b)) → Keeps r i k P (narrow e b) := fun b h => by
    rw [narrow_eq, hboth]
    exact .forM fun p hp => by rwa [mem_singleton.1 hp]
  have hmentions := he.operand hx
  rcases hvar : x.varName? with _ | name
  · exact .inl (hlearn true (keeps_test hmentions fun n hn => by rw [hvar] at hn; cases hn))
  have hthis : ∀ b, (∀ t s, P s → P (q.change t (r.index name) s b)) → Keeps r i k P (narrow e b) :=
    fun b h => hlearn b (keeps_test hmentions fun n hn => Option.mem_unique hvar hn ▸ h)
  refine (keeps_change hP (r.index name) q fun kind hkind hq => ?_).imp (hthis true) (hthis false)
  obtain ⟨j, f, rfl, hcheck⟩ := hcall kind hq
  exact hstore name (by simpa [Expr.store?, hcheck, hkind] using hvar)

theorem keeps_narrow_all (hP : SurvivesNotes P) (he : Mentions r e)
    (hnames : ∀ name ∈ e.names, Harmless P (r.index name)) (outcome : Bool) :
    Keeps r i k P (narrow e outcome) := by
  rw [narrow_eq]
  refine .forM fun p hp => ?_
  rcases Expr.mem_clues hp with heq | hop
  · rw [heq]
    exact keeps_learn hP he fun _ name hname => hnames name (Expr.mem_names_self hname)
  · exact keeps_learn hP (he.operand hop) fun _ name hname =>
      hnames name (Expr.mem_names_of_operand hop (Expr.mem_names_self hname))

end Variables

/-! ### Expressions -/

section Meanings

variable {c : Setting} {runs b : Branch} {e cond no : Expr Nat} {args : List (Expr Nat)}
  {x y : List String} {m l : Meaning} {β : Type} {w : Walker}

/-- Whatever a meaning is used for, short of a store, it leaves variable `i` and expression `k`
alone.  Evaluation keeps the property, one of the two outcomes does, and both do if the property
survives notes and does not depend on the variables named. -/
structure Evaluates (r : Routine) (i k : Nat) (P : State → Prop) (names : List String)
    (m : Meaning) : Prop where
  value : Keeps r i k P m.value
  quiet : Keeps r i k P m.quiet
  either : Keeps r i k P (m.assume .either)
  bare : ∀ b, Keeps r i k (fun _ => True) (m.assume b)
  one : Keeps r i k P (m.assume .holds) ∨ Keeps r i k P (m.assume .fails)
  both : SurvivesNotes P → (∀ name ∈ names, Harmless P (r.index name)) →
    ∀ b, Keeps r i k P (m.assume b)

/-- A store keeps the property too, unless that depends on the variable stored into. -/
structure KeptBy (r : Routine) (i k : Nat) (P : State → Prop) (c : Setting) (e : Expr Nat) : Prop
    extends Evaluates r i k P e.names (e.meaning c) where
  store : (∀ name ∈ e.base?, Harmless P (r.index name)) → ∀ s, Keeps r i k P ((e.meaning c).store s)

variable {Q : β → Walker → Prop} {f : State × State → Walk β}

theorem getState_keeps {f : State → Walk β} (hf : Yields (f w.state) w Q) :
    Yields (getState >>= f) w Q :=
  .bind (.of_ok (a := w.state) (u := w) rfl hf)

theorem setState_keeps {s : State} {f : Unit → Walk β} (hf : Yields (f ()) { w with state := s } Q) :
    Yields (setState s >>= f) w Q :=
  .bind (.of_ok (a := ()) (u := { w with state := s }) rfl hf)

theorem joinWith_yields {before : State} {Q : Unit → Walker → Prop}
    (hQ : ∀ s, before.join w.state = .ok s → Q () { w with state := s }) :
    Yields (joinWith before) w Q := by
  show Ends _ (ofExcept (before.join w.state) >>= setState) w _
  rcases hjoin : before.join w.state with f | s
  · exact trivial
  · exact hQ s hjoin

theorem branchStates_keeps {P1 P2 : State → Prop} (h1 : Keeps r i k P1 (m.assume .holds))
    (h2 : Keeps r i k P2 (m.assume .fails)) (hw : SameVars r w)
    (hf : ∀ yes no w', SameVars r w' → w.routine.Spares i k w'.routine →
      (P1 w.state → P1 yes) → (P2 w.state → P2 no) → Yields (f (yes, no)) w' Q) :
    Yields (m.branchStates >>= f) w Q := by
  rw [branchStates_bind]
  refine getState_keeps (h1.andThen hw fun _ w1 hw1 hspares1 hP1 => getState_keeps ?_)
  refine setState_keeps (h2.andThen hw1 fun _ w2 hw2 hspares2 hP2 => getState_keeps ?_)
  exact hf w1.state w2.state w2 hw2 (hspares1.trans hspares2) hP1 hP2

theorem KeptBy.branchStates (h : KeptBy r i k P c e)
    (hw : SameVars r w)
    (hf : ∀ yes no w', SameVars r w' → w.routine.Spares i k w'.routine →
      (P w.state → P yes ∨ P no) → Yields (f (yes, no)) w' Q) :
    Yields ((e.meaning c).branchStates >>= f) w Q := by
  rcases h.one with hone | hone
  · exact branchStates_keeps hone (h.bare .fails) hw fun yes no w' hw' hspares hyes _ =>
      hf yes no w' hw' hspares fun hp => .inl (hyes hp)
  · exact branchStates_keeps (h.bare .holds) hone hw fun yes no w' hw' hspares _ hno =>
      hf yes no w' hw' hspares fun hp => .inr (hno hp)

theorem shortCircuit_keeps (hP : Tolerant P) (hl : ∀ b, Keeps r i k (fun _ => True) (l.assume b))
    (hm : Keeps r i k (fun _ => True) (m.assume b))
    (h : Keeps r i k P (l.assume runs) ∧ Keeps r i k P (m.assume b) ∨
      b ≠ runs ∧ Keeps r i k P (l.assume runs.negate)) :
    Keeps r i k P (Meaning.shortCircuit runs l m b) := by
  unfold Meaning.shortCircuit
  split
  next heq =>
    obtain ⟨hruns, hright⟩ : Keeps r i k P (l.assume runs) ∧ Keeps r i k P (m.assume b) :=
      h.resolve_right fun hne => hne.1 heq
    exact hruns.bind fun _ => hright.bind fun _ => .pure _
  next =>
    intro w hw
    refine getState_keeps ?_
    rcases h with ⟨hruns, hright⟩ | ⟨-, hdecided⟩
    · refine (hl runs.negate).andThen hw fun _ w1 hw1 hspares1 _ => getState_keeps ?_
      refine setState_keeps (hruns.andThen hw1 fun _ w2 hw2 hspares2 hP2 => ?_)
      refine hright.andThen hw2 fun _ w3 _ hspares3 hP3 => joinWith_yields fun s hjoin => ?_
      exact ⟨(hspares1.trans hspares2).trans hspares3, fun hp => hP.join hjoin (.inr (hP3 (hP2 hp)))⟩
    · refine hdecided.andThen hw fun _ w1 hw1 hspares1 hP1 => getState_keeps ?_
      refine setState_keeps ((hl runs).andThen hw1 fun _ w2 hw2 hspares2 _ => ?_)
      refine hm.andThen hw2 fun _ w3 _ hspares3 _ => joinWith_yields fun s hjoin => ?_
      exact ⟨(hspares1.trans hspares2).trans hspares3, fun hp => hP.join hjoin (.inl (hP1 hp))⟩

theorem Evaluates.one_of {names : List String} (h : Evaluates r i k P names m) (hb : b ≠ .either) :
    Keeps r i k P (m.assume b) ∨ Keeps r i k P (m.assume b.negate) := by
  cases b with
  | either => exact absurd rfl hb
  | holds => exact h.one
  | fails => exact h.one.symm

theorem keeps_one_shortCircuit (hP : Tolerant P) (hruns : runs ≠ .either)
    (hl : Evaluates r i k P x l) (hm : Evaluates r i k P y m) :
    Keeps r i k P (Meaning.shortCircuit runs l m runs) ∨
      Keeps r i k P (Meaning.shortCircuit runs l m runs.negate) := by
  have hne : runs.negate ≠ runs := by
    cases runs
    · exact absurd rfl hruns
    all_goals decide
  rcases hl.one_of hruns with hleft | hdecided
  · rcases hm.one_of hruns with hright | hright
    · exact .inl (shortCircuit_keeps hP hl.bare (hm.bare _) (.inl ⟨hleft, hright⟩))
    · exact .inr (shortCircuit_keeps hP hl.bare (hm.bare _) (.inl ⟨hleft, hright⟩))
  · exact .inr (shortCircuit_keeps hP hl.bare (hm.bare _) (.inr ⟨hne, hdecided⟩))

theorem keeps_either_shortCircuit (hP : Tolerant P) (hruns : runs ≠ .either)
    (hl : Evaluates r i k P x l) (hm : Evaluates r i k P y m) :
    Keeps r i k P (Meaning.shortCircuit runs l m .either) := by
  refine shortCircuit_keeps hP hl.bare (hm.bare _) ?_
  exact (hl.one_of hruns).imp (fun h => ⟨h, hm.either⟩) fun h => ⟨hruns.symm, h⟩

theorem keeps_maybeValue (hP : Tolerant P) (h : Keeps r i k (fun _ => True) m.value) :
    Keeps r i k P m.maybeValue := by
  intro w hw
  refine getState_keeps (h.andThen hw fun s w1 hw1 hspares _ => ?_)
  refine .bind (joinWith_yields fun s' hjoin => ?_)
  exact ⟨hspares, fun hp => hP.join hjoin (.inl hp)⟩

theorem keeps_storeElement (hquiet : Keeps r i k P m.quiet)
    (hstore : ∀ s, Keeps r i k P (m.store s)) (value : TypeSet) :
    Keeps r i k P (m.storeElement value) := by
  refine hquiet.bind fun old => keeps_getTable.bind fun t => ?_
  split
  · exact (keeps_modifyTable _).bind fun _ => hstore _
  · exact Keeps.throw _

theorem keeps_narrowTo_all (hP : SurvivesNotes P) (he : Mentions r e)
    (hnames : ∀ name ∈ e.names, Harmless P (r.index name)) (b : Branch) :
    Keeps r i k P (narrowTo e b) := by
  cases b with
  | either => exact .pure ()
  | holds => exact keeps_narrow_all hP he hnames true
  | fails => exact keeps_narrow_all hP he hnames false

theorem keeps_ofValue (hP : Tolerant P) (he : Mentions r e) (hk : e.tag ≠ k)
    (hstore : ∀ name ∈ e.store?, Harmless P (r.index name)) {step : Walk TypeSet}
    (h : Keeps r i k P step) : Evaluates r i k P e.names (.ofValue e step) := by
  have hthen : ∀ {P' : State → Prop} (b : Branch), Keeps r i k P' step → Keeps r i k P' (narrowTo e b) →
      Keeps r i k P' ((Meaning.ofValue e step).assume b) := fun b hstep hb =>
    (hstep.bind fun s => hb.bind fun _ => .pure s).recorded hk
  exact {
    value := h.recorded hk
    quiet := h.recorded hk
    either := hthen .either h (.pure ())
    bare := fun b => hthen b h.bare
      (keeps_narrowTo_all survivesNotes_true he (fun _ _ => harmless_true _) b)
    one := (keeps_narrow hP he hstore).imp (hthen .holds h) (hthen .fails h)
    both := fun hnotes hnames b => hthen b h (keeps_narrowTo_all hnotes he hnames b) }

theorem keeps_ofCondition (hk : e.tag ≠ k) {step : Branch → Walk Unit}
    (heither : Keeps r i k P (step .either)) (hbare : ∀ b, Keeps r i k (fun _ => True) (step b))
    (hone : Keeps r i k P (step .holds) ∨ Keeps r i k P (step .fails))
    (hboth : SurvivesNotes P → (∀ name ∈ e.names, Harmless P (r.index name)) →
      ∀ b, Keeps r i k P (step b)) : Evaluates r i k P e.names (.ofCondition e step) := by
  have hthen : ∀ {P' : State → Prop} (b : Branch), Keeps r i k P' (step b) →
      Keeps r i k P' ((Meaning.ofCondition e step).assume b) := fun b h =>
    (h.bind fun _ => .pure _).recorded hk
  exact {
    value := hthen .either heither
    quiet := hthen .either heither
    either := hthen .either heither
    bare := fun b => hthen b (hbare b)
    one := hone.imp (hthen .holds) (hthen .fails)
    both := fun hnotes hnames b => hthen b (hboth hnotes hnames b) }

theorem keeps_callOne (hP : Tolerant P) (j : Nat) (name : String) (hargs : ∀ a ∈ args, Mentions r a)
    (types : Tuple) (callee : Nat) : Keeps r i k P (callOne c j name args types callee) := by
  unfold callOne
  rcases c.signatures[callee]? with _ | sig
  · exact Keeps.throw _
  · have hmodify : Keeps r i k P (modify fun w : Walker => withCall w
        { caller := w.routine.id, callee, site := j, block := c.block,
          argExprs := args.map Expr.tag, argTypes := types } : Walk Unit) :=
      fun w _ => ⟨.refl i k w.routine, fun h => h⟩
    refine hmodify.bind fun _ => .bind (.forM fun p hp => ?_) fun _ => .pure _
    obtain ⟨arg, n⟩ := p
    have harg := hargs arg (fst_mem_of_mem_zipIdx hp)
    dsimp only
    split
    · exact keeps_ifVar harg fun name _ =>
        (keeps_markAliased _).bind fun _ => keeps_modifyState fun s => hP.any s _
    · exact .pure ()

/-- Once the types of its arguments are known, a call keeps the property. -/
theorem call_split (c : Setting) (j : Nat) (name : String) (args : List (Expr Nat)) :
    ∃ rest, call c j name args (Expr.meanings c args) = argTypes c name args >>= rest ∧
      ∀ {r : Routine} {i k : Nat} {P : State → Prop}, Tolerant P → j ≠ k →
        (∀ a ∈ args, Mentions r a) → ∀ types, Keeps r i k P (rest types) := by
  refine ⟨_, call_eq c j name args, fun hP hj hargs types => ?_⟩
  split
  · split
    · split
      · exact (keeps_addFlags _).bind fun _ => (keeps_bindCall hj _).bind fun _ => .pure _
      · exact (keeps_bindCall hj _).bind fun _ => .pure _
    · exact (keeps_bindCall hj _).bind fun _ => .pure _
  · refine .bind (.foldlM _ fun callee _ s => ?_) fun s =>
      (keeps_bindCall hj _).bind fun _ => .pure s
    exact (keeps_callOne hP j name hargs types callee).bind fun _ => .pure _

theorem keeps_call (hP : Tolerant P) {j : Nat} (hj : j ≠ k) (name : String)
    (hmentions : ∀ a ∈ args, Mentions r a) (hargs : ∀ a ∈ args, KeptBy r i k P c a) :
    Keeps r i k P (call c j name args (Expr.meanings c args)) := by
  obtain ⟨rest, heq, hrest⟩ := call_split c j name args
  rw [heq, argTypes_eq]
  refine .bind (.mapM fun p hp => ?_) fun types => hrest hP hj hmentions types
  have ha := hargs p.1 (fst_mem_of_mem_zipIdx hp)
  dsimp only
  split
  · exact ha.quiet.bind fun _ => .pure _
  · exact ha.value.bind fun _ => .pure _

theorem keeps_mapM_look {l : List (Expr Nat)} (h : ∀ x ∈ l, KeptBy r i k P c x) :
    Keeps r i k P (l.mapM fun x => e.look (x.meaning c)) := by
  refine .mapM fun x hx => ?_
  rcases e.look_cases with heq | heq <;> rw [heq]
  · exact (h x hx).value
  · exact (h x hx).quiet

theorem keeps_gather (h : ∀ x ∈ e.operands, KeptBy r i k P c x) : Keeps r i k P (e.gather c) :=
  (keeps_mapM_look h).bind fun _ => keeps_intern _

/-- No node of the expression is numbered `k`. -/
def Avoids (k : Nat) (e : Expr Nat) : Prop := ∀ x ∈ e.walk, x.tag ≠ k

theorem Avoids.operand {x : Expr Nat} (h : Avoids k e) (hx : x ∈ e.operands) : Avoids k x :=
  fun y hy => h y (Expr.mem_walk_of_operand hx hy)

theorem Avoids.tag (h : Avoids k e) : e.tag ≠ k := h e e.mem_walk_self

theorem keeps_choose (hP : Tolerant P) {yes no : Walk TypeSet} (hcond : KeptBy r i k P c cond)
    (hyes : Keeps r i k P yes) (hno : Keeps r i k P no) :
    Keeps r i k P ((cond.meaning c).choose yes no) := by
  intro w hw
  refine hcond.branchStates hw fun onTrue onFalse w1 hw1 hspares1 hP1 => ?_
  refine setState_keeps (hyes.andThen hw1 fun s w2 hw2 hspares2 hP2 => getState_keeps ?_)
  refine setState_keeps (hno.andThen hw2 fun t w3 hw3 hspares3 hP3 => ?_)
  refine .bind (joinWith_yields fun s' hjoin => ?_)
  exact ⟨(hspares1.trans hspares2).trans hspares3, fun hp => hP.join hjoin ((hP1 hp).imp hP2 hP3)⟩

/-! ### Each kind of expression -/

theorem keptBy_ofPlace (hP : Tolerant P) (he : Mentions r e) (hk : e.tag ≠ k)
    (hown : ∀ name ∈ e.store?, Harmless P (r.index name)) {step quiet : Walk TypeSet}
    {store : TypeSet → Walk Unit}
    (heq : e.meaning c = { Meaning.ofValue e step with quiet := recorded e.tag quiet, store })
    (hstep : Keeps r i k P step) (hquiet : Keeps r i k P quiet)
    (hstore : (∀ name ∈ e.base?, Harmless P (r.index name)) → ∀ s, Keeps r i k P (store s)) :
    KeptBy r i k P c e := by
  refine { toEvaluates := heq ▸ ?_, store := heq ▸ hstore }
  exact { keeps_ofValue hP he hk hown hstep with quiet := hquiet.recorded hk }

theorem keptBy_ofCondition (hk : e.tag ≠ k) (hop : ∀ x ∈ e.operands, KeptBy r i k P c x)
    {step : Branch → Walk Unit} (heq : e.meaning c = .ofCondition e step)
    (heither : Keeps r i k P (step .either)) (hbare : ∀ b, Keeps r i k (fun _ => True) (step b))
    (hone : Keeps r i k P (step .holds) ∨ Keeps r i k P (step .fails))
    (hboth : (∀ x ∈ e.operands, ∀ b, Keeps r i k P ((x.meaning c).assume b)) →
      ∀ b, Keeps r i k P (step b)) : KeptBy r i k P c e := by
  have hthis := keeps_ofCondition hk heither hbare hone fun hnotes hnames => hboth fun x hx =>
    (hop x hx).both hnotes fun name hname => hnames name (Expr.mem_names_of_operand hx hname)
  exact { toEvaluates := heq ▸ hthis, store := heq ▸ fun _ _ => hthis.value.discard }

theorem keptBy_circuit {j : Nat} {op : BinOp} {l n : Expr Nat} (runs : Branch) (hruns : runs ≠ .either)
    (hP : Tolerant P) (hk : j ≠ k) (hop : ∀ x ∈ [l, n], KeptBy r i k P c x)
    (heq : (Expr.binary j op l n).meaning c =
      .ofCondition (.binary j op l n) (Meaning.shortCircuit runs (l.meaning c) (n.meaning c))) :
    KeptBy r i k P c (.binary j op l n) := by
  have hl := hop l (.head _)
  have hn := hop n (.tail _ (.head _))
  have hone := keeps_one_shortCircuit hP hruns hl.toEvaluates hn.toEvaluates
  refine keptBy_ofCondition hk hop heq
    (keeps_either_shortCircuit hP hruns hl.toEvaluates hn.toEvaluates) (fun b => ?_) ?_ fun h b => ?_
  · exact shortCircuit_keeps tolerant_true hl.bare (hn.bare b) (.inl ⟨hl.bare runs, hn.bare b⟩)
  · cases runs with
    | either => exact absurd rfl hruns
    | holds => exact hone
    | fails => exact hone.symm
  · exact shortCircuit_keeps hP hl.bare (hn.bare b) (.inl ⟨h l (.head _) runs, h n (.tail _ (.head _)) b⟩)

/-- **A walk through an expression keeps what the expression does not store into**, and leaves
what is known of other expressions alone. -/
theorem meaning_keeps (hP : Tolerant P) (e : Expr Nat) : Mentions r e → Avoids k e →
    (∀ name ∈ e.stored, Harmless P (r.index name)) → KeptBy r i k P c e := by
  induction e using Expr.induct_operands with
  | _ e ih =>
  intro he hk hstored
  have hop : ∀ x ∈ e.operands, KeptBy r i k P c x := fun x hx =>
    ih x hx (he.operand hx) (hk.operand hx) fun name hname =>
      hstored name (Expr.mem_stored_of_operand hx hname)
  have hown : ∀ name ∈ e.store?, Harmless P (r.index name) := fun name hname =>
    hstored name (Expr.mem_stored_self hname)
  have hvalue : ∀ step, e.meaning c = .ofValue e step → Keeps r i k P step → KeptBy r i k P c e :=
    fun step heq hstep => keptBy_ofPlace hP he hk.tag hown heq hstep hstep
      fun _ _ => (hstep.recorded hk.tag).discard
  by_cases hplain : e.IsPlain
  · exact hvalue _ (Expr.meaning_plain hplain c) (keeps_gather hop)
  cases e with
  | var j name =>
    have hname := he.self name rfl
    refine keptBy_ofPlace hP he hk.tag hown (by rw [meaning]; rfl)
      (keeps_readVariable hname hk.tag false) (keeps_readVariable hname hk.tag true)
      fun h s => keeps_useVar hname ?_
    exact (keeps_modifyState fun x => (h name rfl).assign x s).bind fun _ => keeps_record hk.tag s
  | assign j target value =>
    have ht := (hop target (.head _)).store hown
    have hv := hop value (.tail _ (.head _))
    exact hvalue _ (by rw [meaning]) (hv.value.bind fun s => (ht _).bind fun _ => .pure _)
  | update j op target value =>
    have ht := hop target (.head _)
    have hv := hop value (.tail _ (.head _))
    have hstore : ∀ s, Keeps r i k P (do (target.meaning c).store s; return s) := fun s =>
      (ht.store hown s).bind fun _ => .pure s
    refine hvalue _ (by rw [meaning]) (ht.value.bind fun old => ?_)
    split
    · exact (keeps_maybeValue hP hv.value.bare).bind fun v => hstore _
    · exact hv.value.bind fun v => keeps_getTable.bind fun t => hstore _
  | step j op target =>
    have ht := hop target (.head _)
    refine hvalue _ (by rw [meaning]) (ht.value.bind fun old => ?_)
    refine keeps_varOf? (he.operand (.head _)) ?_
    rcases target.varName? with _ | name
    · exact (ht.store hown _).bind fun _ => .pure _
    · exact keeps_getTable.bind fun t => keeps_getState.bind fun s =>
        (ht.store hown _).bind fun _ => .pure _
  | binary j op l m =>
    have hl := hop l (.head _)
    have hm := hop m (.tail _ (.head _))
    rcases BinOp.of_not_isPlain hplain with rfl | rfl | rfl
    · exact keptBy_circuit .holds (by decide) hP hk.tag hop (by rw [meaning])
    · exact keptBy_circuit .fails (by decide) hP hk.tag hop (by rw [meaning])
    · refine hvalue _ (by rw [meaning]) ?_
      exact hl.quiet.bind fun s => (keeps_maybeValue hP hm.value.bare).bind fun t => .pure _
  | unary j op operand =>
    have ho := hop operand (.head _)
    obtain rfl : op = .not := not_not.1 hplain
    exact keptBy_ofCondition hk.tag hop (by rw [meaning]) ho.either.discard
      (fun b => (ho.bare b.negate).discard) (ho.one.symm.imp .discard .discard)
      fun h b => (h operand (.head _) b.negate).discard
  | field j operand name =>
    exact keptBy_ofPlace hP he hk.tag hown (by rw [meaning, ← Expr.gather_field]; rfl)
      (keeps_gather hop) (keeps_gather hop) fun _ s =>
        (hop operand (.head _)).value.bind fun _ => keeps_record hk.tag s
  | choose j cond yes no =>
    exact hvalue _ (by rw [meaning]) (keeps_choose hP (hop cond (.head _))
      (hop yes (by simp [Expr.operands])).value (hop no (by simp [Expr.operands])).value)
  | orElse j cond no =>
    exact hvalue _ (by rw [meaning]) (keeps_choose hP (hop cond (.head _))
      ((keeps_recordedTypes _).bind fun _ => .pure _) (hop no (.tail _ (.head _))).value)
  | call j name args =>
    refine hvalue _ (by rw [meaning]) ?_
    exact keeps_call hP hk.tag name (fun a ha => he.operand ha) hop
  | item j array key =>
    have ha := hop array (.head _)
    have hkey := hop key (.tail _ (.head _))
    refine keptBy_ofPlace hP he hk.tag hown (by rw [meaning]; rfl)
      (ha.value.bind fun s => hkey.value.bind fun _ => keeps_inspect _)
      (ha.quiet.bind fun s => hkey.value.bind fun _ => keeps_inspect _) fun h s => ?_
    exact hkey.value.bind fun _ => (keeps_storeElement ha.quiet (ha.store h) s).bind fun _ =>
      keeps_record hk.tag s
  | append j array =>
    have ha := hop array (.head _)
    refine keptBy_ofPlace hP he hk.tag hown (by rw [meaning, ← Expr.gather_append]; rfl)
      (keeps_gather hop) (keeps_gather hop) fun h s => ?_
    exact (keeps_storeElement ha.quiet (ha.store h) s).bind fun _ => keeps_record hk.tag s
  | _ => exact absurd trivial hplain

end Meanings

end Infer

/-! ### Operations and exits -/

namespace Op

variable {α : Type}

/-- The variables that an operation stores into. -/
def stored : Op α → List String
  | eval e => e.stored
  | static name init => name :: init.toList.flatMap Expr.stored
  | global _ => []
  | unset names => names

theorem mem_stored_of_exprs {o : Op α} {e : Expr α} (he : e ∈ o.exprs) {name : String}
    (h : name ∈ e.stored) : name ∈ o.stored := by
  cases o with
  | eval e' =>
    obtain rfl := mem_singleton.1 he
    exact h
  | static n init => exact mem_cons_of_mem n (mem_flatMap.2 ⟨e, he, h⟩)
  | global _ | unset _ => cases he

end Op

/-- The variables that an exit stores into before the block is left. -/
def Exit.stored {α : Type} (x : Exit α) : List String := x.exprs.flatMap Expr.stored

namespace Routine

variable {r r' : Routine} {i j : Nat} {v u : Variable}

theorem widens_setVar (hv : r.scope.vars[j]? = some v) (hname : u.name = v.name)
    (htypes : v.types ≤ u.types) (aliased : VarSet) : r.Widens i (r.setVar j u aliased) := by
  refine ⟨names_setVar aliased hv hname, ?_⟩
  unfold merged
  rw [show (r.setVar j u aliased).scope.vars = r.scope.vars.set j u from rfl, getElem?_set]
  split
  next heq =>
    subst heq
    rw [if_pos (List.getElem?_eq_some_iff.1 hv).1, hv]
    exact htypes
  next => exact le_refl _

theorem spares_flowInto {b k : Nat} {s : State} {changed : Bool}
    (h : r.flowInto b s = .ok (changed, r')) : r.Spares i k r' := by
  rcases flowInto_cases h with rfl | ⟨s', rfl, -⟩ <;> exact ⟨⟨rfl, le_refl _⟩, rfl⟩

end Routine

namespace Infer

section Blocks

variable {r : Routine} {i k : Nat} {P : State → Prop} {c : Setting} {s : State}

theorem keeps_addTypes (j : Nat) (t : TypeSet) : Keeps r i k P (updateScope (·.addTypes j t)) := by
  refine keeps_updateScope fun s b s' h r' hr' => ?_
  subst hr'
  obtain ⟨v, hv, rfl⟩ := Scope.addTypes_ok h
  exact Routine.widens_setVar (u := { v with types := v.types ∪ t }) hv rfl
    (le_union_left v.types t) _

theorem keeps_addKept (j : Nat) (t : TypeSet) : Keeps r i k P (updateScope (·.addKept j t)) := by
  refine keeps_updateScope fun s b s' h r' hr' => ?_
  subst hr'
  obtain ⟨v, all, hv, -, rfl⟩ := Scope.addKept_ok h
  exact Routine.widens_setVar (u := { v with kept := some all }) hv rfl (le_refl v.types) _

theorem keeps_keep (j : Nat) (t : TypeSet) : Keeps r i k P (keep c j t) := by
  refine (keeps_addKept j t).bind fun grew => ?_
  split
  · exact (keeps_queue _).bind fun _ => keeps_queue _
  · exact .pure ()

theorem keeps_commitOne (j : Nat) (t : TypeSet) : Keeps r i k P (commitOne j t) := by
  refine keeps_getRoutine.bind fun r' => (keeps_addTypes _ _).bind fun grew => ?_
  split
  · split
    · exact (keeps_queue _).bind fun _ => keeps_queue _
    · exact .pure ()
  · exact .pure ()

theorem keeps_commit (s : State) : Keeps r i k P (commit s) := by
  rw [commit_eq]
  exact .forM fun p _ => keeps_commitOne p.1 p.2

theorem keeps_propagate (yes no : State) : Keeps r i k P (propagate c yes no) := by
  refine keeps_getRoutine.bind fun r' => .forM fun p _ w hw => ?_
  show Yields (ofExcept (w.routine.flowInto p.1 _) >>= fun q => modifyRoutine fun _ => q.2) w _
  rcases hflow : w.routine.flowInto p.1 (if p.2 = .onFalse then no else yes) with f | ⟨changed, r''⟩
  · exact trivial
  · exact ⟨Routine.spares_flowInto hflow, fun h => h⟩

theorem keeps_optValue {o : Option (Expr Nat)} (h : ∀ e ∈ o, Keeps r i k P (e.meaning c).value) :
    Keeps r i k P (optValue c o) := by
  cases o with
  | none => exact .pure _
  | some e => exact h e rfl

/-- **An operation keeps what it does not store into.** -/
theorem op_keeps (hP : Tolerant P) {o : Op Nat} (hnames : ∀ name ∈ o.names, name ∈ r.scope.names)
    (hk : ∀ e ∈ o.exprs, Avoids k e) (hstored : ∀ name ∈ o.stored, Harmless P (r.index name)) :
    Keeps r i k P (op c o) := by
  have hexprs : ∀ e ∈ o.exprs, KeptBy r i k P c e := fun e he =>
    meaning_keeps hP e
      (mentions_of_names fun name hname => hnames name (Op.names_of_exprs he name hname))
      (hk e he) fun name hname => hstored name (Op.mem_stored_of_exprs he hname)
  cases o with
  | eval e => exact (hexprs e (by simp [Op.exprs])).value.discard
  | static name init =>
    have hinit : Keeps r i k P (optValue c init) := keeps_optValue fun e he =>
      (hexprs e (Option.mem_toList.2 he)).value
    have hharmless := hstored name (by simp [Op.stored])
    rw [op_static]
    refine (keeps_addFlags _).bind fun _ => keeps_useVar (hnames name (by simp [Op.names])) ?_
    refine hinit.bind fun first => .bind (keeps_modifyRoutine fun _ => ?_) fun _ => ?_
    · exact ⟨⟨rfl, le_refl _⟩, rfl⟩
    · refine keeps_getRoutine.bind fun r1 => (keeps_ofExcept _).bind fun held => ?_
      refine (keeps_keep _ _).bind fun _ => keeps_getRoutine.bind fun r2 => ?_
      exact keeps_modifyState fun s => hharmless.assign s _
  | global names =>
    refine (keeps_addFlags _).bind fun _ => .forM fun name hname => ?_
    exact keeps_useVar (hnames name hname) ((keeps_markAliased _).bind fun _ =>
      keeps_modifyState fun s => hP.any s _)
  | unset names =>
    refine .forM fun name hname => keeps_useVar (hnames name hname) ?_
    exact keeps_modifyState fun s => (hstored name hname).unset s

theorem keeps_loopTypes (s : TypeSet) : Keeps r i k P (loopTypes s) := by
  refine keeps_getTable.bind fun t => ?_
  split
  · exact .pure _
  · exact keeps_inspect _

theorem keeps_loopKey {key : Option String} (hkey : ∀ n ∈ key, n ∈ r.scope.names) (done : State) :
    Keeps r i k P (loopKey done key) := by
  cases key with
  | none => exact .pure _
  | some n => exact keeps_useVar (hkey n rfl) (.pure _)

/-- After the step, variable `i` has every shape of `S` throughout the routine. -/
def Secures {β : Type} (i : Nat) (S : Nat → Prop) (m : Walk β) : Prop :=
  ∀ w, Yields m w fun _ w' => ∀ x, S x → x ∈ w'.routine.merged i

section Secures

variable {β γ : Type} {S S' : Nat → Prop} {m : Walk β} {f : β → Walk γ} {w : Walker}

theorem Secures.andThen (h : Secures i S m) (hf : ∀ r b, Keeps r i 0 (fun _ => True) (f b)) :
    Secures i S (m >>= f) := fun w =>
  (h w).andThen fun b w1 h1 => (hf w1.routine b w1 rfl).imp fun _ _ h2 x hx => h2.1.merged.1 x (h1 x hx)

theorem Secures.after (hf : ∀ b, Secures i S (f b)) : Secures i S (m >>= f) := fun w =>
  .bind (by
    unfold Ends
    rcases m w with ⟨b, w'⟩ | ⟨e, w'⟩
    · exact hf b w'
    · exact trivial)

theorem Yields.and {Q Q' : β → Walker → Prop} (h : Yields m w Q) (h' : Yields m w Q') :
    Yields m w fun b w' => Q b w' ∧ Q' b w' := by
  unfold Yields Ends at *
  revert h h'
  rcases m w with ⟨b, w'⟩ | ⟨f, w'⟩
  · exact fun h h' => ⟨h, h'⟩
  · exact fun h _ => h

theorem Yields.all {ι : Type} {Q : ι → β → Walker → Prop} (h : ∀ x, Yields m w (Q x)) :
    Yields m w fun b w' => ∀ x, Q x b w' := by
  unfold Yields Ends at *
  revert h
  rcases m w with ⟨b, w'⟩ | ⟨f, w'⟩
  · exact fun h => h
  · exact fun _ => trivial

theorem Secures.or (h : Secures i S m) (h' : Secures i S' m) : Secures i (fun x => S x ∨ S' x) m :=
  fun w => ((h w).and (h' w)).imp fun _ _ hw x hx => hx.elim (hw.1 x) (hw.2 x)

theorem addTypes_secures (t : TypeSet) : Secures i (· ∈ t) (updateScope (·.addTypes i t)) := by
  intro w
  show Yields (ofExcept (w.routine.scope.addTypes i t) >>= fun p => _ : Walk Bool) w _
  unfold Scope.addTypes
  rcases hget : w.routine.scope.get i with f | v
  · exact trivial
  · have hv := Scope.get_ok hget
    intro x hx
    show x ∈ (w.routine.setVar i { v with types := v.types ∪ t } w.routine.scope.aliased).merged i
    unfold Routine.merged Routine.setVar
    rw [List.getElem?_set_self (List.getElem?_eq_some_iff.1 hv).1]
    exact mem_union.2 (.inr hx)

theorem commitOne_secures (t : TypeSet) : Secures i (· ∈ t) (commitOne i t) := by
  refine Secures.after fun r' => Secures.andThen (fun w => ?_) fun r grew => ?_
  · refine (addTypes_secures _ w).imp fun _ w' h x hx => h x ?_
    split <;> exact hx
  · split
    · split
      · exact (keeps_queue _).bind fun _ => keeps_queue _
      · exact .pure ()
    · exact .pure ()

theorem mem_entries_of_holds {s : State} {x : Nat} (h : s.Holds i x) : (i, s.slot i) ∈ s.entries := by
  obtain ⟨hi, hx⟩ := h
  have hslot : s.slots[i]? = some (s.slot i) := by
    rw [State.slot, getD_eq_getElem?_getD, getElem?_eq_getElem hi]
    rfl
  refine mem_filterMap.2 ⟨(s.slot i, i), mem_zipIdx_iff_getElem?.2 hslot, ?_⟩
  exact if_neg fun hvoid => isVoid_iff.1 hvoid x hx

theorem commit_secures (s : State) : Secures i (s.Holds i) (commit s) := by
  by_cases hnone : ∃ x, s.Holds i x
  · obtain ⟨x, hx⟩ := hnone
    have hentry := mem_entries_of_holds hx
    rw [commit_eq]
    generalize s.entries = l at hentry
    induction l with
    | nil => cases hentry
    | cons p l ih =>
      rcases mem_cons.1 hentry with rfl | hmem
      · refine Secures.andThen (fun w => ?_) fun r _ => .forM fun q _ => keeps_commitOne q.1 q.2
        exact (commitOne_secures _ w).imp fun _ _ h y hy => h y hy.2
      · exact Secures.after fun _ => ih hmem
  · intro w
    unfold Yields Ends
    rcases commit s w with ⟨b, w'⟩ | ⟨f, w'⟩
    · exact fun x hx => absurd ⟨x, hx⟩ hnone
    · exact trivial

theorem Keeps.securing (h : Keeps r i k (fun _ => True) m) (hsecures : Secures i S m)
    (hw : SameVars r w) :
    Yields m w fun _ w' => w.routine.Spares i k w'.routine ∧ ∀ x, S x → x ∈ w'.routine.merged i :=
  ((h w hw).and (hsecures w)).imp fun _ _ h => ⟨h.1.1, h.2⟩

end Secures

theorem keeps_addReturn (t : TypeSet) :
    Keeps r i k P (modifyRoutine fun r => { r with scope := (r.scope.addReturn t).2 }) :=
  keeps_modifyRoutine fun _ => ⟨⟨rfl, le_refl _⟩, rfl⟩

/-- The states in which the block is left. -/
def Way.left : Way → List State
  | onward held _ _ => held
  | back held _ => [held]

theorem keeps_depart : ∀ way, Keeps r i k P (depart c way)
  | .onward _ yes no => (Keeps.forM fun s _ => keeps_commit s).bind fun _ => keeps_propagate yes no
  | .back held _ => (keeps_commit held).bind fun _ => keeps_addReturn _

theorem commits_cover : ∀ {held : List State}, s ∈ held →
    Secures i (s.Holds i) (held.forM commit)
  | s' :: held, h => by
    rcases mem_cons.1 h with rfl | h
    · exact (commit_secures s).andThen fun r _ => .forM fun s _ => keeps_commit s
    · exact .after fun _ => commits_cover h

theorem depart_secures {way : Way} (hs : s ∈ way.left) :
    Secures i (s.Holds i) (depart c way) := by
  cases way with
  | onward held yes no => exact (commits_cover hs).andThen fun r _ => keeps_propagate yes no
  | back held returned =>
    obtain rfl := mem_singleton.1 hs
    exact (commit_secures s).andThen fun r _ => keeps_addReturn _

/-- Evaluating the expression of an exit, if it has one, leads to a walker and to the states in
which the block is left, as `A` says. -/
def Arrives (c : Setting) (A : Walker → State → State → Prop) (w : Walker) : Exit Nat → Prop
  | .fall => A w w.state w.state
  | .branch cond => Yields (cond.meaning c).branchStates w fun p w' => A w' p.1 p.2
  | .each source _ _ => Yields (source.meaning c).value w fun _ w' => A w' w'.state w'.state
  | .ret e => Yields (optValue c e) w fun _ w' => A w' w'.state w'.state

/-- **What a state in which a block is left holds is with the variable then**, and nothing is
said of expressions any more. -/
theorem exit_covers {A : Walker → State → State → Prop} {ex : Exit Nat} {w : Walker}
    (h : Arrives c A w ex) (hnames : ∀ name ∈ ex.names, name ∈ r.scope.names)
    (hA : ∀ w1 yes no, A w1 yes no → SameVars r w1) :
    Yields (exit c ex) w fun _ w' => ∃ w1 yes no, A w1 yes no ∧ w1.routine.Spares i k w'.routine ∧
      ∀ x, yes.Holds i x ∨ no.Holds i x → x ∈ w'.routine.merged i := by
  -- the states in which the exit is left are among those of the way out
  have hway : Yields (wayOut c ex) w fun way w2 => SameVars r w2 ∧
      ∃ w1 yes no, A w1 yes no ∧ w1.routine.Spares i k w2.routine ∧ yes ∈ way.left ∧
        no ∈ way.left := by
    cases ex with
    | fall => exact getState_keeps ⟨hA w _ _ h, w, _, _, h, .refl .., .head _, .head _⟩
    | branch cond =>
      refine h.andThen fun p w1 h1 => ?_
      exact ⟨hA w1 _ _ h1, w1, _, _, h1, .refl .., .head _, .tail _ (.head _)⟩
    | each source key value =>
      have huse : Keeps r i k (fun _ => True) (useVar value) := by
        rw [← bind_pure (useVar value)]
        exact keeps_useVar (hnames value (by simp [Exit.names])) (.pure _)
      refine h.andThen fun s w1 h1 => ?_
      have helem : Keeps r i k (· = w1.state) (loopTypes s) := keeps_loopTypes s
      refine helem.andThen (hA w1 _ _ h1) fun elem w2 hw2 hspares2 hstate => getState_keeps ?_
      rw [hstate rfl]
      have hkey : Keeps r i k (fun _ => True) (loopKey w1.state key) :=
        keeps_loopKey (fun n hn => hnames n (by simp [Exit.names, Option.mem_def.1 hn])) _
      refine hkey.andThen hw2 fun next w3 hw3 hspares3 _ => ?_
      refine huse.andThen hw3 fun var w4 hw4 hspares4 _ => ⟨hw4, w1, _, _, h1, ?_⟩
      exact ⟨(hspares2.trans hspares3).trans hspares4, .tail _ (.head _), .tail _ (.head _)⟩
    | ret e =>
      refine h.andThen fun s w1 h1 => getState_keeps ?_
      exact ⟨hA w1 _ _ h1, w1, _, _, h1, .refl .., .head _, .head _⟩
  rw [exit_eq]
  refine .bind (hway.mono ?_ fun _ _ h => h)
  rintro way w2 ⟨hw2, w1, yes, no, h1, hspares, hyes, hno⟩
  have hkeeps : Keeps r i k (fun _ => True) (depart c way) := keeps_depart way
  refine (hkeeps.securing ((depart_secures hyes).or (depart_secures hno)) hw2).imp fun _ w' h => ?_
  exact ⟨w1, yes, no, h1, hspares.trans h.1, h.2⟩

end Blocks

end Infer

end ShapeFlow
