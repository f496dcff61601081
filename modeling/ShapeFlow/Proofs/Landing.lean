/-
# Where the types of an assignment land

A walk records the types of an assignment and puts them into the slot of the
variable.  They stay there as long as nothing that is evaluated after the
assignment stores into the variable again, whatever expression surrounds it:
short circuits and conditional branches join the states they split.  If the
assignment is itself a condition, null may be ruled out.

Key definitions: `Expr.Last`, `Lands`, `LandsIn`.
Key theorem: `Infer.landsIn_of_last`.
-/
import ShapeFlow.Proofs.Keeping

namespace ShapeFlow

open ShapeFlow.Flow Infer List ShapeFlow.Expr

/-! ### The last assignment -/

namespace Expr

variable {α : Type} {later : List String} {name : String}

/-- Operands that are evaluated in turn, each with the variables stored into after it. -/
def inTurn : List (Expr α) → List (Expr α × List String)
  | [] => []
  | e :: es => (e, es.flatMap stored) :: inTurn es

/-- The operands that are evaluated once, each with the variables that the rest of the expression
stores into after it; what a condition names after it counts as well, since shapes may be ruled
out there.  Places that are stored into are left out: their keys may be evaluated twice. -/
def evaluated : Expr α → List (Expr α × List String)
  | lit .. | var .. | step .. => []
  | assign _ target value | update _ _ target value =>
    [(value, target.base?.toList ++ target.stored)]
  | binary _ .and l r | binary _ .or l r => [(l, r.names), (r, [])]
  | binary _ .coalesce l r => [(l, []), (r, [])]
  | choose _ cond yes no => [(cond, yes.stored ++ no.stored), (yes, []), (no, [])]
  | isset _ operands => (inTurn operands).map fun (e, later) => (e, later ++ operands.filterMap varName?)
  | e => inTurn e.operands

/-- What a store into the place evaluates once, with the variables stored into after it. -/
def storing : Expr α → List (Expr α × List String)
  | item _ within key => [(key, within.base?.toList ++ within.stored)]
  | field _ object _ => [(object, [])]
  | _ => []

/-- The operands whose outcome matters. -/
def conditions : Expr α → List (Expr α)
  | binary _ .and l r | binary _ .or l r => [l, r]
  | unary _ .not operand => [operand]
  | choose _ cond _ _ | orElse _ cond _ => [cond]
  | _ => []

/-- Nothing that is evaluated after `a` in the expression stores into variable `name`. -/
inductive Last (name : String) (a : Expr α) : Expr α → Prop
  | self : Last name a a
  | under {e x : Expr α} {later : List String} : (x, later) ∈ e.evaluated → name ∉ later →
    Last name a x → Last name a e
  | place {j : α} {target value x : Expr α} {later : List String} : (x, later) ∈ target.storing →
    name ∉ later → Last name a x → Last name a (.assign j target value)

theorem mem_inTurn {x : Expr α} : ∀ {l : List (Expr α)},
    (x, later) ∈ inTurn l → ∃ before after, l = before ++ x :: after ∧ later = after.flatMap stored
  | e :: es, h => by
    rcases mem_cons.1 h with heq | h
    · cases heq
      exact ⟨[], es, rfl, rfl⟩
    · obtain ⟨before, after, rfl, rfl⟩ := mem_inTurn h
      exact ⟨e :: before, after, rfl, rfl⟩

variable {e x : Expr α}

theorem mem_operands_of_evaluated (h : (x, later) ∈ e.evaluated) : x ∈ e.operands := by
  have hturn : ∀ p ∈ inTurn e.operands, p.1 = x → x ∈ e.operands := fun (y, l) hp hy => by
    obtain rfl : y = x := hy
    obtain ⟨before, after, hl, -⟩ := mem_inTurn hp
    rw [hl]
    exact mem_append_right _ (.head _)
  unfold evaluated at h
  split at h
  case h_10 =>
    obtain ⟨p, hp, heq⟩ := mem_map.1 h
    cases heq
    exact hturn p hp rfl
  all_goals first
    | exact absurd h not_mem_nil
    | exact hturn _ h rfl
    | (simp only [mem_cons, Prod.mk.injEq, not_mem_nil, or_false] at h
       simp only [operands, mem_cons, not_mem_nil, or_false]
       tauto)

theorem mem_operands_of_storing (h : (x, later) ∈ e.storing) : x ∈ e.operands := by
  cases e with
  | item | field =>
    obtain ⟨rfl, -⟩ := Prod.mk.inj (mem_singleton.1 h)
    simp [operands]
  | _ => cases h

theorem inTurn_of_plain {e x : Expr Nat} (hplain : e.IsPlain) (h : (x, later) ∈ e.evaluated) :
    ∃ later', (x, later') ∈ inTurn e.operands ∧ later' ⊆ later := by
  cases e with
  | isset k operands =>
    obtain ⟨p, hp, heq⟩ := mem_map.1 h
    cases heq
    exact ⟨p.2, hp, fun _ => mem_append_left _⟩
  | binary k op l r =>
    obtain ⟨hand, hor, hcoalesce⟩ := hplain
    cases op <;> first | exact ⟨later, h, fun _ => id⟩ | contradiction
  | lit => cases h
  | cast | instanceOf | method | new | array | concat | unary => exact ⟨later, h, fun _ => id⟩
  | _ => cases hplain

theorem Last.mem_walk {a : Expr α} (h : Last name a e) : a ∈ e.walk := by
  induction h with
  | self => exact a.mem_walk_self
  | under hmem _ _ ih => exact mem_walk_of_operand (mem_operands_of_evaluated hmem) ih
  | @place _ target _ _ _ hmem _ _ ih =>
    exact mem_walk_of_operand (x := target) (by simp [operands])
      (mem_walk_of_operand (mem_operands_of_storing hmem) ih)

theorem Last.not_leaf {k : α} {target value : Expr α} (h : Last name (.assign k target value) e) :
    e.varName? = none ∧ e.isNull = false := by
  cases h with
  | self | place => exact ⟨rfl, rfl⟩
  | under hmem =>
    cases e with
    | lit | var => cases hmem
    | _ => exact ⟨rfl, rfl⟩

theorem mem_names_of_base? (e : Expr α) : name ∈ e.base? → name ∈ e.names := by
  induction e using induct_operands with
  | _ e ih =>
  intro h
  cases e with
  | var k n => exact mem_names_self h
  | item _ array _ | append _ array =>
    exact mem_names_of_operand (x := array) (by simp [operands]) (ih array (by simp [operands]) h)
  | _ => cases h

theorem mem_names_of_stored (e : Expr α) : name ∈ e.stored → name ∈ e.names := by
  induction e using induct_operands with
  | _ e ih =>
  intro h
  obtain ⟨y, hy, hstore⟩ := mem_filterMap.1 h
  rcases mem_walk.1 hy with rfl | ⟨x, hx, hyx⟩
  · cases y with
    | assign k target value | update k op target value | step k op target =>
      exact mem_names_of_operand (x := target) (by simp [operands]) (mem_names_of_base? target hstore)
    | call k f args =>
      rcases args with _ | ⟨arg, _ | ⟨_, _⟩⟩
      · cases hstore
      · simp only [store?] at hstore
        split at hstore
        · split at hstore
          · cases hstore
          · exact mem_names_of_operand (x := arg) (by simp [operands]) (mem_names_self hstore)
        · cases hstore
      · cases hstore
    | _ => cases hstore
  · exact mem_names_of_operand hx (ih x hx (mem_filterMap.2 ⟨y, hyx, hstore⟩))

end Expr

theorem Routine.index_ne (r : Routine) {name n : String} (hname : name ∈ r.scope.names)
    (h : n ≠ name) : r.index n ≠ r.index name :=
  fun heq => h ((idxOf_inj hname).1 heq.symm).symm

namespace Infer

variable {r : Routine} {i k : Nat} {N : Prop} {c : Setting}

/-! ### Where recorded types are found -/

/-- Whatever types the step adds to those of expression `k` are in the slot of variable `i` after
it, except null if `N`. -/
def Lands {β : Type} (r : Routine) (i k : Nat) (N : Prop) (m : Walk β) : Prop :=
  ∀ (M : Nat → Prop) (w : Walker), (N → M 0) → w.routine.scope.names = r.scope.names →
    (∀ x ∈ w.routine.exprTypes k, M x) → Yields m w fun _ w' =>
      w.routine.Widens i w'.routine ∧ ∀ x ∈ w'.routine.exprTypes k, M x ∨ w'.state.Holds i x

/-- The step keeps whatever the slot of variable `i` holds. -/
abbrev Safe {β : Type} (r : Routine) (i k : Nat) (m : Walk β) : Prop :=
  ∀ x, Keeps r i k (State.Holds · i x) m

section Lands

variable {β γ : Type} {m : Walk β} {f : β → Walk γ} {Q : γ → Walker → Prop} {M : Nat → Prop}
  {w : Walker}

theorem Safe.yields (h : Safe r i k m) (hw : SameVars r w) :
    Yields m w fun _ w' => w.routine.Spares i k w'.routine ∧
      ∀ x, w.state.Holds i x → w'.state.Holds i x := by
  exact (Yields.all fun x => h x w hw).imp fun _ _ h => ⟨(h 0).1, fun x => (h x).2⟩

theorem Safe.andThen (h : Safe r i k m) (hw : SameVars r w)
    (hf : ∀ b w', SameVars r w' → w.routine.Spares i k w'.routine →
      (∀ x, w.state.Holds i x → w'.state.Holds i x) → Yields (f b) w' Q) : Yields (m >>= f) w Q :=
  (h.yields hw).andThen fun b w' h => hf b w' (h.1.names.trans hw) h.1 h.2

theorem Lands.andThen (h : Lands r i k N m) (hM : N → M 0)
    (hw : SameVars r w) (hall : ∀ x ∈ w.routine.exprTypes k, M x)
    (hf : ∀ b w', SameVars r w' → w.routine.Widens i w'.routine →
      (∀ x ∈ w'.routine.exprTypes k, M x ∨ w'.state.Holds i x) → Yields (f b) w' Q) :
    Yields (m >>= f) w Q :=
  (h M w hM hw hall).andThen fun b w' h => hf b w' (h.1.names.trans hw) h.1 h.2

theorem Lands.safe (h : Lands r i k N m) (hf : ∀ b, Safe r i k (f b)) : Lands r i k N (m >>= f) := by
  intro M w hM hw hall
  refine h.andThen hM hw hall fun b w1 hw1 hwidens hlands => ?_
  refine ((hf b).yields hw1).imp fun _ w2 h2 => ⟨hwidens.trans h2.1.toWidens, fun x hx => ?_⟩
  rw [h2.1.types] at hx
  exact (hlands x hx).imp_right (h2.2 x)

theorem Lands.after (h : Keeps r i k (fun _ => True) m) (hf : ∀ b, Lands r i k N (f b)) :
    Lands r i k N (m >>= f) := by
  intro M w hM hw hall
  refine h.andThen hw fun b w1 hw1 hspares _ => ?_
  refine (hf b M w1 hM hw1 (hspares.types ▸ hall)).imp fun _ w2 h2 => ?_
  exact ⟨hspares.toWidens.trans h2.1, h2.2⟩

theorem safe_pure (b : β) : Safe r i k (Pure.pure b : Walk β) := fun _ => .pure b

theorem Lands.recorded {step : Walk TypeSet} (h : Lands r i k N step) {j : Nat} (hj : j ≠ k) :
    Lands r i k N (recorded j step) :=
  h.safe fun s _ => (keeps_record hj s).bind fun _ => .pure s

theorem Lands.discard (h : Lands r i k N m) : Lands r i k N (discard m) := by
  intro M w hM hw hall
  rw [discard_eq]
  exact (h.safe fun _ => safe_pure _) M w hM hw hall

end Lands

/-! ### Conditions -/

section Conditions

variable {β : Type} {m l : Meaning} {M : Nat → Prop} {w : Walker} {runs b : Branch}

/-- What is said in either outcome is in the state after that outcome. -/
theorem branchStates_lands (h1 : Lands r i k N (m.assume .holds)) (h2 : Lands r i k N (m.assume .fails))
    (hM : N → M 0) (hw : SameVars r w)
    (hall : ∀ x ∈ w.routine.exprTypes k, M x) {f : State × State → Walk β} {Q : β → Walker → Prop}
    (hf : ∀ yes no w', SameVars r w' → w.routine.Widens i w'.routine →
      (∀ x ∈ w'.routine.exprTypes k, M x ∨ yes.Holds i x ∨ no.Holds i x) →
      Yields (f (yes, no)) w' Q) : Yields (m.branchStates >>= f) w Q := by
  rw [branchStates_bind]
  refine getState_keeps (h1.andThen hM hw hall fun _ w1 hw1 hwidens1 hlands1 => getState_keeps ?_)
  refine setState_keeps (h2.andThen (M := fun x => M x ∨ w1.state.Holds i x) (fun hN => .inl (hM hN))
    hw1 hlands1 fun _ w2 hw2 hwidens2 hlands2 => getState_keeps ?_)
  exact hf w1.state w2.state w2 hw2 (hwidens1.trans hwidens2) fun x hx => or_assoc.1 (hlands2 x hx)

theorem lands_shortCircuit_left (hl : ∀ b, Lands r i k N (l.assume b))
    (hm : Safe r i k (m.assume b)) : Lands r i k N (Meaning.shortCircuit runs l m b) := by
  unfold Meaning.shortCircuit
  split
  · exact (hl runs).safe fun _ x => (hm x).bind fun _ => .pure _
  · intro M w hM hw hall
    refine getState_keeps ?_
    refine (hl runs.negate).andThen hM hw hall fun _ w1 hw1 hwidens1 hlands1 => getState_keeps ?_
    refine setState_keeps ((hl runs).andThen (M := fun x => M x ∨ w1.state.Holds i x)
      (fun hN => .inl (hM hN)) hw1 hlands1 fun _ w2 hw2 hwidens2 hlands2 => ?_)
    refine hm.andThen hw2 fun _ w3 hw3 hspares3 hkept => joinWith_yields fun s hjoin => ?_
    refine ⟨(hwidens1.trans hwidens2).trans hspares3.toWidens, fun x hx => ?_⟩
    rcases hlands2 x (hspares3.types ▸ hx) with (hx | hx) | hx
    · exact .inl hx
    · exact .inr (State.Holds.join (.inl hx) hjoin)
    · exact .inr (State.Holds.join (.inr (hkept x hx)) hjoin)

theorem lands_shortCircuit_right (hl : ∀ b, Keeps r i k (fun _ => True) (l.assume b))
    (hm : Lands r i k N (m.assume b)) : Lands r i k N (Meaning.shortCircuit runs l m b) := by
  unfold Meaning.shortCircuit
  split
  · exact Lands.after (hl runs) fun _ => hm.safe fun _ => safe_pure _
  · intro M w hM hw hall
    refine getState_keeps ((hl runs.negate).andThen hw fun _ w1 hw1 hspares1 _ => getState_keeps ?_)
    refine setState_keeps ((hl runs).andThen hw1 fun _ w2 hw2 hspares2 _ => ?_)
    have hspares := hspares1.trans hspares2
    refine hm.andThen hM hw2 (fun x hx => hall x (hspares.types ▸ hx)) fun _ w3 _ hwidens3 hlands3 =>
      joinWith_yields fun s hjoin => ⟨hspares.toWidens.trans hwidens3, fun x hx => ?_⟩
    exact (hlands3 x hx).imp_right fun hx => State.Holds.join (.inr hx) hjoin

theorem lands_maybeValue (h : Lands r i k N m.value) : Lands r i k N m.maybeValue := by
  intro M w hM hw hall
  refine getState_keeps (h.andThen hM hw hall fun s w1 _ hwidens hlands => ?_)
  refine .bind (joinWith_yields fun s' hjoin => ⟨hwidens, fun x hx => ?_⟩)
  exact (hlands x hx).imp_right fun hx => State.Holds.join (.inr hx) hjoin

end Conditions

/-! ### Operands -/

section Operands

variable {e x cond yes no : Expr Nat} {es : List (Expr Nat)}

/-- A walk through the expression leaves variable `i` and expression `k` alone. -/
abbrev Apart (r : Routine) (i k : Nat) (c : Setting) (e : Expr Nat) : Prop :=
  KeptBy r i k (fun _ => True) c e

/-- A walk through the expression keeps whatever the slot of variable `i` holds. -/
abbrev Clear (r : Routine) (i k : Nat) (c : Setting) (e : Expr Nat) : Prop :=
  ∀ x, KeptBy r i k (State.Holds · i x) c e

/-- What a walk through the expression says of expression `k` is in the slot of variable `i`
after it.  An outcome of `k` itself may rule null out. -/
structure LandsIn (r : Routine) (i k : Nat) (N : Prop) (c : Setting) (e : Expr Nat) : Prop where
  value : Lands r i k N (e.meaning c).value
  quiet : Lands r i k N (e.meaning c).quiet
  assume : (e.tag = k → N) → ∀ b, Lands r i k N ((e.meaning c).assume b)

/-- Of expressions evaluated in turn, one says something of expression `k`, and those after it
keep that. -/
inductive OneLands (r : Routine) (i k : Nat) (N : Prop) (c : Setting) : List (Expr Nat) → Prop
  | here {e : Expr Nat} {es : List (Expr Nat)} : LandsIn r i k N c e → (∀ y ∈ es, Clear r i k c y) →
    OneLands r i k N c (e :: es)
  | later {e : Expr Nat} {es : List (Expr Nat)} : Apart r i k c e → OneLands r i k N c es →
    OneLands r i k N c (e :: es)

theorem OneLands.single (h : OneLands r i k N c [e]) : LandsIn r i k N c e := by
  cases h with
  | here hlands _ => exact hlands
  | later _ hnone => cases hnone

theorem OneLands.mapM {α : Type} {ex : α → Expr Nat} {f : α → Walk TypeSet}
    (hlands : ∀ a, LandsIn r i k N c (ex a) → Lands r i k N (f a))
    (hkeeps : ∀ {P : State → Prop} a, KeptBy r i k P c (ex a) → Keeps r i k P (f a)) :
    ∀ {l : List α}, OneLands r i k N c (l.map ex) → Lands r i k N (l.mapM f)
  | a :: l, .here h hclear => by
    rw [mapM_cons]
    exact (hlands a h).safe fun _ x => .bind
      (.mapM fun b hb => hkeeps b (hclear _ (mem_map_of_mem hb) x)) fun _ => .pure _
  | a :: l, .later h hrest => by
    rw [mapM_cons]
    exact Lands.after (hkeeps a h) fun _ => (OneLands.mapM hlands hkeeps hrest).safe fun _ => safe_pure _

theorem OneLands.gather (h : OneLands r i k N c e.operands) : Lands r i k N (e.gather c) := by
  rw [← map_id e.operands] at h
  refine Lands.safe (h.mapM (fun x hx => ?_) fun x hx => ?_) fun types _ => keeps_intern _
  all_goals rcases e.look_cases with heq | heq <;> rw [heq]
  · exact hx.value
  · exact hx.quiet
  · exact hx.value
  · exact hx.quiet

theorem OneLands.argTypes (h : OneLands r i k N c es) (name : String) :
    Lands r i k N (argTypes c name es) := by
  rw [argTypes_eq]
  rw [← zipIdx_map_fst 0 es] at h
  refine h.mapM (fun p hp => ?_) fun p hp => ?_ <;> dsimp only <;> split
  · exact hp.quiet.safe fun _ => safe_pure _
  · exact hp.value.safe fun _ => safe_pure _
  · exact hp.quiet.bind fun _ => .pure _
  · exact hp.value.bind fun _ => .pure _

theorem OneLands.element {l : Meaning → Walk TypeSet} (hl : l = Meaning.value ∨ l = Meaning.quiet)
    (h : OneLands r i k N c [e, x]) :
    Lands r i k N (do
      let s ← l (e.meaning c)
      let _ ← (x.meaning c).value
      elementOf s) := by
  cases h with
  | here hlands hclear =>
    have hfirst : Lands r i k N (l (e.meaning c)) := by
      rcases hl with rfl | rfl
      · exact hlands.value
      · exact hlands.quiet
    exact hfirst.safe fun s z => (hclear x (.head _) z).value.bind fun _ => keeps_inspect _
  | later hapart hrest =>
    refine Lands.after ?_ fun s => hrest.single.value.safe fun _ _ => keeps_inspect _
    rcases hl with rfl | rfl
    · exact hapart.value
    · exact hapart.quiet

theorem lands_choose {yes no : Walk TypeSet}
    (h : (∀ b, Lands r i k N ((cond.meaning c).assume b)) ∧ Safe r i k yes ∧ Safe r i k no ∨
      Apart r i k c cond ∧ (Lands r i k N yes ∧ Keeps r i k (fun _ => True) no ∨
        Keeps r i k (fun _ => True) yes ∧ Lands r i k N no)) :
    Lands r i k N ((cond.meaning c).choose yes no) := by
  intro M w hM hw hall
  rcases h with ⟨hcond, hyes, hno⟩ | ⟨hcond, h⟩
  · refine branchStates_lands (hcond _) (hcond _) hM hw hall fun onTrue onFalse w1 hw1 hwidens1 hlands => ?_
    refine setState_keeps (hyes.andThen hw1 fun s w2 hw2 hspares2 hkept2 => getState_keeps ?_)
    refine setState_keeps (hno.andThen hw2 fun t w3 hw3 hspares3 hkept3 => ?_)
    refine .bind (joinWith_yields fun s' hjoin => ?_)
    have hspares := hspares2.trans hspares3
    refine ⟨hwidens1.trans hspares.toWidens, fun x hx => ?_⟩
    refine (hlands x (hspares.types ▸ hx)).imp_right fun h => ?_
    exact State.Holds.join (h.imp (hkept2 x) (hkept3 x)) hjoin
  refine hcond.branchStates hw fun onTrue onFalse w1 hw1 hspares1 _ => setState_keeps ?_
  have hall1 : ∀ x ∈ w1.routine.exprTypes k, M x := fun x hx => hall x (hspares1.types ▸ hx)
  rcases h with ⟨hyes, hno⟩ | ⟨hyes, hno⟩
  · refine hyes.andThen hM hw1 hall1 fun s w2 hw2 hwidens2 hlands => getState_keeps ?_
    refine setState_keeps (hno.andThen hw2 fun t w3 hw3 hspares3 _ => ?_)
    refine .bind (joinWith_yields fun s' hjoin => ?_)
    refine ⟨(hspares1.toWidens.trans hwidens2).trans hspares3.toWidens, fun x hx => ?_⟩
    exact (hlands x (hspares3.types ▸ hx)).imp_right fun h => State.Holds.join (.inl h) hjoin
  · refine hyes.andThen hw1 fun s w2 hw2 hspares2 _ => getState_keeps (setState_keeps ?_)
    refine hno.andThen hM hw2 (fun x hx => hall1 x (hspares2.types ▸ hx))
      fun t w3 _ hwidens3 hlands => ?_
    refine .bind (joinWith_yields fun s' hjoin => ?_)
    refine ⟨(hspares1.trans hspares2).toWidens.trans hwidens3, fun x hx => ?_⟩
    exact (hlands x hx).imp_right fun h => State.Holds.join (.inr h) hjoin

theorem lands_call {args : List (Expr Nat)} {j : Nat} (hj : j ≠ k) (name : String)
    (hmentions : ∀ a ∈ args, Mentions r a) (h : OneLands r i k N c args) :
    Lands r i k N (call c j name args (meanings c args)) := by
  obtain ⟨rest, heq, hrest⟩ := call_split c j name args
  rw [heq]
  exact (h.argTypes name).safe fun types x => hrest (tolerant_holds i x) hj hmentions types

end Operands

/-! ### The assignment and what surrounds it -/

section Around

variable {name : String} {a e x target value : Expr Nat} {es : List (Expr Nat)}
  {later : List String} {t : Nat} {w : Walker} {s : TypeSet}

theorem apart (he : Mentions r e) (hk : Avoids k e) : Apart r i k c e :=
  meaning_keeps tolerant_true e he hk fun _ _ => harmless_true _

theorem clear (hname : name ∈ r.scope.names) (he : Mentions r e) (hk : Avoids k e)
    (hstored : name ∉ e.stored) : Clear r (r.index name) k c e := fun x =>
  meaning_keeps (tolerant_holds _ x) e he hk fun _ hn =>
    harmless_holds (r.index_ne hname fun heq => hstored (heq ▸ hn))

/-- No two nodes of the expressions have the same number. -/
abbrev TagsUnique (es : List (Expr Nat)) : Prop := ((es.flatMap Expr.walk).map Expr.tag).Nodup

theorem TagsUnique.operands (h : TagsUnique [e]) : TagsUnique e.operands := by
  have hwalk : (e.walk.map Expr.tag).Nodup := by simpa [TagsUnique] using h
  rw [walk_eq, map_cons] at hwalk
  exact (nodup_cons.1 hwalk).2

theorem TagsUnique.of_mem (h : TagsUnique es) (hx : x ∈ es) : TagsUnique [x] := by
  obtain ⟨before, after, rfl⟩ := append_of_mem hx
  have hsub : ([x].flatMap Expr.walk).Sublist ((before ++ x :: after).flatMap Expr.walk) := by
    simp
  exact (hsub.map Expr.tag).nodup h

theorem TagsUnique.tag_ne (h : TagsUnique [e]) (hx : x ∈ e.operands) (ha : a ∈ x.walk) : e.tag ≠ a.tag := by
  have hwalk : (e.walk.map Expr.tag).Nodup := by simpa [TagsUnique] using h
  rw [walk_eq, map_cons] at hwalk
  intro heq
  exact (nodup_cons.1 hwalk).1 (heq ▸ mem_map_of_mem (mem_flatMap.2 ⟨x, hx, ha⟩))

theorem TagsUnique.avoids {before after : List (Expr Nat)} (h : TagsUnique (before ++ x :: after))
    (ha : a ∈ x.walk) : ∀ y ∈ before ++ after, Avoids a.tag y := by
  have hperm : (before ++ x :: after).Perm (x :: (before ++ after)) := perm_middle
  have hfirst := ((hperm.flatMap_right Expr.walk).map Expr.tag).nodup_iff.1 h
  rw [flatMap_cons, map_append] at hfirst
  intro y hy z hz heq
  refine (nodup_append.1 hfirst).2.2 a.tag (mem_map_of_mem ha) z.tag ?_ heq.symm
  exact mem_map_of_mem (mem_flatMap.2 ⟨y, hy, hz⟩)

theorem oneLands_of_inTurn (hname : name ∈ r.scope.names) (hes : ∀ y ∈ es, Mentions r y)
    (hunique : TagsUnique es) (ha : a ∈ x.walk) (hmem : (x, later) ∈ inTurn es)
    (hlater : name ∉ later) (h : LandsIn r (r.index name) a.tag N c x) :
    OneLands r (r.index name) a.tag N c es := by
  obtain ⟨before, after, rfl, rfl⟩ := mem_inTurn hmem
  have havoids := hunique.avoids ha
  have hafter : OneLands r (r.index name) a.tag N c (x :: after) :=
    .here h fun y hy => clear hname (hes y (by simp [hy])) (havoids y (by simp [hy]))
      fun hstored => hlater (mem_flatMap.2 ⟨y, hy, hstored⟩)
  have hbefore : ∀ y ∈ before, Apart r (r.index name) a.tag c y := fun y hy =>
    apart (hes y (by simp [hy])) (havoids y (by simp [hy]))
  clear hes hunique hmem havoids
  induction before with
  | nil => exact hafter
  | cons y before ih =>
    exact .later (hbefore y (.head _)) (ih fun z hz => hbefore z (.tail _ hz))

/-- What surrounds the assignment tells nothing about the variable. -/
theorem var_ne_of_clues {p : Expr Nat × Clue} {outcome : Bool} {n : String}
    (hmem : (x, later) ∈ e.evaluated) (hlater : name ∉ later) (hvar : x.varName? = none)
    (hnull : x.isNull = false) (hp : p ∈ e.clues outcome)
    (hclue : ∀ limit other, p.2 ≠ .limit limit other) (hn : n ∈ p.1.varName?) : n ≠ name := by
  have hx := mem_operands_of_evaluated hmem
  have hne : p.1 ≠ x := fun heq => by
    rw [heq, hvar] at hn
    cases hn
  rintro rfl
  unfold clues at hp
  split at hp
  · cases hmem
  next j t v =>
    obtain rfl := mem_singleton.1 hp
    obtain ⟨-, rfl⟩ : x = v ∧ later = t.base?.toList ++ t.stored := by simpa [evaluated] using hmem
    cases t with
    | var =>
      cases hn
      exact hlater (.head _)
    | _ => cases hn
  next j operands =>
    obtain ⟨y, hy, rfl⟩ := mem_map.1 hp
    obtain ⟨q, -, heq⟩ := mem_map.1 hmem
    obtain ⟨-, rfl⟩ := Prod.mk.inj heq
    exact hlater (mem_append_right _ (mem_filterMap.2 ⟨y, hy, hn⟩))
  next j v =>
    obtain rfl := mem_singleton.1 hp
    exact hne (mem_singleton.1 hx).symm
  next j f arg =>
    obtain ⟨kind, -, rfl⟩ := mem_map.1 hp
    exact hne (mem_singleton.1 hx).symm
  next j operand className =>
    obtain rfl := mem_singleton.1 hp
    exact hne (mem_singleton.1 hx).symm
  next => grind
  next => grind
  next j op l m _ _ =>
    -- the other operand is null, which the one around the assignment is not
    simp only [operands, mem_cons, not_mem_nil, or_false] at hx
    unfold compared? at hp
    grind
  · cases hp

theorem mem_exprTypes_record {z : Nat}
    (h : z ∈ (withFact w k fun f => { f with types := f.types ∪ s }).routine.exprTypes k) :
    z ∈ w.routine.exprTypes k ∨ z ∈ s := by
  unfold Routine.exprTypes at h ⊢
  rw [facts_withFact, if_pos rfl] at h
  revert h
  rcases w.routine.facts[k]? with _ | f
  · exact fun h => absurd h (TypeSet.not_mem_void z)
  · exact TypeSet.mem_union.1

theorem record_lands {M : Nat → Prop} (hall : ∀ z ∈ w.routine.exprTypes k, M z)
    (hs : ∀ z ∈ s, M z ∨ w.state.Holds i z) :
    Yields (record k s) w fun _ w' => w.routine.Widens i w'.routine ∧
      ∀ z ∈ w'.routine.exprTypes k, M z ∨ w'.state.Holds i z := by
  by_cases hk : k < w.routine.facts.size
  · refine .of_ok (record_eq hk s) ⟨⟨rfl, TypeSet.le_refl _⟩, fun z hz => ?_⟩
    exact (mem_exprTypes_record hz).elim (fun hz => .inl (hall z hz)) (hs z)
  · show Yields (if k < w.routine.facts.size then _ else _ : Walk Unit) w _
    rw [if_neg hk]
    exact trivial

theorem store_holds (ht : t ≠ k) (hname : name ∈ r.scope.names) (s : TypeSet)
    (hw : SameVars r w) :
    Yields (((Expr.var t name).meaning c).store s) w fun _ w' =>
      ∀ z ∈ s, w'.state.Holds (r.index name) z := by
  rw [meaning]
  refine .of_eq (bind_of_ok (useVar_eq hw hname)) (.bind (.of_ok (a := ()) rfl ?_))
  have hrecord : Safe r (r.index name) k (record t s) := fun _ => keeps_record ht s
  refine .imp (hrecord.yields ?_) fun _ w' h z hz => h.2 z (State.holds_assign _ hz)
  exact hw

/-- **What an assignment gives a variable is in its slot**, except null where the assignment is a
condition that holds. -/
theorem landsIn_assign (ha : a = .assign k (.var t name) value) (he : Mentions r a)
    (hunique : TagsUnique [a]) : LandsIn r (r.index name) k N c a := by
  have hunique' := hunique.operands
  subst ha
  have hname : name ∈ r.scope.names := (he.operand (x := .var t name) (.head _)).self name rfl
  have ht : t ≠ k := Ne.symm (hunique.tag_ne (x := .var t name) (.head _) (mem_walk_self _))
  have hvalue : Apart r (r.index name) k c value := by
    refine apart (he.operand (.tail _ (.head _))) fun y hy heq => ?_
    exact hunique.tag_ne (x := value) (.tail _ (.head _)) hy heq.symm
  have htarget : Apart r (r.index name) k c (.var t name) :=
    apart (he.operand (.head _)) fun y hy => by
      rw [walk_eq] at hy
      obtain rfl := mem_singleton.1 hy
      exact ht
  -- the value is found and stored, an outcome is taken into account, then the types are recorded
  have hstep : ∀ (m : Walk Unit), (∀ z, z = 0 ∧ N ∨ Keeps r (r.index name) k (State.Holds · (r.index name) z) m) →
      Keeps r (r.index name) k (fun _ => True) m →
      Lands r (r.index name) k N (recorded k do
        let s := (← (value.meaning c).value).plain
        ((Expr.var t name).meaning c).store s
        m
        return s) := by
    intro m hm hbare M w hM hw hall
    refine .bind (hvalue.value.andThen hw fun v w1 hw1 hspares1 _ => ?_)
    have hstore := ((htarget.store (fun _ _ => harmless_true _) v.plain) w1 hw1).and
      (store_holds ht hname v.plain hw1)
    refine hstore.andThen fun _ w2 h2 => ?_
    have hw2 := h2.1.1.names.trans hw1
    have hkept : Yields m w2 fun _ w' => ∀ z, z ∈ v.plain → M z ∨ w'.state.Holds (r.index name) z := by
      refine Yields.all fun z => ?_
      rcases hm z with ⟨rfl, hN⟩ | hz
      · exact (hbare w2 hw2).imp fun _ _ _ _ => .inl (hM hN)
      · exact (hz w2 hw2).imp fun _ _ h hmem => .inr (h.2 (h2.2 z hmem))
    refine ((hbare w2 hw2).and hkept).andThen fun _ w3 h3 => ?_
    have hspares := (hspares1.trans h2.1.1).trans h3.1.1
    refine (record_lands (fun z hz => hall z (hspares.types ▸ hz)) h3.2).andThen fun _ w4 h4 => ?_
    exact ⟨hspares.toWidens.trans h4.1, h4.2⟩
  have hmeaning : ∀ target : Expr Nat, (Expr.assign k target value).meaning c =
      .ofValue (.assign k target value) (do
        let s := (← (value.meaning c).value).plain
        (target.meaning c).store s
        return s) := fun target => by
    rw [meaning]
  have hplain := hstep (pure ()) (fun z => .inr (.pure ())) (.pure ())
  simp only [pure_bind] at hplain
  refine ⟨?_, ?_, fun hN b => ?_⟩ <;> rw [hmeaning]
  · exact hplain
  · exact hplain
  · have hthis := hstep (narrowTo (.assign k (.var t name) value) b) (fun z => ?_)
      (keeps_narrowTo_all survivesNotes_true he (fun _ _ => harmless_true _) b)
    · simpa only [Meaning.ofValue, Expr.tag, bind_assoc, pure_bind] using hthis
    · by_cases hz : z = 0
      · exact .inl ⟨hz, hN rfl⟩
      · right
        cases b with
        | either | fails => exact .pure ()
        | holds =>
          refine keeps_ifVar (he.operand (.head _)) fun n hn => ?_
          exact keeps_modifyState fun s hs => hs.notNull hz _

theorem landsIn_ofPlace {step quiet : Walk TypeSet} {store : TypeSet → Walk Unit} (htag : e.tag ≠ k)
    (hnarrow : ∀ b, Safe r i k (narrowTo e b))
    (heq : e.meaning c = { Meaning.ofValue e step with quiet := recorded e.tag quiet, store })
    (hstep : Lands r i k N step) (hquiet : Lands r i k N quiet) : LandsIn r i k N c e := by
  refine ⟨?_, ?_, fun _ b => ?_⟩ <;> rw [heq]
  · exact hstep.recorded htag
  · exact hquiet.recorded htag
  · exact (hstep.safe fun s z => (hnarrow b z).bind fun _ => .pure s).recorded htag

theorem landsIn_ofCondition {step : Branch → Walk Unit} (htag : e.tag ≠ k)
    (heq : e.meaning c = .ofCondition e step) (hstep : ∀ b, Lands r i k N (step b)) :
    LandsIn r i k N c e := by
  have hthis : ∀ b, Lands r i k N (recorded e.tag do step b; return .bool) := fun b =>
    ((hstep b).safe fun _ => safe_pure _).recorded htag
  exact ⟨heq ▸ hthis .either, heq ▸ hthis .either, fun _ => heq ▸ hthis⟩

theorem safe_assume (hname : name ∈ r.scope.names) (he : Mentions r e) (hk : Avoids k e)
    (hnames : name ∉ e.names) (b : Branch) : Safe r (r.index name) k ((e.meaning c).assume b) := by
  have hclear : Clear r (r.index name) k c e :=
    clear hname he hk fun hstored => hnames (mem_names_of_stored e hstored)
  exact fun z => (hclear z).both (survivesNotes_holds _ z) (fun n hn =>
    harmless_holds (r.index_ne hname fun heq => hnames (heq ▸ hn))) b

theorem lands_store (hname : name ∈ r.scope.names) (he : Mentions r target)
    (hunique : TagsUnique [target]) (ha : a ∈ x.walk) (hmem : (x, later) ∈ target.storing)
    (hlater : name ∉ later) (h : LandsIn r (r.index name) a.tag N c x) (s : TypeSet) :
    Lands r (r.index name) a.tag N ((target.meaning c).store s) := by
  have htag := hunique.tag_ne (mem_operands_of_storing hmem) ha
  cases target with
  | item j array key =>
    obtain ⟨rfl, rfl⟩ : x = key ∧ later = array.base?.toList ++ array.stored := by
      simpa [storing] using hmem
    rw [mem_append, not_or, Option.mem_toList] at hlater
    have havoids : ∀ y ∈ [array] ++ [], Avoids a.tag y := TagsUnique.avoids hunique.operands ha
    have harray : Clear r (r.index name) a.tag c array :=
      clear hname (he.operand (.head _)) (havoids array (by simp)) hlater.2
    rw [meaning]
    refine h.value.safe fun _ z => (keeps_storeElement (harray z).quiet ((harray z).store fun n hn =>
      harmless_holds (r.index_ne hname fun heq => ?_)) s).bind fun _ => keeps_record htag s
    exact hlater.1 (heq ▸ hn)
  | field j object n =>
    obtain ⟨rfl, -⟩ : x = object ∧ later = [] := by simpa [storing] using hmem
    rw [meaning]
    exact h.value.safe fun _ z => keeps_record htag s
  | _ => cases hmem

/-- A node of `x`, number `k`, says something of variable `name`, and nothing that is evaluated in
`e` after its operand `x` stores into the variable. -/
structure Encloses (r : Routine) (name : String) (k : Nat) (N : Prop) (c : Setting)
    (e x : Expr Nat) (later : List String) : Prop where
  named : name ∈ r.scope.names
  mentions : Mentions r e
  unique : TagsUnique [e]
  mem : (x, later) ∈ e.evaluated
  after : name ∉ later
  node : ∃ a ∈ x.walk, a.tag = k
  leaf : x.varName? = none ∧ x.isNull = false
  lands : LandsIn r (r.index name) k N c x
  tests : x ∈ e.conditions → x.tag = k → N

namespace Encloses

theorem tag_ne (h : Encloses r name k N c e x later) : e.tag ≠ k := by
  obtain ⟨a, ha, rfl⟩ := h.node
  exact h.unique.tag_ne (mem_operands_of_evaluated h.mem) ha

theorem assume (h : Encloses r name k N c e x later) (hcond : x ∈ e.conditions) :
    ∀ b, Lands r (r.index name) k N ((x.meaning c).assume b) := h.lands.assume (h.tests hcond)

/-- The other operands have nothing to do with the node. -/
theorem others (h : Encloses r name k N c e x later) (before after : List (Expr Nat))
    (hsplit : e.operands = before ++ x :: after) {y : Expr Nat} (hy : y ∈ before ++ after) :
    Mentions r y ∧ Avoids k y := by
  obtain ⟨a, ha, rfl⟩ := h.node
  have hunique := h.unique.operands
  rw [hsplit] at hunique
  refine ⟨h.mentions.operand (hsplit ▸ ?_), hunique.avoids ha y hy⟩
  simp only [mem_append, mem_cons] at hy ⊢
  tauto

theorem apart (h : Encloses r name k N c e x later) (before after : List (Expr Nat))
    (hsplit : e.operands = before ++ x :: after) {y : Expr Nat} (hy : y ∈ before ++ after) :
    Apart r (r.index name) k c y :=
  Infer.apart (h.others before after hsplit hy).1 (h.others before after hsplit hy).2

theorem clear (h : Encloses r name k N c e x later) (before after : List (Expr Nat))
    (hsplit : e.operands = before ++ x :: after) {y : Expr Nat} (hy : y ∈ before ++ after)
    (hstored : name ∉ y.stored) : Clear r (r.index name) k c y :=
  Infer.clear h.named (h.others before after hsplit hy).1 (h.others before after hsplit hy).2 hstored

theorem inTurn (h : Encloses r name k N c e x later) {later' : List String}
    (hturn : (x, later') ∈ Expr.inTurn e.operands) (hafter : name ∉ later') :
    OneLands r (r.index name) k N c e.operands := by
  obtain ⟨a, ha, rfl⟩ := h.node
  exact oneLands_of_inTurn h.named (fun y hy => h.mentions.operand hy) h.unique.operands ha hturn
    hafter h.lands

theorem narrowTo (h : Encloses r name k N c e x later) (b : Branch) :
    Safe r (r.index name) k (narrowTo e b) := by
  have hnarrow : ∀ outcome, Safe r (r.index name) k (narrow e outcome) := by
    intro outcome z
    rw [narrow_eq]
    refine .forM fun p hp => keeps_learn (survivesNotes_holds _ z) ?_ fun hclue n hn => harmless_holds
      (r.index_ne h.named (var_ne_of_clues h.mem h.after h.leaf.1 h.leaf.2 hp hclue hn))
    rcases mem_clues hp with heq | hop
    · exact heq ▸ h.mentions
    · exact h.mentions.operand hop
  cases b with
  | either => exact fun _ => .pure ()
  | holds => exact hnarrow true
  | fails => exact hnarrow false

theorem ofValue {step : Walk TypeSet} (h : Encloses r name k N c e x later)
    (heq : e.meaning c = .ofValue e step) (hstep : Lands r (r.index name) k N step) :
    LandsIn r (r.index name) k N c e := landsIn_ofPlace h.tag_ne h.narrowTo heq hstep hstep

theorem store (h : Encloses r name k N c e x later) (hsplit : e.operands = [target, x])
    (hnot : name ∉ target.base?.toList ++ target.stored) (s : TypeSet) :
    Safe r (r.index name) k (do (target.meaning c).store s; return s) := by
  rw [mem_append, not_or, Option.mem_toList] at hnot
  intro z
  have htarget := h.clear [target] [] hsplit (y := target) (by simp) hnot.2 z
  refine (htarget.store (fun n hn => harmless_holds (r.index_ne h.named fun heq => ?_)) s).bind
    fun _ => .pure s
  exact hnot.1 (heq ▸ hn)

end Encloses

section Kinds

variable {j : Nat} {op : BinOp} {l m cond yes no v : Expr Nat}

theorem landsIn_update (h : Encloses r name k N c (.update j op target v) x later) :
    LandsIn r (r.index name) k N c (.update j op target v) := by
  obtain ⟨rfl, rfl⟩ : x = v ∧ later = target.base?.toList ++ target.stored := by
    simpa [evaluated] using h.mem
  refine h.ofValue (by rw [meaning]) ?_
  refine Lands.after (h.apart [target] [] rfl (by simp)).value fun old => ?_
  split
  · exact (lands_maybeValue h.lands.value).safe fun s => h.store rfl h.after _
  · exact h.lands.value.safe fun s z => keeps_getTable.bind fun _ => h.store rfl h.after _ z

theorem lands_circuit (h : Encloses r name k N c (.binary j op l m) x later)
    (hx : x = l ∧ later = m.names ∨ x = m ∧ later = [])
    (hcond : x ∈ (Expr.binary j op l m).conditions) (runs b : Branch) :
    Lands r (r.index name) k N (Meaning.shortCircuit runs (l.meaning c) (m.meaning c) b) := by
  obtain ⟨rfl, rfl⟩ | ⟨rfl, -⟩ := hx
  · have hm := h.others [] [m] rfl (y := m) (by simp)
    exact lands_shortCircuit_left (h.assume hcond) (safe_assume h.named hm.1 hm.2 h.after b)
  · exact lands_shortCircuit_right (h.apart [l] [] rfl (by simp)).bare
      (h.assume hcond b)

theorem landsIn_binary (hplain : ¬ (Expr.binary j op l m).IsPlain)
    (h : Encloses r name k N c (.binary j op l m) x later) :
    LandsIn r (r.index name) k N c (.binary j op l m) := by
  have hx := mem_operands_of_evaluated h.mem
  rcases BinOp.of_not_isPlain hplain with rfl | rfl | rfl
  · refine landsIn_ofCondition h.tag_ne (by rw [meaning]) fun b => ?_
    exact lands_circuit h (by simpa [evaluated] using h.mem) hx .holds b
  · refine landsIn_ofCondition h.tag_ne (by rw [meaning]) fun b => ?_
    exact lands_circuit h (by simpa [evaluated] using h.mem) hx .fails b
  · refine h.ofValue (by rw [meaning]) ?_
    obtain ⟨rfl, -⟩ | ⟨rfl, -⟩ : x = l ∧ later = [] ∨ x = m ∧ later = [] := by
      simpa [evaluated] using h.mem
    · have hm := (h.apart [] [m] rfl (y := m) (by simp)).value
      exact h.lands.quiet.safe fun s z => (keeps_maybeValue (tolerant_holds _ z) hm).bind fun _ =>
        .pure _
    · exact Lands.after (h.apart [l] [] rfl (by simp)).quiet fun s =>
        (lands_maybeValue h.lands.value).safe fun _ => safe_pure _

theorem landsIn_choose (h : Encloses r name k N c (.choose j cond yes no) x later) :
    LandsIn r (r.index name) k N c (.choose j cond yes no) := by
  have hafter := h.after
  refine h.ofValue (by rw [meaning]) ?_
  refine lands_choose ?_
  obtain ⟨rfl, rfl⟩ | ⟨rfl, -⟩ | ⟨rfl, -⟩ : x = cond ∧ later = yes.stored ++ no.stored ∨
      x = yes ∧ later = [] ∨ x = no ∧ later = [] := by
    simpa [evaluated] using h.mem
  · rw [mem_append, not_or] at hafter
    exact .inl ⟨h.assume (by simp [conditions]),
      fun z => (h.clear [] [yes, no] rfl (y := yes) (by simp) hafter.1 z).value,
      fun z => (h.clear [] [yes, no] rfl (y := no) (by simp) hafter.2 z).value⟩
  · exact .inr ⟨h.apart [cond] [no] rfl (by simp),
      .inl ⟨h.lands.value, (h.apart [cond] [no] rfl (y := no) (by simp)).value⟩⟩
  · exact .inr ⟨h.apart [cond, yes] [] rfl (by simp),
      .inr ⟨(h.apart [cond, yes] [] rfl (y := yes) (by simp)).value, h.lands.value⟩⟩

theorem landsIn_orElse (h : Encloses r name k N c (.orElse j cond no) x later) :
    LandsIn r (r.index name) k N c (.orElse j cond no) := by
  have hafter := h.after
  refine h.ofValue (by rw [meaning]) ?_
  refine lands_choose ?_
  obtain ⟨rfl, rfl⟩ | ⟨rfl, -⟩ : x = cond ∧ later = no.stored ∨ x = no ∧ later = [] := by
    simpa [evaluated, Expr.inTurn, operands] using h.mem
  · exact .inl ⟨h.assume (by simp [conditions]), fun _ => (keeps_recordedTypes _).bind fun _ => .pure _,
      fun z => (h.clear [] [no] rfl (y := no) (by simp) hafter z).value⟩
  · exact .inr ⟨h.apart [cond] [] rfl (by simp),
      .inr ⟨(keeps_recordedTypes _).bind fun _ => .pure _, h.lands.value⟩⟩

theorem Encloses.landsIn (h : Encloses r name k N c e x later) : LandsIn r (r.index name) k N c e := by
  have hmem := h.mem
  by_cases hplain : e.IsPlain
  · obtain ⟨later', hturn, hnot⟩ := inTurn_of_plain hplain hmem
    exact h.ofValue (meaning_plain hplain c) (h.inTurn hturn fun hlater => h.after (hnot hlater)).gather
  cases e with
  | lit | var | step => cases hmem
  | assign j target v =>
    obtain ⟨rfl, rfl⟩ : x = v ∧ later = target.base?.toList ++ target.stored := by
      simpa [evaluated] using hmem
    refine h.ofValue (by rw [meaning]) ?_
    exact h.lands.value.safe fun s => h.store rfl h.after s.plain
  | update => exact landsIn_update h
  | binary => exact landsIn_binary hplain h
  | unary j op operand =>
    obtain rfl : op = .not := not_not.1 hplain
    obtain rfl := mem_singleton.1 (mem_operands_of_evaluated hmem)
    exact landsIn_ofCondition h.tag_ne (by rw [meaning]) fun b =>
      (h.assume (by simp [conditions]) b.negate).discard
  | field =>
    have hone := h.inTurn hmem h.after
    exact landsIn_ofPlace h.tag_ne h.narrowTo (by rw [meaning, ← gather_field]; rfl)
      hone.gather hone.gather
  | append =>
    have hone := h.inTurn hmem h.after
    exact landsIn_ofPlace h.tag_ne h.narrowTo (by rw [meaning, ← gather_append]; rfl)
      hone.gather hone.gather
  | item =>
    have hone := h.inTurn hmem h.after
    exact landsIn_ofPlace h.tag_ne h.narrowTo (by rw [meaning]; rfl)
      (hone.element (.inl rfl)) (hone.element (.inr rfl))
  | choose => exact landsIn_choose h
  | orElse => exact landsIn_orElse h
  | call j f args =>
    refine h.ofValue (by rw [meaning]) ?_
    exact lands_call h.tag_ne f (fun y hy => h.mentions.operand hy) (h.inTurn hmem h.after)
  | _ => exact absurd trivial hplain

theorem landsIn_place (hname : name ∈ r.scope.names) (he : Mentions r (.assign j target v))
    (hunique : TagsUnique [.assign j target v]) (ha : a ∈ x.walk) (hmem : (x, later) ∈ target.storing)
    (hlater : name ∉ later) (h : LandsIn r (r.index name) a.tag N c x) :
    LandsIn r (r.index name) a.tag N c (.assign j target v) := by
  have htarget : target ∈ (Expr.assign j target v).operands := by simp [operands]
  have hwalk : a ∈ target.walk := mem_walk_of_operand (mem_operands_of_storing hmem) ha
  have havoids : ∀ y ∈ [] ++ [v], Avoids a.tag y := TagsUnique.avoids hunique.operands hwalk
  have hv : Apart r (r.index name) a.tag c v :=
    apart (he.operand (.tail _ (.head _))) (havoids v (by simp))
  have hstep : Lands r (r.index name) a.tag N (do
      let s := (← (v.meaning c).value).plain
      (target.meaning c).store s
      return s) := Lands.after hv.value fun s =>
    (lands_store hname (he.operand htarget) (hunique.operands.of_mem htarget) ha hmem hlater h
      s.plain).safe fun _ => safe_pure _
  refine landsIn_ofPlace (hunique.tag_ne htarget hwalk) (fun b => ?_) (by rw [meaning]; rfl)
    hstep hstep
  have hnarrow : Safe r (r.index name) a.tag (narrow (.assign j target v) true) := fun z =>
    keeps_ifVar (he.operand htarget) fun n hn => by cases target <;> cases hmem <;> cases hn
  cases b with
  | either | fails => exact fun _ => .pure ()
  | holds => exact hnarrow

end Kinds

/-- **What the last assignment to a variable gives it is in its slot** after the expression around
the assignment, except null where the assignment is a condition. -/
theorem landsIn_of_last (ha : a = .assign k (.var t name) value) (h : Last name a e) :
    name ∈ r.scope.names → Mentions r e → TagsUnique [e] →
    (∀ y ∈ e.walk, ∀ z ∈ y.conditions, z.tag = k → N) → LandsIn r (r.index name) k N c e := by
  have htag : a.tag = k := by rw [ha]; rfl
  induction h with
  | self => exact fun _ he hunique _ => landsIn_assign ha he hunique
  | @place j target v x later hmem hlater hlast ih =>
    intro hname he hunique htests
    have htarget : target ∈ (Expr.assign j target v).operands := by simp [operands]
    have hx := mem_operands_of_storing hmem
    refine htag ▸ landsIn_place hname he hunique hlast.mem_walk hmem hlater (htag ▸ ?_)
    exact ih hname ((he.operand htarget).operand hx)
      ((hunique.operands.of_mem htarget).operands.of_mem hx)
      fun y hy => htests y (mem_walk_of_operand htarget (mem_walk_of_operand hx hy))
  | @under e x later hmem hlater hlast ih =>
    intro hname he hunique htests
    have hx := mem_operands_of_evaluated hmem
    exact Encloses.landsIn
      { named := hname, mentions := he, unique := hunique, mem := hmem, after := hlater
        node := ⟨a, hlast.mem_walk, htag⟩
        leaf := (ha ▸ hlast).not_leaf
        lands := ih hname (he.operand hx) (hunique.operands.of_mem hx)
          fun y hy => htests y (mem_walk_of_operand hx hy)
        tests := htests e e.mem_walk_self x }

end Around

end Infer

end ShapeFlow
