/-
# What an operation does to a program

A run of the analysis changes a routine in few ways only: blocks of it are queued, arguments of
a call are seen, it is entered, drained, found stable or marked.  Beside that, strategies may
change the table; what they propose is noted; and now and then a routine is cloned for a tuple
that was not used before.  So a run, whether it ends well or fails, takes a program on in paces,
and these are strides, in most of which routines only gain.  This needs no more of the program
than that its routines are numbered as they stand, and nothing of the strategies.

Key definitions: `Program.Gains`, `Routine.Touch`, `Program.Tends`, `Program.Stride`,
`Program.Pace`, `Program.Deed`.
Key theorems: `Program.settle_tends`, `Program.iteration_paces`, `Program.analyze_paces`,
`Program.analyze_strides`.
-/
import ShapeFlow.Proofs.Histories
import ShapeFlow.Proofs.Steps

namespace ShapeFlow

open ShapeFlow.Flow Infer
open List hiding set

variable {c : Config} {r : Routine}

/-- As far as its origin and its clones go, the routine may be cloned. -/
def Routine.Cloneable (c : Config) (r : Routine) : Prop :=
  (r.origin = none ∨ c.incremental = true) ∧ r.applied.length < c.maxClones

theorem Routine.cloneable_of_eligible (h : r.eligible c = true) : r.Cloneable c := by
  unfold eligible at h
  simp only [Bool.and_eq_true, Bool.or_eq_true, Option.isNone_iff_eq_none, decide_eq_true_eq] at h
  exact ⟨h.1.1.2, h.2⟩

theorem Routine.Cloneable.gains {r' : Routine} (h : r.Cloneable c) (hr : r.Gains r') :
    r'.Cloneable c := by
  have horigin : r'.origin = r.origin := by rw [hr.text]
  unfold Cloneable
  rw [horigin, hr.applied]
  exact h

/-! ### What happens to a routine -/

namespace Routine

variable {r r' : Routine}

/-- One thing that happens to a routine in a run. -/
inductive Touch : Routine → Routine → Prop
  | queue {r r' : Routine} : r.Piles r' → Touch r r'
  | observe {r : Routine} (args : Tuple) : Touch r (Program.observing r args)
  | enter {r r' : Routine} {changed : Bool} : r.seed = .ok (changed, r') → Touch r r'
  /-- Its pending blocks are gone through, as far as this succeeds. -/
  | drain {r r' : Routine} : r.isPending = true → Improves { r with status := .analyzing } r' →
    Touch r r'
  | rest {r : Routine} : r.status = .analyzing → r.isPending = false →
    Touch r { r with status := .stable }
  | mark {r : Routine} : Touch r { r with flags := r.flags ∪ { callsDynamic := true } }

/-- What happens to a routine, one thing after the other. -/
abbrev Touches : Routine → Routine → Prop := Relation.ReflTransGen Touch

theorem Touches.keep {P : Routine → Prop} (hP : ∀ {r r' : Routine}, Touch r r' → P r → P r')
    (h : Touches r r') (hr : P r) : P r' := by
  induction h with
  | refl => exact hr
  | tail _ htouch ih => exact hP htouch ih

theorem Touch.gains (h : Touch r r') : r.Gains r' := by
  cases h with
  | queue h =>
    rw [h.frame]
    exact gains_marks r r.status r.sites _ r.flags
  | observe args => exact gains_observe r args
  | enter h => exact gains_seed h
  | drain _ h => exact (gains_marks r _ r.sites r.pending r.flags).trans h.toGains
  | rest => exact gains_marks r .stable r.sites r.pending r.flags
  | mark => exact gains_marks r r.status r.sites r.pending _

theorem Touches.gains (h : Touches r r') : r.Gains r' :=
  h.keep (fun htouch hgains => hgains.trans htouch.gains) (.refl r)

end Routine

namespace Program

variable {p p' p'' q : Program} {i : Nat} {r r' : Routine} {R : Routine → Routine → Prop} {β : Type}
  {tuple : Tuple}

/-! ### Programs that gain -/

/-- Shapes, calls and what is known of the routines are only added to; no routine is added
or cloned. -/
structure Gains (p p' : Program) : Prop where
  table : p.table.Extends p'.table
  calls : ∀ i : Nat, Climbs p.calls.edges[i]? p'.calls.edges[i]?
  routines : List.Forall₂ Routine.Gains p.routines p'.routines

theorem calls_climb_refl (p : Program) (i : Nat) : Climbs p.calls.edges[i]? p.calls.edges[i]? :=
  .refl CallEdge.le_refl _

theorem Gains.trans (h : p.Gains p') (h' : p'.Gains p'') : p.Gains p'' :=
  ⟨h.table.trans h'.table,
    fun i => (h.calls i).trans (fun _ _ _ => CallEdge.le_trans) (h'.calls i),
    forall₂_trans (R := Routine.Gains) (fun _ _ _ => .trans) h.routines h'.routines⟩

theorem gains_rest (p : Program) (directory : Directory) (resolver : Resolver)
    (diagnostics : List Diagnostic) (outcome : Option Outcome) :
    p.Gains { p with directory, resolver, diagnostics, outcome } :=
  ⟨.refl _, calls_climb_refl p, forall₂_same.2 fun r _ => .refl r⟩

/-- Things happen to routines.  None is added, names mean what they did, and nothing is said. -/
structure Tends (p p' : Program) : Prop where
  table : p.table.Extends p'.table
  calls : ∀ i : Nat, Climbs p.calls.edges[i]? p'.calls.edges[i]?
  directory : p'.directory = p.directory
  outcome : p'.outcome = p.outcome
  diagnostics : p'.diagnostics = p.diagnostics
  routines : List.Forall₂ Routine.Touches p.routines p'.routines

theorem Tends.gains (h : p.Tends p') : p.Gains p' :=
  ⟨h.table, h.calls, h.routines.imp fun _ _ => Routine.Touches.gains⟩

theorem Tends.refl (p : Program) : p.Tends p :=
  ⟨.refl _, calls_climb_refl p, rfl, rfl, rfl, forall₂_same.2 fun _ _ => .refl⟩

theorem Tends.trans (h : p.Tends p') (h' : p'.Tends p'') : p.Tends p'' where
  table := h.table.trans h'.table
  calls i := (h.calls i).trans (fun _ _ _ => CallEdge.le_trans) (h'.calls i)
  directory := h'.directory.trans h.directory
  outcome := h'.outcome.trans h.outcome
  diagnostics := h'.diagnostics.trans h.diagnostics
  routines := forall₂_trans (R := Routine.Touches) (fun _ _ _ => .trans) h.routines h'.routines

theorem tends_each (h : Each R p p') (hR : ∀ r r', R r r' → r.Touches r') : p.Tends p' := by
  refine ⟨?_, ?_, ?_, ?_, ?_, h.forall₂.imp hR⟩ <;> rw [h.frame]
  · exact .refl _
  · exact calls_climb_refl p

theorem tends_put (hr : p.routines[i]? = some r) (h : r.Touches r') : p.Tends (p.put i r') :=
  tends_each (each_put (fun _ => .refl) hr h) fun _ _ h => h

theorem Tends.keep {P : Routine → Prop} (hP : ∀ {r r' : Routine}, Routine.Touch r r' → P r → P r')
    (h : p.Tends p') (hp : ∀ r ∈ p.routines, P r) : ∀ r ∈ p'.routines, P r := by
  intro r' hr'
  obtain ⟨i, hi, rfl⟩ := mem_iff_getElem.1 hr'
  obtain ⟨hlen, hall⟩ := forall₂_iff_get.1 h.routines
  exact (hall i (hlen ▸ hi) hi).keep hP (hp _ (getElem_mem _))

/-! ### Rounds -/

theorem drainOne_touch (p : Program) (sigs : List Signature) (table : ShapeTable) (calls : CallGraph)
    (r : Routine) : ∃ r', (p.drainOne sigs table calls r).routines = [r'] ∧
      (r.isPending = true → r.Touch r') ∧ table.Extends (p.drainOne sigs table calls r).table ∧
      ∀ i : Nat, Climbs calls.edges[i]? (p.drainOne sigs table calls r).calls.edges[i]? := by
  obtain ⟨w, hw⟩ : ∃ w, w = ({ p with table, calls } : Program).walker r := ⟨_, rfl⟩
  have hends := (made_drain (p.setting sigs) r.stepBound).gains w
  have heq : p.drainOne sigs table calls r =
      Drained.ofResult (drain (p.setting sigs) r.stepBound w) := hw ▸ rfl
  unfold Ends at hends
  rw [heq]
  rcases hrun : drain (p.setting sigs) r.stepBound w with ⟨_, w'⟩ | ⟨f, w'⟩ <;> rw [hrun] at hends
  all_goals
    subst hw
    exact ⟨w'.routine, rfl, fun hr => .drain hr hends.routine.toImproves, hends.table, hends.calls⟩

theorem drainAll_touches (p : Program) (sigs : List Signature) : ∀ (rs : List Routine)
    (table : ShapeTable) (calls : CallGraph),
    List.Forall₂ Routine.Touches rs (p.drainAll sigs rs table calls).routines ∧
      table.Extends (p.drainAll sigs rs table calls).table ∧
      ∀ i : Nat, Climbs calls.edges[i]? (p.drainAll sigs rs table calls).calls.edges[i]?
  | [], table, calls => ⟨.nil, .refl _, fun _ => .refl CallEdge.le_refl _⟩
  | r :: rs, table, calls => by
    rw [drainAll]
    split
    next hpending =>
      obtain ⟨r', hr', htouch, htable, hcalls⟩ := p.drainOne_touch sigs table calls r
      obtain ⟨hrest, htable', hcalls'⟩ := drainAll_touches p sigs rs
        (p.drainOne sigs table calls r).table (p.drainOne sigs table calls r).calls
      refine ⟨?_, htable.trans htable',
        fun i => (hcalls i).trans (fun _ _ _ => CallEdge.le_trans) (hcalls' i)⟩
      simp only [hr']
      exact .cons (.single (htouch hpending)) hrest
    next =>
      obtain ⟨hrest, htable, hcalls⟩ := drainAll_touches p sigs rs table calls
      exact ⟨.cons .refl hrest, htable, hcalls⟩

/-- The step tends the program, whether it fails or not. -/
abbrev OnlyTends {β : Type} (m : Run β) (p : Program) : Prop :=
  Ends (fun _ p' => p.Tends p') m p fun _ p' => p.Tends p'

theorem OnlyTends.bind {γ : Type} {m : Run β} {f : β → Run γ} (h : OnlyTends m p)
    (hf : ∀ b p', OnlyTends (f b) p') : OnlyTends (m >>= f) p :=
  h.andThen fun b p1 h1 => (hf b p1).mono (fun _ _ h2 => h1.trans h2)
    fun _ _ h2 => h1.trans h2

theorem report_tends (callee : Nat) (args : Tuple) (p : Program) :
    OnlyTends (report callee args) p := by
  unfold OnlyTends Ends
  rcases hr : p.routines[callee]? with _ | r
  · unfold report
    rw [get_bind, hr]
    exact .refl p
  · have hobserve : r.Touches (observing r args) := .single (.observe args)
    rw [report_eq hr]
    split_ifs
    · exact .refl p
    · exact tends_put hr hobserve
    · rcases hseed : (observing r args).seed with f | ⟨c, r'⟩
      · exact tends_put hr hobserve
      · exact tends_put hr (hobserve.tail (.enter hseed))

theorem reports_tends : ∀ (reports : List (Nat × Tuple)) (p : Program),
    OnlyTends (reports.forM fun (callee, args) => report callee args) p
  | [], p => .refl p
  | (callee, args) :: reports, p => (report_tends callee args p).bind fun _ => reports_tends reports

theorem round_tends (p : Program) : OnlyTends round p := by
  obtain ⟨d, hd⟩ : ∃ d, d = p.drainAll p.signatures p.routines p.table p.calls := ⟨_, rfl⟩
  have hdrained : p.Tends { p with routines := d.routines, table := d.table, calls := d.calls } := by
    obtain ⟨hroutines, htable, hcalls⟩ := p.drainAll_touches p.signatures p.routines p.table p.calls
    exact hd ▸ ⟨htable, hcalls, rfl, rfl, rfl, hroutines⟩
  unfold OnlyTends round
  refine .of_eq (bind_of_ok (show (get : Run Program) p = .ok p p from rfl)) ?_
  rw [← hd]
  refine .of_eq (bind_of_ok (show (set { p with
    routines := d.routines, table := d.table, calls := d.calls } : Run PUnit) p = .ok ⟨⟩ _ from rfl)) ?_
  rcases d.reports with f | reports
  · exact hdrained
  · refine .bind ((reports_tends reports _).mono (fun _ p1 h1 => ?_) fun _ _ h => hdrained.trans h)
    exact hdrained.trans (h1.trans
      (tends_each (notify_piles p.signatures p1) fun _ _ h => .single (.queue h)))

theorem rounds_tends : ∀ (bound : Nat) (p : Program),
    Ends (fun _ p' => p.Tends p') (rounds bound) p fun _ p' => p.Tends p' ∧ p'.isPending = false
  | 0, p => by
    unfold rounds
    refine .of_eq (bind_of_ok (show (get : Run Program) p = .ok p p from rfl)) ?_
    split
    next => exact Tends.refl p
    next hidle => exact ⟨.refl p, Bool.eq_false_iff.2 hidle⟩
  | bound + 1, p => by
    unfold rounds
    refine .of_eq (bind_of_ok (show (get : Run Program) p = .ok p p from rfl)) ?_
    split
    next =>
      exact (round_tends p).andThen fun _ p1 h1 => (rounds_tends bound p1).mono
        (fun _ _ h2 => ⟨h1.trans h2.1, h2.2⟩) fun _ _ h2 => h1.trans h2
    next hidle => exact ⟨.refl p, Bool.eq_false_iff.2 hidle⟩

/-- **Rounds only touch routines**, and when they are over nothing is pending. -/
theorem settle_tends (p : Program) :
    Ends (fun _ p' => p.Tends p') settle p fun _ p' => p.Tends p' ∧ p'.Quiet :=
  (rounds_tends p.roundBound p).imp fun _ _ h => ⟨h.1, quiet_iff.2 h.2⟩

theorem tends_markStable (p : Program) : p.Tends p.markStable := by
  refine tends_each (each_map (R := Routine.Touches) p _ fun r _ => ?_) fun _ _ h => h
  split
  next h =>
    rw [Bool.and_eq_true, decide_eq_true_eq, Bool.not_eq_true'] at h
    exact .single (.rest h.1 h.2)
  next => exact .refl

theorem tends_forwardDynamic (p : Program) : p.Tends p.forwardDynamic := by
  refine tends_each (each_map (R := Routine.Touches) p _ fun r _ => ?_) fun _ _ h => h
  split
  · exact .single .mark
  · exact .refl

theorem tends_requeueCallers (p : Program) (id : Nat) : p.Tends (p.requeueCallers id) :=
  tends_each (requeueCallers_spec p id).1 fun _ _ h => .single (.queue h.toPiles)

/-! ### Strides -/

/-- The routines are numbered as they stand. -/
def Numbered (p : Program) : Prop := ∀ (i : Nat) (r : Routine), p.routines[i]? = some r → r.id = i

/-- One thing that a run does to a program. -/
inductive Stride (plan : Plan) : Program → Program → Prop
  | gain {p p' : Program} : p.Gains p' → Stride plan p p'
  /-- A strategy has been asked about a routine. -/
  | consult {p : Program} {s : Strategy} (q : Program) (r : Routine) : s ∈ plan.strategies →
    Stride plan p { p with table := ((s q r).run p.table).2 }
  | propose {p : Program} {i : Nat} {r : Routine} (set : List Tuple) : p.routines[i]? = some r →
    Stride plan p (p.put i { r with candidates := set })
  | clone {p : Program} {i : Nat} {r : Routine} {tuple : Tuple} : p.routines[i]? = some r →
    r.Cloneable plan.config → accepts r.paramTypes tuple = true → tuple ∉ r.applied →
    Stride plan p ((p.put i { r with applied := r.applied ++ [tuple] }).push (r.clone p.size tuple))

/-- Strides one after the other. -/
abbrev Strides (plan : Plan) : Program → Program → Prop := Relation.ReflTransGen (Stride plan)

variable {plan : Plan}

theorem Gains.strides (h : p.Gains p') : Strides plan p p' := .single (.gain h)

theorem numbered_push (hp : p.Numbered) (hr : r.id = p.size) : (p.push r).Numbered := by
  intro j s hs
  rcases getElem?_push hs with hs | ⟨rfl, rfl⟩
  · exact hp j s hs
  · exact hr

theorem numbered_put (hp : p.Numbered) (hr : p.routines[i]? = some r) (hid : r'.id = r.id) :
    (p.put i r').Numbered := by
  intro j s hs
  rcases of_put hr hs with ⟨rfl, rfl⟩ | ⟨-, hs⟩
  · exact hid.trans (hp i r hr)
  · exact hp j s hs

theorem Gains.numbered (h : p.Gains p') (hp : p.Numbered) : p'.Numbered := by
  intro i r' hr'
  obtain ⟨hi', rfl⟩ := List.getElem?_eq_some_iff.1 hr'
  obtain ⟨hlen, hall⟩ := forall₂_iff_get.1 h.routines
  have hgains := hall i (hlen ▸ hi') hi'
  exact hgains.id_eq.trans (hp i _ (getElem?_eq_getElem (hlen ▸ hi')))

theorem Stride.numbered (h : Stride plan p p') (hp : p.Numbered) : p'.Numbered := by
  cases h with
  | gain h => exact h.numbered hp
  | consult => exact hp
  | propose set hr => exact numbered_put hp hr rfl
  | @clone i r tuple hr =>
    have hput : (p.put i (noting r tuple)).Numbered := numbered_put hp hr rfl
    refine numbered_push hput ?_
    rw [size_put]
    rfl

theorem Strides.numbered (h : Strides plan p p') (hp : p.Numbered) : p'.Numbered := by
  induction h with
  | refl => exact hp
  | tail _ hstride ih => exact hstride.numbered ih

/-- One thing that a run does to a program.  A clone is entered as it is made. -/
inductive Pace (plan : Plan) : Program → Program → Prop
  | tend {p p' : Program} : p.Tends p' → Pace plan p p'
  | say {p : Program} (diagnostics : List Diagnostic) : Pace plan p { p with diagnostics }
  | consult {p : Program} {s : Strategy} (q : Program) (r : Routine) : s ∈ plan.strategies →
    Pace plan p { p with table := ((s q r).run p.table).2 }
  | propose {p : Program} {i : Nat} {r : Routine} (set : List Tuple) : p.routines[i]? = some r →
    Pace plan p (p.put i { r with candidates := set })
  | clone {p : Program} {i : Nat} {r clone : Routine} {tuple : Tuple} {changed : Bool} :
    p.routines[i]? = some r → r.Cloneable plan.config → accepts r.paramTypes tuple = true →
    tuple ∉ r.applied → (r.clone p.size tuple).seed = .ok (changed, clone) →
    Pace plan p ((p.put i { r with applied := r.applied ++ [tuple] }).push clone)

/-- Paces one after the other. -/
abbrev Paces (plan : Plan) : Program → Program → Prop := Relation.ReflTransGen (Pace plan)

theorem Tends.paces (h : p.Tends p') : Paces plan p p' := .single (.tend h)

/-- Entering a clone after it was added is adding it once it is entered. -/
theorem push_seed {clone : Routine} {changed : Bool}
    (hseed : (r.clone p.size tuple).seed = .ok (changed, clone)) (r' : Routine) :
    ((p.put i r').push (r.clone p.size tuple)).put p.size clone = (p.put i r').push clone := by
  have hput := push_put (p := p.put i r') (show clone.name = (r.clone p.size tuple).name by
    rw [(Routine.gains_seed hseed).text])
  rwa [size_put] at hput

theorem Pace.strides (h : Pace plan p p') : Strides plan p p' := by
  cases h with
  | tend h => exact h.gains.strides
  | say => exact (gains_rest p _ _ _ _).strides
  | consult q r hs => exact .single (.consult q r hs)
  | propose set hr => exact .single (.propose set hr)
  | clone hr hcloneable haccepts hnew hseed =>
    rw [← push_seed hseed]
    refine .tail (.single (.clone hr hcloneable haccepts hnew)) (.gain (Tends.gains ?_))
    exact tends_put (getElem?_clone ..) (.single (.enter hseed))

theorem Paces.strides (h : Paces plan p p') : Strides plan p p' := by
  induction h with
  | refl => exact .refl
  | tail _ hpace ih => exact ih.trans hpace.strides

theorem Paces.numbered (h : Paces plan p p') (hp : p.Numbered) : p'.Numbered := h.strides.numbered hp

/-! ### Cloning -/

theorem proposeAll_paces (q : Program) (r : Routine) : ∀ {strategies : List Strategy}
    {set set' : Candidates} {t t' : ShapeTable}, (∀ s ∈ strategies, s ∈ plan.strategies) →
    strategies.foldlM (q.propose r) (set, t) = .ok (set', t') →
    ∀ p : Program, Paces plan { p with table := t } { p with table := t' }
  | [], _, _, _, _, _, h, p => by
    cases h
    exact .refl
  | s :: strategies, set, set', t, t', hs, h, p => by
    rw [foldlM_cons] at h
    obtain ⟨⟨set1, t1⟩, hone, h⟩ := ok_of_except h
    have ht1 : t1 = ((s q r).run t).2 := by
      unfold propose at hone
      split at hone <;> cases hone
      rfl
    have hfirst : Paces plan { p with table := t } { p with table := t1 } :=
      ht1 ▸ .single (.consult q r (hs s (.head _)))
    exact hfirst.trans (proposeAll_paces q r (fun x hx => hs x (.tail _ hx)) h p)

theorem gather_paces {set : List Tuple} {t t' : ShapeTable}
    (h : q.gather plan.strategies r t = .ok (set, t')) (p : Program) :
    Paces plan { p with table := t } { p with table := t' } := by
  rw [gather_eq] at h
  obtain ⟨⟨c, t1⟩, hall, h⟩ := ok_of_except h
  cases h
  exact proposeAll_paces q r (fun _ hs => hs) hall p

theorem gatherAll_paces : ∀ {rs : List Routine} {sets : List (Nat × List Tuple)}
    {t t' : ShapeTable}, q.gatherAll plan.strategies rs t = .ok (sets, t') →
    sets.map (·.1) = rs.map (·.id) ∧
      ∀ p : Program, Paces plan { p with table := t } { p with table := t' }
  | [], _, _, _, h => by
    cases h
    exact ⟨rfl, fun _ => .refl⟩
  | r :: rs, sets, t, t', h => by
    unfold gatherAll at h
    obtain ⟨⟨set, t1⟩, hone, h⟩ := ok_of_except h
    obtain ⟨⟨sets1, t2⟩, hrest, h⟩ := ok_of_except h
    cases h
    obtain ⟨hids, hpaces⟩ := gatherAll_paces hrest
    exact ⟨by simp [hids], fun p => (gather_paces hone p).trans (hpaces p)⟩

/-- There is a routine that may be cloned. -/
def MayClone (c : Config) (p : Program) (i : Nat) : Prop :=
  ∃ r, p.routines[i]? = some r ∧ r.Cloneable c

theorem MayClone.gains (h : p.MayClone c i) (hp : p.Gains p') : p'.MayClone c i := by
  obtain ⟨r, hr, hcloneable⟩ := h
  obtain ⟨hi, rfl⟩ := List.getElem?_eq_some_iff.1 hr
  obtain ⟨hlen, hall⟩ := forall₂_iff_get.1 hp.routines
  have hgains := hall i hi (hlen ▸ hi)
  exact ⟨_, getElem?_eq_getElem (hlen ▸ hi), hcloneable.gains hgains⟩

/-- How many clones there are. -/
def cloneCount (p : Program) : Nat := p.routines.countP (·.origin.isSome)

theorem countP_forall₂ {f : Routine → Bool} (hf : ∀ r r', R r r' → f r' = f r) {l k : List Routine}
    (h : List.Forall₂ R l k) : k.countP f = l.countP f := by
  induction h with
  | nil => rfl
  | cons hr _ ih => rw [countP_cons, countP_cons, ih, hf _ _ hr]

theorem countP_put {l : List Routine} (f : Routine → Bool) (r' : Routine) (h : l[i]? = some r) :
    (l.set i r').countP f + (f r).toNat = l.countP f + (f r').toNat := by
  obtain ⟨hi, rfl⟩ := List.getElem?_eq_some_iff.1 h
  have hpos : f l[i] = true → 0 < l.countP f := fun h => countP_pos_iff.2 ⟨_, getElem_mem hi, h⟩
  rw [countP_set hi]
  rcases hf : f l[i] <;> rcases f r' <;> simp <;> grind

theorem countP_concat (f : Routine → Bool) (l : List Routine) (r : Routine) :
    (l ++ [r]).countP f = l.countP f + (f r).toNat := by
  rw [countP_append, countP_singleton]
  rcases f r <;> rfl

theorem cloneCount_gains (h : p.Gains p') : p'.cloneCount = p.cloneCount :=
  countP_forall₂ (fun _ _ hr => by rw [hr.text]) h.routines

theorem cloneCount_put (hr : p.routines[i]? = some r) (horigin : r'.origin = r.origin) :
    (p.put i r').cloneCount = p.cloneCount := by
  have hset := countP_put (·.origin.isSome) r' hr
  rw [horigin] at hset
  exact Nat.add_right_cancel hset

theorem cloneCount_push (p : Program) (r : Routine) :
    (p.push r).cloneCount = p.cloneCount + r.origin.isSome.toNat := countP_concat _ _ _

/-- The routines are as far analysed as they were, with the same blocks pending. -/
def SameDue (p p' : Program) : Prop :=
  ∀ r' ∈ p'.routines, ∃ r ∈ p.routines, r'.status = r.status ∧ r'.pending = r.pending

theorem SameDue.trans (h : p.SameDue p') (h' : p'.SameDue p'') : p.SameDue p'' := by
  intro r'' hr''
  obtain ⟨r', hr', hstatus', hpending'⟩ := h' r'' hr''
  obtain ⟨r, hr, hstatus, hpending⟩ := h r' hr'
  exact ⟨r, hr, hstatus'.trans hstatus, hpending'.trans hpending⟩

theorem SameDue.quiet (h : p.SameDue p') (hp : p.Quiet) : p'.Quiet := by
  intro r' hr'
  obtain ⟨r, hr, -, hpending⟩ := h r' hr'
  rw [hpending]
  exact hp r hr

theorem sameDue_propose (hr : p.routines[i]? = some r) (set : List Tuple) :
    p.SameDue (p.put i { r with candidates := set }) := fun s hs => by
  rcases mem_or_eq_of_mem_set hs with hs | rfl
  · exact ⟨s, hs, rfl, rfl⟩
  · exact ⟨r, mem_of_getElem? hr, rfl, rfl⟩

theorem sameDue_forwardDynamic (p : Program) : p.SameDue p.forwardDynamic := fun s hs => by
  obtain ⟨r, hr, rfl⟩ := mem_map.1 hs
  exact ⟨r, hr, by split <;> rfl, by split <;> rfl⟩

theorem applyClone_paces (hp : p.Numbered) (hr : p.routines[i]? = some r)
    (hcloneable : r.Cloneable plan.config) (hchoice : r.choice? = some tuple)
    (h : p.applyClone r tuple = .ok p') :
    Paces plan p p' ∧ p'.cloneCount = p.cloneCount + 1 ∧
      ∀ j, i ≠ j → p.MayClone plan.config j → p'.MayClone plan.config j := by
  have hfound := find?_some hchoice
  rw [Bool.and_eq_true, Bool.not_eq_true', contains_eq_mem, decide_eq_false_iff_not] at hfound
  rw [applyClone_run (hp i r hr) hr] at h
  rcases hseed : (r.clone p.size tuple).seed with f | ⟨changed, clone⟩ <;> rw [hseed] at h <;> cases h
  simp only [push_seed hseed]
  have hgains := (tends_requeueCallers
    ((p.put i (noting r tuple)).push clone) i).gains
  refine ⟨.tail (.single (.clone hr hcloneable hfound.1 hfound.2 hseed))
    (.tend (tends_requeueCallers _ _)), ?_, fun j hne hopen => ?_⟩
  · rw [cloneCount_gains hgains, cloneCount_push, (Routine.gains_seed hseed).text]
    exact congrArg (· + 1) (cloneCount_put hr rfl)
  · obtain ⟨s, hs, hs'⟩ := hopen
    have hs1 : (p.put i (noting r tuple)).routines[j]? = some s := by
      rw [routines_put hr, if_neg hne, hs]
    exact MayClone.gains ⟨s, (getElem?_append_left (lt_of_getElem? hs1)).trans hs1, hs'⟩ hgains

theorem applyAll_paces : ∀ {sets : List (Nat × List Tuple)} {p p' : Program} {n : Nat},
    p.Numbered → (sets.map (·.1)).Nodup → (∀ x ∈ sets, p.MayClone plan.config x.1) →
    applyAll sets p = .ok (n, p') →
    Paces plan p p' ∧ p'.cloneCount = p.cloneCount + n ∧ (n = 0 → p.SameDue p')
  | [], p, p', n, _, _, _, h => by
    cases h
    exact ⟨.refl, rfl, fun _ r hr => ⟨r, hr, rfl, rfl⟩⟩
  | (i, set) :: sets, p, p', n, hp, hnodup, hopen, h => by
    obtain ⟨hi, hnodup⟩ := nodup_cons.1 hnodup
    obtain ⟨r, hr, hcloneable⟩ := hopen (i, set) (.head _)
    have hne : ∀ x ∈ sets, i ≠ x.1 := fun x hx heq => hi (mem_map.2 ⟨x, hx, heq.symm⟩)
    have hpropose : Pace plan p (p.put i { r with candidates := set }) := .propose set hr
    have hcount := cloneCount_put hr (show ({ r with candidates := set } : Routine).origin = _ from rfl)
    have hidles := sameDue_propose hr set
    have hget : (p.put i { r with candidates := set }).routines[i]? = some { r with candidates := set } := by
      rw [routines_put hr, if_pos rfl]
    have hopen1 : ∀ x ∈ sets, (p.put i { r with candidates := set }).MayClone plan.config x.1 := by
      intro x hx
      obtain ⟨s, hs, hs'⟩ := hopen x (.tail _ hx)
      exact ⟨s, by rw [routines_put hr, if_neg (hne x hx), hs], hs'⟩
    unfold applyAll at h
    rw [update_eq_put hr] at h
    generalize p.put i { r with candidates := set } = p1 at *
    have hnumbered := hpropose.strides.numbered hp
    simp only [hget, Option.bind_eq_bind, Option.bind_some] at h
    rcases hchoice : ({ r with candidates := set } : Routine).choice? with _ | tuple <;> rw [hchoice] at h
    · obtain ⟨hpaces, hcount', hidles'⟩ := applyAll_paces hnumbered hnodup hopen1 h
      exact ⟨.head hpropose hpaces, by omega, fun hn => hidles.trans (hidles' hn)⟩
    · obtain ⟨p2, hclone, h⟩ := ok_of_except h
      obtain ⟨⟨k, p3⟩, hrest, h⟩ := ok_of_except h
      cases h
      obtain ⟨hfirst, hone, hkept⟩ := applyClone_paces hnumbered hget hcloneable hchoice hclone
      obtain ⟨hpaces, hcount', -⟩ := applyAll_paces (hfirst.numbered hnumbered) hnodup
        (fun x hx => hkept _ (hne x hx) (hopen1 x hx)) hrest
      refine ⟨.head hpropose (hfirst.trans hpaces), ?_, fun hn => absurd hn k.succ_ne_zero⟩
      show p3.cloneCount = p.cloneCount + (k + 1)
      omega

theorem Numbered.nodup (hp : p.Numbered) : (p.routines.map (·.id)).Nodup := by
  have hids : p.routines.map (·.id) = range p.size := by
    refine ext_getElem (by simp [size]) fun i hi hi' => ?_
    rw [length_map] at hi
    rw [getElem_map, getElem_range]
    exact hp i _ (getElem?_eq_getElem hi)
  exact hids ▸ nodup_range

theorem Numbered.get (hp : p.Numbered) (hr : r ∈ p.routines) : p.routines[r.id]? = some r := by
  obtain ⟨i, hi⟩ := getElem?_of_mem hr
  rw [hp i r hi, hi]

theorem specialize_paces (hp : p.Numbered) {n : Nat}
    (h : p.specialize plan.config plan.strategies = .ok (n, p')) :
    Paces plan p p' ∧ p'.cloneCount = p.cloneCount + n ∧ (n = 0 → p.SameDue p') := by
  unfold specialize at h
  split at h
  · cases h
    exact ⟨.refl, rfl, fun _ r hr => ⟨r, hr, rfl, rfl⟩⟩
  obtain ⟨⟨sets, table⟩, hall, h⟩ := ok_of_except h
  obtain ⟨hids, hpaces⟩ := gatherAll_paces hall
  have hnodup : (sets.map (·.1)).Nodup :=
    hids ▸ hp.nodup.sublist (filter_sublist.map _)
  have hopen : ∀ x ∈ sets, ({ p with table } : Program).MayClone plan.config x.1 := by
    intro x hx
    have hmem : x.1 ∈ (p.eligible plan.config).map (·.id) := hids ▸ mem_map_of_mem hx
    obtain ⟨r, hr, hid⟩ := mem_map.1 hmem
    obtain ⟨hr, heligible⟩ := mem_filter.1 hr
    exact ⟨r, hid ▸ hp.get hr, Routine.cloneable_of_eligible heligible⟩
  obtain ⟨happly, hcount, hidles⟩ := applyAll_paces (p := { p with table }) hp hnodup hopen h
  exact ⟨(hpaces p).trans happly, hcount, hidles⟩

/-! ### Runs -/

theorem quiet_map (hp : p.Quiet) {f : Routine → Routine} (hf : ∀ r, (f r).pending = r.pending) :
    ({ p with routines := p.routines.map f } : Program).Quiet := by
  intro r hr
  obtain ⟨s, hs, rfl⟩ := mem_map.1 hr
  rw [hf]
  exact hp s hs

theorem attempt_cases {f : Program → Except Fault (β × Program)} {Q : β → Program → Prop}
    {E : Fault → Program → Prop} (hok : ∀ b p', f p = .ok (b, p') → Q b p')
    (herror : ∀ e, f p = .error e → E e p) : Ends E (attempt f) p Q := by
  unfold attempt
  refine .of_eq (bind_of_ok (show (get : Run Program) p = .ok p p from rfl)) ?_
  rcases hf : f p with e | ⟨b, p'⟩
  · exact herror e hf
  · exact hok b p' hf

theorem enterOne_cases (h : r.enter = .ok r') :
    (∃ changed, r.seed = .ok (changed, r')) ∨
      r' = r ∧ (r.status = .analyzing ∨ r.status = .stable) := by
  have hseeded : (do return (← r.seed).2 : Except Fault Routine) = .ok r' →
      ∃ changed, r.seed = .ok (changed, r') := by
    intro h
    obtain ⟨⟨changed, r1⟩, hseed, h⟩ := ok_of_except h
    cases h
    exact ⟨changed, hseed⟩
  unfold Routine.enter at h
  rcases hstatus : r.status <;> rw [hstatus] at h
  · exact .inl (hseeded h)
  · cases h
    exact .inr ⟨rfl, .inl rfl⟩
  · cases h
    exact .inr ⟨rfl, .inr rfl⟩
  · exact .inl (hseeded h)

theorem enterAll_enter : ∀ {rs rs' : List Routine}, rs.mapM Routine.enter = .ok rs' →
    List.Forall₂ (fun r r' => r.enter = .ok r') rs rs'
  | [], _, h => by
    cases h
    exact .nil
  | r :: rs, rs', h => by
    rw [mapM_cons] at h
    obtain ⟨r1, hone, h⟩ := ok_of_except h
    obtain ⟨rs1, hrest, h⟩ := ok_of_except h
    cases h
    exact .cons hone (enterAll_enter hrest)

theorem tends_enter {rs : List Routine} (h : p.routines.mapM Routine.enter = .ok rs) :
    p.Tends { p with routines := rs } := by
  refine ⟨.refl _, calls_climb_refl p, rfl, rfl, rfl, (enterAll_enter h).imp fun r r' hone => ?_⟩
  rcases enterOne_cases hone with ⟨changed, hseed⟩ | ⟨rfl, -⟩
  · exact .single (.enter hseed)
  · exact .refl

/-- The step takes paces, whether it fails or not. -/
abbrev OnlyPaces {β : Type} (plan : Plan) (m : Run β) (p : Program) (Q : β → Program → Prop) : Prop :=
  Ends (fun _ p' => Paces plan p p') m p fun b p' => Paces plan p p' ∧ Q b p'

/-- After rounds came to an end in `p`, nothing else was queued. -/
def EndsWith (p p' : Program) : Prop := p.Quiet ∧ p.markStable.SameDue p'

/-- **One iteration** takes paces.  If it leaves anything to do, it has made a clone. -/
theorem iteration_paces (hp : p.Numbered) :
    OnlyPaces plan (iteration plan) p fun x p' => (x.2 = false → p.cloneCount < p'.cloneCount) ∧
      (x.2 = true → ∃ p1, Paces plan p p1 ∧ p1.EndsWith p') := by
  unfold OnlyPaces iteration
  refine .bind ((settle_tends p).mono (fun _ p1 h1 => ?_) fun _ _ h => h.paces)
  obtain ⟨htends1, hquiet1⟩ := h1
  obtain ⟨p2, hp2⟩ : ∃ p2, p2 = p1.markStable := ⟨_, rfl⟩
  have htends2 : p.Tends p2 := hp2 ▸ htends1.trans (tends_markStable p1)
  have hquiet2 : p2.Quiet := hp2 ▸ quiet_map hquiet1 fun r => by split <;> rfl
  refine .of_eq (bind_of_ok (show (modify markStable : Run Unit) p1 = .ok () p2 from
    hp2 ▸ rfl)) ?_
  refine .of_eq (bind_of_ok (show (get : Run Program) p2 = .ok p2 p2 from rfl)) ?_
  refine .bind (attempt_cases (fun n p3 h => ?_) fun _ _ => htends2.paces)
  obtain ⟨hpaces, hcount, hidles⟩ := specialize_paces (htends2.gains.numbered hp) h
  have hlast := tends_forwardDynamic p3
  have hidle : n = 0 → p2.SameDue p3.forwardDynamic := fun hn =>
    (hidles hn).trans (sameDue_forwardDynamic p3)
  refine .of_ok (a := (p2.asked plan, n == 0 && !p3.forwardDynamic.isPending)) rfl
    ⟨(htends2.paces.trans hpaces).trans hlast.paces, fun hmore => ?_, fun hdone => ?_⟩
  · have hn : n ≠ 0 := by
      rintro rfl
      simp only [quiet_iff.1 ((hidle rfl).quiet hquiet2)] at hmore
      cases hmore
    calc p.cloneCount = p2.cloneCount := (cloneCount_gains htends2.gains).symm
      _ < p2.cloneCount + n := Nat.lt_add_of_pos_right (Nat.pos_of_ne_zero hn)
      _ = p3.forwardDynamic.cloneCount := by rw [cloneCount_gains hlast.gains, hcount]
  · rw [Bool.and_eq_true, beq_iff_eq] at hdone
    exact ⟨p1, htends1.paces, hquiet1, hp2 ▸ hidle hdone.1⟩

theorem iterate_paces : ∀ {left done seen : Nat} {p : Program}, p.Numbered →
    OnlyPaces plan (iterate plan done seen left) p fun o p' => ((∀ n, plan.cancelled n = false) →
      o.isConverged = true ∨ p.cloneCount + left ≤ p'.cloneCount) ∧
      (o.isConverged = true → ∃ p1, Paces plan p p1 ∧ p1.EndsWith p')
  | 0, done, seen, p, hp => by
    unfold OnlyPaces iterate
    split
    next hcancelled =>
      exact ⟨.refl, fun h => absurd hcancelled (by rw [h]; exact Bool.false_ne_true), fun h => by cases h⟩
    next => exact ⟨.single (.say _), fun _ => .inr (Nat.le_refl _), fun h => by cases h⟩
  | left + 1, done, seen, p, hp => by
    unfold OnlyPaces iterate
    split
    next hcancelled =>
      exact ⟨.refl, fun h => absurd hcancelled (by rw [h]; exact Bool.false_ne_true), fun h => by cases h⟩
    next =>
      refine (iteration_paces hp).andThen fun x p1 h1 => ?_
      obtain ⟨asked, finished⟩ := x
      obtain ⟨hfirst, hclone, hends⟩ := h1
      rcases finished with _ | _
      · refine (iterate_paces (hfirst.numbered hp)).mono (fun o p2 h2 => ?_) fun _ _ h => hfirst.trans h
        refine ⟨hfirst.trans h2.1, fun hgo => (h2.2.1 hgo).imp id fun hle => ?_, fun ho => ?_⟩
        · have hlt : p.cloneCount < p1.cloneCount := hclone rfl
          omega
        · obtain ⟨p3, hpaces, hlast⟩ := h2.2.2 ho
          exact ⟨p3, hfirst.trans hpaces, hlast⟩
      · exact ⟨hfirst, fun _ => .inl rfl, fun _ => hends rfl⟩

/-- Nothing is said about a run that is under way. -/
def cleared (p : Program) : Program := { p with diagnostics := [], outcome := none }

theorem Paces.outcome (h : Paces plan p p') : p'.outcome = p.outcome := by
  induction h with
  | refl => rfl
  | tail _ hpace ih =>
    cases hpace with
    | tend h => exact h.outcome.trans ih
    | say | consult | propose | clone => exact ih

/-- **A run of the analysis** takes paces, once its routines are entered.  If it is not cancelled
and does not converge, it makes a clone in each of its iterations.  One that fails leaves nothing
said about it. -/
theorem analyze_paces (hp : p.Numbered) :
    Ends (fun _ p' => Paces plan p.cleared p') (analyze plan) p fun o p' =>
      Paces plan p.cleared { p' with outcome := none } ∧ p'.outcome = some o ∧
      ((∀ n, plan.cancelled n = false) →
        o.isConverged = true ∨ p.cloneCount + plan.config.maxIterations ≤ p'.cloneCount) ∧
      (o.isConverged = true → ∃ rs p1, p.routines.mapM Routine.enter = .ok rs ∧
        Paces plan { p.cleared with routines := rs } p1 ∧ p1.EndsWith p') := by
  unfold analyze
  refine .of_eq (bind_of_ok (show (modify fun p => { p with diagnostics := [], outcome := none } :
    Run Unit) p = .ok () p.cleared from rfl)) ?_
  refine .bind (attempt_cases (fun _ p0 h => ?_) fun _ _ => .refl)
  obtain ⟨rs, hrun, h⟩ := ok_of_except h
  cases h
  have henter := tends_enter (p := p.cleared) hrun
  refine .bind ((iterate_paces (henter.gains.numbered hp)).mono (fun o p2 h2 => ?_)
    fun _ _ h => henter.paces.trans h)
  obtain ⟨hpaces, hclones, hends⟩ := h2
  rw [cloneCount_gains henter.gains] at hclones
  have hall : Paces plan p.cleared p2 := henter.paces.trans hpaces
  have hlast : ∀ diagnostics, Paces plan p.cleared { p2 with diagnostics, outcome := none } := by
    intro diagnostics
    rw [show (none : Option Outcome) = p2.outcome from hall.outcome.symm]
    exact hall.tail (.say diagnostics)
  have hends : o.isConverged = true → ∃ rs p1, p.routines.mapM Routine.enter = .ok rs ∧
      Paces plan { p.cleared with routines := rs } p1 ∧ p1.EndsWith p2 := fun ho => by
    obtain ⟨p1, hpaces, hlast⟩ := hends ho
    exact ⟨rs, p1, hrun, hpaces, hlast⟩
  rcases o.isConverged
  · exact .of_ok rfl ⟨hlast _, rfl, hclones, hends⟩
  · exact .of_ok rfl ⟨hlast _, rfl, hclones, hends⟩

/-- **A run of the analysis** takes strides. -/
theorem analyze_strides (hp : p.Numbered) :
    Ends (fun _ p' => Strides plan p p') (analyze plan) p fun o p' => Strides plan p p' ∧
      ((∀ n, plan.cancelled n = false) →
        o.isConverged = true ∨ p.cloneCount + plan.config.maxIterations ≤ p'.cloneCount) := by
  have hstart : Strides plan p p.cleared := (gains_rest p _ _ _ _).strides
  refine (analyze_paces hp).mono (fun o p' h => ?_) fun _ _ h => hstart.trans h.strides
  obtain ⟨hpaces, -, hclones, -⟩ := h
  exact ⟨hstart.trans (hpaces.strides.trans
    (gains_rest { p' with outcome := none } _ _ _ p'.outcome).strides), hclones⟩

end Program

theorem Routine.ofDecl_eq {id : Nat} {d : RoutineDecl} {t t' : ShapeTable}
    (h : Routine.ofDecl id d t = .ok (r, t')) : ∃ params graph,
      r = fresh id d.name params graph d.exported ∧
        (d.params.mapM ParamDecl.param).run t = (params, t') := by
  unfold Routine.ofDecl at h
  obtain ⟨graph, -, h⟩ := ok_of_except h
  cases h
  exact ⟨_, graph, rfl, rfl⟩

namespace Program

variable {p p' : Program} {plan : Plan}

/-- What operations are made of. -/
inductive Deed (P : Plan → Prop) : Program → Program → Prop
  | stride {p p' : Program} {plan : Plan} : P plan → Stride plan p p' → Deed P p p'
  | gain {p p' : Program} : p.Gains p' → Deed P p p'
  | declare {p : Program} {d : RoutineDecl} {r : Routine} {table : ShapeTable} :
    Routine.ofDecl p.size d p.table = .ok (r, table) → Deed P p (push { p with table } r)
  | forget {p : Program} {i : Nat} {r : Routine} : p.routines[i]? = some r →
    Deed P p (p.put i (p.forgotten i r))

abbrev Deeds (P : Plan → Prop) : Program → Program → Prop := Relation.ReflTransGen (Deed P)

variable {P : Plan → Prop} {id : Nat}

theorem Strides.deeds (h : Strides plan p p') (hP : P plan) : Deeds P p p' :=
  .mono (fun _ _ hs => Deed.stride hP hs) _ _ h

theorem invalidate_gains (h : p.invalidate id = .ok p') :
    ∃ r, p.routines[id]? = some r ∧ (p.put id (p.forgotten id r)).Gains p' := by
  obtain ⟨r, hr, rfl⟩ := invalidate_eq h
  exact ⟨r, hr, (tends_requeueCallers _ id).gains.trans (gains_rest _ _ _ _ _)⟩

theorem requeue_gains (h : p.requeue id = .ok p') : p.Gains p' := by
  obtain ⟨r, hr, rfl⟩ := requeue_cases h
  have hqueue := tends_put hr (.single (.queue (Routine.queues_reached r).toPiles))
  exact hqueue.gains.trans (gains_rest _ _ _ _ _)

theorem Operation.deeds {e : Action} (h : Operation P e p p') (hp : p.Numbered) :
    Deeds P p p' := by
  cases h with
  | addRoutine h =>
    obtain ⟨r, table, hdecl, -, rfl⟩ := addRoutine_cases h
    exact .tail (.single (.declare hdecl)) (.gain (gains_rest _ _ _ _ _))
  | declareClass | setResolver => exact .single (.gain (gains_rest p _ _ _ _))
  | invalidate h =>
    obtain ⟨r, hr, hgains⟩ := invalidate_gains h
    exact .tail (.single (.forget hr)) (.gain hgains)
  | requeue h => exact .single (.gain (requeue_gains h))
  | @analyze _ _ plan _ hP h => exact ((analyze_strides hp).ok h).1.deeds hP
  | @fail _ _ plan _ hP h => exact ((analyze_strides hp).error h).deeds hP

theorem Deed.numbered (h : Deed P p p') (hp : p.Numbered) : p'.Numbered := by
  cases h with
  | stride _ h => exact h.numbered hp
  | gain h => exact h.numbered hp
  | declare h =>
    obtain ⟨params, graph, rfl, -⟩ := Routine.ofDecl_eq h
    exact numbered_push hp rfl
  | forget hr => exact numbered_put hp hr rfl

theorem Deeds.numbered (h : Deeds P p p') (hp : p.Numbered) : p'.Numbered := by
  induction h with
  | refl => exact hp
  | tail _ hdeed ih => exact hdeed.numbered ih

/-- **What has been done to a program** by operations are deeds. -/
theorem Lives.deeds (h : Lives P p p') (hp : p.Numbered) : Deeds P p p' := by
  induction h with
  | refl => exact .refl
  | tail _ hop ih =>
    obtain ⟨_, -, hop⟩ := hop
    exact ih.trans (hop.deeds (ih.numbered hp))

theorem numbered_empty : Program.empty.Numbered := fun _ _ hr => by cases hr

theorem Lives.numbered (h : Lives P .empty p) : p.Numbered :=
  (h.deeds numbered_empty).numbered numbered_empty

theorem numbered_ofDecls (ds : List RoutineDecl) : (ofDecls ds).Numbered :=
  Lives.numbered (P := fun _ => True) (operations_ofDecls trivial ds)

end Program
end ShapeFlow
