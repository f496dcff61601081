/-
# Histories

A program comes about by declarations, changes of mind and runs of the analysis,
in any order.  All of these are moves, so every program that has a history is
sound; and a run of the analysis on a sound program does not fail, unless its
resolver makes up routines.

Key definitions: `Program.Operation`, `Program.Recorded`, `Program.History`, `Program.Stores`.
Key theorems: `Program.analyze_ends`, `Program.History.moves`,
`Program.History.analyze_succeeds`.
-/
import ShapeFlow.Proofs.Sorting
import ShapeFlow.Proofs.Specializing
import ShapeFlow.Run.Analyze

namespace ShapeFlow

open ShapeFlow.Flow List

theorem Resolver.mostSpecific_within (n : Nat) : Resolver.mostSpecific.Within n := by
  intro cands args _ hcands c hc
  have hids : ∀ {l : List Signature}, (∀ s ∈ l, s ∈ cands) →
      c ∈ Sorted.sort (l.map (·.id)) → c < n := by
    intro l hl hc
    obtain ⟨s, hs, rfl⟩ := mem_map.1 ((Sorted.perm_sort _).mem_iff.1 hc)
    exact hcands s (hl s hs)
  unfold mostSpecific at hc
  split at hc
  · cases hc
  · obtain rfl := mem_singleton.1 hc
    exact hcands _ (.head _)
  · simp only at hc
    split at hc
    next best hbest =>
      obtain rfl := mem_singleton.1 hc
      have hmem : best ∈ [best] := .head _
      rw [← hbest] at hmem
      exact hcands best (mem_of_mem_filter (mem_of_mem_filter hmem))
    next =>
      refine hids (fun s hs => ?_) hc
      split at hs
      · exact hs
      · exact mem_of_mem_filter hs

/-! ### Entering -/

theorem Routine.enter_spec {t : ShapeTable} {n : Nat} {r : Routine} (hr : r.Valid t n)
    (ht : t.Valid) :
    ∃ r', r.enter = .ok r' ∧ r.Tweak t r' ∧ (r'.input? Graph.entry).isSome = true := by
  obtain ⟨c, r', hseed, -, hflows⟩ := seed_spec hr ht
  have hentered : (r'.input? Graph.entry).isSome = true := by
    obtain ⟨s, hs, -⟩ := hflows.input
    rw [hs]
    rfl
  have hfresh : (do return (← r.seed).2 : Except Fault Routine) = .ok r' := by
    rw [hseed]
    rfl
  unfold enter
  rcases hstatus : r.status
  · exact ⟨r', hfresh, Tweak.seed hseed, hentered⟩
  · exact ⟨r, rfl, Tweak.queue (.refl r), hr.entered (.inl hstatus)⟩
  · exact ⟨r, rfl, Tweak.queue (.refl r), hr.entered (.inr hstatus)⟩
  · exact ⟨r', hfresh, Tweak.seed hseed, hentered⟩

namespace Program

variable {p p' : Program} {id : Nat} {plan : Plan} {d : RoutineDecl}

theorem enterAll_spec {t : ShapeTable} {n : Nat} (ht : t.Valid) : ∀ (rs : List Routine),
    (∀ r ∈ rs, r.Valid t n) →
    ∃ rs', rs.mapM Routine.enter = .ok rs' ∧
      List.Forall₂ (fun r r' => Routine.Tweak t r r' ∧ (r'.input? Graph.entry).isSome = true) rs rs'
  | [], _ => ⟨[], rfl, .nil⟩
  | r :: rs, hrs => by
    obtain ⟨r', hrun, htweak, hentered⟩ := Routine.enter_spec (hrs r (.head _)) ht
    obtain ⟨rs', hruns, hall⟩ := enterAll_spec ht rs
      fun x hx => hrs x (.tail _ hx)
    refine ⟨r' :: rs', ?_, .cons ⟨htweak, hentered⟩ hall⟩
    rw [mapM_cons, hrun]
    show (rs.mapM Routine.enter >>= fun x => pure (r' :: x)) = _
    rw [hruns]
    rfl

theorem each_of_forall₂ {R : Routine → Routine → Prop} {rs : List Routine}
    (h : List.Forall₂ R p.routines rs) : Each R p { p with routines := rs } where
  frame := rfl
  size := h.length_eq.symm
  routine i r r' hr hr' := by
    obtain ⟨hi, rfl⟩ := List.getElem?_eq_some_iff.1 hr
    obtain ⟨hi', rfl⟩ := List.getElem?_eq_some_iff.1 hr'
    exact (forall₂_iff_get.1 h).2 i hi hi'

theorem enter_spec (hp : p.Kept) :
    ∃ rs, p.routines.mapM Routine.enter = .ok rs ∧
      Each (Routine.Tweak p.table) p { p with routines := rs } ∧
      ({ p with routines := rs } : Program).Entered := by
  obtain ⟨rs, hrun, hall⟩ := enterAll_spec hp.table p.routines hp.routines
  refine ⟨rs, hrun, each_of_forall₂ (hall.imp fun _ _ h => h.1), fun r' hr' => ?_⟩
  obtain ⟨i, hi⟩ := getElem?_of_mem hr'
  obtain ⟨hi', rfl⟩ := List.getElem?_eq_some_iff.1 hi
  obtain ⟨hlen, hget⟩ := forall₂_iff_get.1 hall
  exact (hget i (hlen ▸ hi') hi').2

/-! ### Iterations -/

theorem attempt_eq {β : Type} {f : Program → Except Fault (β × Program)} {b : β}
    (h : f p = .ok (b, p')) : attempt f p = .ok b p' := by
  unfold attempt
  rw [get_bind, h]
  rfl

theorem each_markStable (hp : p.Kept) : Each (Routine.Tweak p.table) p p.markStable := by
  refine each_map p _ fun r hr => ?_
  have hvalid := hp.routines r hr
  split
  next hstatus =>
    rw [Bool.and_eq_true, decide_eq_true_eq] at hstatus
    exact Routine.Tweak.mark
      ⟨rfl, hvalid.candidates, hvalid.applied, fun _ hc => hc,
        fun _ => hvalid.entered (.inl hstatus.1)⟩
  next => exact Routine.Tweak.queue (.refl r)

theorem each_forwardDynamic (hp : p.Kept) : Each (Routine.Tweak p.table) p p.forwardDynamic := by
  refine each_map p _ fun r hr => ?_
  have hvalid := hp.routines r hr
  split
  · exact Routine.Tweak.mark
      ⟨rfl, hvalid.candidates, hvalid.applied, fun _ hc => hc, hvalid.entered⟩
  · exact Routine.Tweak.queue (.refl r)

theorem strategies_serve (hextra : ∀ s ∈ plan.extra, s.Serves p) :
    ∀ s ∈ plan.strategies, s.Serves p := by
  intro s hs
  rcases mem_append.1 hs with hs | hs
  · exact .inl (Strategy.builtin_robust plan.config s hs)
  · exact hextra s hs

theorem iteration_ends (hp : p.Kept) (hentered : p.Entered) (hextra : ∀ s ∈ plan.extra, s.Serves p) :
    Ends (Fails p) (iteration plan) p fun x p' => Continues p p' ∧ (x.2 = true → p'.Quiet) := by
  unfold iteration
  refine (settle_ends hp hentered).andThen fun _ p1 h1 => ?_
  obtain ⟨⟨hcont1, -, -⟩, -⟩ := h1
  have hkept1 := hcont1.kept hp
  have hcont2 := hcont1.trans (Continues.tweak hkept1 hcont1.entered (each_markStable hkept1))
  have hkept2 := hcont2.kept hp
  obtain ⟨n, p3, hrun, hcont⟩ := specialize_spec hkept2 hcont2.entered plan.config
    fun s hs => ((strategies_serve hextra s hs).continues hcont2).soundOn hkept2
  have hcont3 := hcont2.trans hcont
  have hkept3 := hcont3.kept hp
  have hcont4 := hcont3.trans
    (Continues.tweak hkept3 hcont3.entered (each_forwardDynamic hkept3))
  refine .of_ok (a := (p1.markStable.asked plan, n == 0 && !p3.forwardDynamic.isPending))
    (u := p3.forwardDynamic) ?_ ⟨hcont4, fun h => ?_⟩
  · rw [bind_of_ok (show (modify markStable : Run Unit) p1 = .ok () p1.markStable from rfl),
      get_bind,
      bind_of_ok (attempt_eq hrun)]
    rfl
  · rw [Bool.and_eq_true, Bool.not_eq_true'] at h
    exact quiet_iff.2 h.2

theorem iterate_ends {plan : Plan} : ∀ {left done seen : Nat} {p : Program}, p.Kept → p.Entered →
    (∀ s ∈ plan.extra, s.Serves p) →
    Ends (Fails p) (iterate plan done seen left) p fun o p' =>
      Continues p p' ∧ (o.isConverged = true → p'.Quiet)
  | 0, done, seen, p, hp, hentered, _ => by
    unfold iterate
    split
    · exact .of_ok rfl ⟨.refl hentered, fun h => by cases h⟩
    · refine .of_ok rfl ⟨?_, fun h => by cases h⟩
      exact .of_acts (Adjust.relabel _ _).acts (Nat.le_refl _) rfl hentered
  | left + 1, done, seen, p, hp, hentered, hextra => by
    unfold iterate
    split
    · exact .of_ok rfl ⟨.refl hentered, fun h => by cases h⟩
    · refine (iteration_ends hp hentered hextra).andThen fun x p1 h1 => ?_
      obtain ⟨hcont, hquiet⟩ := h1
      obtain ⟨asked, finished⟩ := x
      simp only
      split
      next hfinished => exact .of_ok rfl ⟨hcont, fun _ => hquiet hfinished⟩
      next =>
        refine (iterate_ends (hcont.kept hp) hcont.entered fun s hs =>
          (hextra s hs).continues hcont).mono (fun o p2 h2 => ⟨hcont.trans h2.1, h2.2⟩)
            fun _ _ h => hcont.fails h

/-- The program with the routines entered that are to be. -/
def entering (p : Program) (rs : List Routine) : Program :=
  { p with diagnostics := [], outcome := none, routines := rs }

theorem analyze_enters (hp : p.Kept) :
    ∃ rs, p.routines.mapM Routine.enter = .ok rs ∧ Continues p (p.entering rs) ∧
      rs.length = p.size ∧ ∀ plan, p.analyze plan = (do
      let outcome ← iterate plan 0 0 plan.config.maxIterations
      if outcome.isConverged then modify diagnose
      modify fun p => { p with outcome := some outcome }
      return outcome : Run Outcome) (p.entering rs) := by
  obtain ⟨rs, hrun, heach, hentered⟩ :=
    enter_spec (p := { p with diagnostics := [], outcome := none }) ((Adjust.relabel _ _).kept hp)
  have henter : attempt (fun p => return ((), { p with routines := ← p.routines.mapM Routine.enter }))
      ({ p with diagnostics := [], outcome := none } : Program) = .ok () (p.entering rs) :=
    attempt_eq (by simp only [hrun]; rfl)
  refine ⟨rs, hrun, .of_acts ((Adjust.relabel [] none).acts.trans (Adjust.tweak heach).acts)
    heach.size.ge rfl hentered, heach.size, fun plan => ?_⟩
  unfold analyze
  rw [bind_of_ok (show (modify fun p => { p with diagnostics := [], outcome := none } : Run Unit) p =
    .ok () _ from rfl), bind_of_ok henter]

/-- **A run of the analysis** fails only if the resolver goes astray or the program has seen
another failure.  A run that converges leaves nothing pending. -/
theorem analyze_ends (hp : p.Kept) (hextra : ∀ s ∈ plan.extra, s.Serves p) :
    Ends (Fails p) (analyze plan) p fun o p' =>
      Continues p p' ∧ (o.isConverged = true → p'.Quiet) := by
  obtain ⟨rs, -, hcont1, -, heq⟩ := analyze_enters hp
  refine .of_eq (heq plan) ?_
  refine .bind ((iterate_ends (hcont1.kept hp) hcont1.entered fun s hs =>
    (hextra s hs).continues hcont1).mono (fun o p2 h2 => ?_) fun _ _ h => hcont1.fails h)
  obtain ⟨hcont, hquiet⟩ := h2
  have hlast : ∀ diagnostics, Continues p { p2 with diagnostics, outcome := some o } :=
    fun diagnostics => hcont1.trans (hcont.trans
      (.of_acts (Adjust.relabel diagnostics (some o)).acts (Nat.le_refl _) rfl hcont.entered))
  rcases hconverged : o.isConverged
  · exact .of_ok rfl ⟨hlast _, fun h => by rw [hconverged] at h; cases h⟩
  · exact .of_ok rfl ⟨hlast _, fun _ => hquiet hconverged⟩

theorem serves_of_sound (hp : p.Sound) (hextra : ∀ s ∈ plan.extra, s.Sound) :
    ∀ s ∈ plan.extra, s.Serves p := fun s hs => .inr ⟨hextra s hs, hp⟩

theorem analyze_ok (hp : p.Sound) (hextra : ∀ s ∈ plan.extra, s.Sound) {o : Outcome}
    (h : p.analyze plan = .ok o p') : Continues p p' ∧ (o.isConverged = true → p'.Quiet) :=
  (analyze_ends hp.toKept (serves_of_sound hp hextra)).ok h

/-! ### Histories -/

/-- What is done to a program. -/
inductive Action where
  | declare
  | resolve
  | invalidate (id : Nat)
  | requeue (id : Nat)
  | analyze
  | fail

/-- One operation on a program.  Runs of the analysis follow plans in `P`; they may fail.  A
declaration that cannot be taken, and a change of a routine that does not exist, leave the program
as it is and are no operations. -/
inductive Operation (P : Plan → Prop) : Action → Program → Program → Prop
  | addRoutine {p p' : Program} {d : RoutineDecl} {id : Nat} : p.addRoutine d = .ok (id, p') →
    Operation P .declare p p'
  | declareClass {p : Program} (name : String) (members : List String) :
    Operation P .declare p (p.declareClass name members)
  | setResolver {p : Program} (resolver : Resolver) : Operation P .resolve p { p with resolver }
  | invalidate {p p' : Program} {id : Nat} : p.invalidate id = .ok p' →
    Operation P (.invalidate id) p p'
  | requeue {p p' : Program} {id : Nat} : p.requeue id = .ok p' → Operation P (.requeue id) p p'
  | analyze {p p' : Program} {plan : Plan} {o : Outcome} : P plan → p.analyze plan = .ok o p' →
    Operation P .analyze p p'
  | fail {p p' : Program} {plan : Plan} {f : Fault} : P plan → p.analyze plan = .error f p' →
    Operation P .fail p p'

/-- Operations of the kinds in `E`, one after the other. -/
abbrev Operations (P : Plan → Prop) (E : Action → Prop) : Program → Program → Prop :=
  Relation.ReflTransGen fun p p' => ∃ e, E e ∧ Operation P e p p'

/-- Operations of any kind. -/
abbrev Lives (P : Plan → Prop) : Program → Program → Prop := Operations P fun _ => True

/-- Operations of the kinds in `E` from the beginning, with a record that `note` keeps of them. -/
inductive Recorded {σ : Type} (P : Plan → Prop) (E : Action → Prop)
    (note : Action → Program → Program → σ → σ) (start : σ) : Program → σ → Prop
  | empty : Recorded P E note start .empty start
  | next {p p' : Program} {s : σ} {e : Action} : Recorded P E note start p s → E e →
    Operation P e p p' → Recorded P E note start p' (note e p p' s)

/-- A program as it comes about, while no run fails. -/
abbrev History (p : Program) : Prop :=
  Operations (fun plan => ∀ s ∈ plan.extra, s.Sound) (· ≠ .fail) .empty p

theorem addRoutine_cases (h : p.addRoutine d = .ok (id, p')) :
    ∃ r table, Routine.ofDecl p.size d p.table = .ok (r, table) ∧ id = p.size ∧
      p' = { push { p with table } r with outcome := none } := by
  unfold addRoutine at h
  simp only at h
  obtain ⟨⟨r, table⟩, hdecl, h⟩ := ok_of_except h
  cases h
  exact ⟨r, table, hdecl, rfl, rfl⟩

theorem addRoutine_acts (hp : p.Kept) (h : p.addRoutine d = .ok (id, p')) :
    Acts (.of p) (.of p') := by
  obtain ⟨r, table, hdecl, -, rfl⟩ := addRoutine_cases h
  obtain ⟨ht, hext, hfresh⟩ := Routine.ofDecl_spec hp.table hdecl
  have hpush : Adjust { p with table } (push { p with table } r) :=
    Adjust.push hfresh (.inl (Routine.ofDecl_derived hdecl))
  exact (Adjust.extend hext ht).acts.trans
    (hpush.acts.trans (Adjust.relabel p.diagnostics none).acts)

theorem check_ok (h : p.check id = .ok ()) : ∃ r, p.routines[id]? = some r := by
  unfold check at h
  split at h
  next hlt => exact ⟨_, getElem?_eq_getElem hlt⟩
  next => cases h

/-- An invalidated routine is forgotten; then its callers are queued. -/
theorem invalidate_eq (h : p.invalidate id = .ok p') :
    ∃ r, p.routines[id]? = some r ∧
      p' = { (p.put id (p.forgotten id r)).requeueCallers id with outcome := none } := by
  unfold invalidate at h
  obtain ⟨⟨⟩, hcheck, h⟩ := ok_of_except h
  obtain ⟨r, hr⟩ := check_ok hcheck
  obtain rfl := Except.ok.inj h
  have hupdate : (p.update id fun r =>
      let r := { r.forget with status := .invalidated }
      { r with observed :=
          (p.calls.into id).foldl (fun seen e => Routine.observe seen e.argTypes) r.observed }) =
      p.put id (p.forgotten id r) := update_eq_put hr _
  exact ⟨r, hr, by rw [hupdate]⟩

theorem invalidate_cases (h : p.invalidate id = .ok p') :
    ∃ r, p.routines[id]? = some r ∧ Acts (.of (p.put id (p.forgotten id r))) (.of p') := by
  obtain ⟨r, hr, rfl⟩ := invalidate_eq h
  obtain ⟨hq, -⟩ := requeueCallers_spec (p.put id (p.forgotten id r)) id
  exact ⟨r, hr, (Adjust.tweak (hq.mono fun _ _ _ _ => Routine.Tweak.queue)).acts.trans
    (Adjust.relabel _ none).acts⟩

theorem invalidate_moves (h : p.invalidate id = .ok p') : Moves (.of p) (.of p') := by
  obtain ⟨r, hr, hacts⟩ := invalidate_cases h
  exact (Change.forget hr).moves.trans hacts.moves

theorem requeue_cases (h : p.requeue id = .ok p') :
    ∃ r, p.routines[id]? = some r ∧
      p' = { p.put id { r with pending := r.pending.insertAll r.reached } with outcome := none } := by
  unfold requeue at h
  obtain ⟨⟨⟩, hcheck, h⟩ := ok_of_except h
  obtain ⟨r, hr⟩ := check_ok hcheck
  obtain rfl := Except.ok.inj h
  exact ⟨r, hr, by rw [update_eq_put hr]⟩

theorem requeue_acts (h : p.requeue id = .ok p') : Acts (.of p) (.of p') := by
  obtain ⟨r, hr, rfl⟩ := requeue_cases h
  exact (Adjust.tweak (each_tweak_put hr (Routine.Tweak.queue (Routine.queues_reached r)))).acts.trans
    (Adjust.relabel _ none).acts

/-- **Every history is a sequence of moves.** -/
theorem History.moves (h : History p) : Moves (.of .empty) (.of p) := by
  induction h with
  | refl => exact .refl
  | tail _ hop ih =>
    obtain ⟨_, hkind, hop⟩ := hop
    have hsound := (ih.sound (Mid.sound_of sound_empty)).program
    refine ih.trans ?_
    cases hop with
    | addRoutine hadd => exact (addRoutine_acts hsound.toKept hadd).moves
    | declareClass name members => exact (Change.declare name members).moves
    | setResolver resolver => exact (Change.resolve resolver).moves
    | invalidate hrun => exact invalidate_moves hrun
    | requeue hrun => exact (requeue_acts hrun).moves
    | analyze hextra hrun => exact (analyze_ok hsound hextra hrun).1.moves hsound
    | fail => exact absurd rfl hkind

theorem History.analyze (h : History p) (hextra : ∀ s ∈ plan.extra, s.Sound) {o : Outcome}
    (hrun : p.analyze plan = .ok o p') : p'.History := 
  h.tail ⟨.analyze, nofun, .analyze hextra hrun⟩

theorem History.sound (h : History p) : p.Sound :=
  (h.moves.sound (Mid.sound_of sound_empty)).program

/-! ### No internal failure -/

/-- A set of types that the program has recorded. -/
inductive Stores (p : Program) : TypeSet → Prop
  | expr {r : Routine} (k : Nat) : r ∈ p.routines → Stores p (r.exprTypes k)
  | var {r : Routine} {v : Variable} : r ∈ p.routines → v ∈ r.scope.vars → Stores p v.types
  | returns {r : Routine} : r ∈ p.routines → Stores p r.scope.returns
  | slot {r : Routine} {b : Nat} {s : State} (i : Nat) : r ∈ p.routines → r.input? b = some s →
    Stores p (s.get i)
  | param {r : Routine} {q : Param} : r ∈ p.routines → q ∈ r.params → Stores p q.declared
  | observed {r : Routine} {s : TypeSet} : r ∈ p.routines → s ∈ r.observed → Stores p s
  | candidate {r : Routine} {c : Tuple} {s : TypeSet} : r ∈ p.routines → c ∈ r.candidates → s ∈ c →
    Stores p s
  | arg {e : CallEdge} {a : TypeSet} : e ∈ p.calls.edges → a ∈ e.argTypes → Stores p a

theorem Kept.knows (hp : p.Kept) {s : TypeSet} (h : p.Stores s) : p.table.Knows s := by
  cases h with
  | @expr r k hr =>
    unfold Routine.exprTypes
    rcases hf : r.facts[k]? with _ | f
    · exact ShapeTable.knows_void
    · exact ((hp.routines r hr).facts k f hf).types
  | var hr hv => exact ((hp.routines _ hr).vars _ hv).1
  | returns hr => exact (hp.routines _ hr).returns
  | slot i hr hs => exact ((hp.routines _ hr).known _ _ hs).get i
  | param hr hq => exact ((hp.routines _ hr).params _ hq).2.1
  | observed hr hs => exact (hp.routines _ hr).observed _ hs
  | candidate hr hc hs => exact (hp.routines _ hr).candidates _ hc _ hs
  | arg he ha => exact (hp.edges _ he).args _ ha

/-- **No internal failure.**  Whatever has happened to a program, a run of the analysis, with
any configuration and any cancellation, gives an outcome, as long as the resolver picks
routines that exist.  Afterwards nothing is unknown or out of range, and every recorded set
of types can be displayed. -/
theorem History.analyze_succeeds (h : p.History)
    (hresolver : ∀ n, p.size ≤ n → p.resolver.Within n) (plan : Plan)
    (hextra : ∀ s ∈ plan.extra, s.Sound) :
    ∃ o p', p.analyze plan = .ok o p' ∧ p'.Sound ∧
      ∀ s, p'.Stores s → (p'.table.display s).isSome = true := by
  have hends := analyze_ends h.sound.toKept (serves_of_sound h.sound hextra)
  rcases hrun : p.analyze plan with ⟨o, p'⟩ | ⟨f, p'⟩
  · have hsound := (hends.ok hrun).1.sound h.sound
    exact ⟨o, p', rfl, hsound, fun s hs => ShapeTable.display_isSome hsound.table (hsound.knows hs)⟩
  · unfold Ends at hends
    rw [hrun] at hends
    obtain ⟨n, hn, hnot⟩ := hends.astray h.sound
    exact absurd (hresolver n hn) hnot

/-- `fact(n)` calls itself, once `n` is no longer below a bound, and is called by `main`. -/
def recursive : List RoutineDecl :=
  [{ name := "fact"
     params := [{ name := "n" }]
     exported := false
     body := [.branch (.binary () .lt (.var () "n") (.lit () .int))
       [.ret (some (.lit () .int))]
       [.ret (some (.binary () .mul (.var () "n")
         (.call () "fact" [.binary () .sub (.var () "n") (.lit () .int)])))]] },
   { name := "main"
     body := [.eval (.assign () (.var () "x") (.call () "fact" [.lit () .int])),
       .ret (some (.var () "x"))] }]

/-- The call in the second routine has been given a clone. -/
def redirected (p : Program) : Bool :=
  p.routines[1]?.any fun r => r.target? 2 == some (.resolved 2)

/-- Adds a routine if its declaration can be taken. -/
def withDecl (p : Program) (d : RoutineDecl) : Program :=
  match p.addRoutine d with
  | .ok (_, p') => p'
  | .error _ => p

/-- The program made of some declarations. -/
def ofDecls (ds : List RoutineDecl) : Program := ds.foldl withDecl empty

theorem ofDecls_induct {P : Program → Prop} (hempty : P empty)
    (hadd : ∀ p d id p', P p → p.addRoutine d = .ok (id, p') → P p') (ds : List RoutineDecl) :
    P (ofDecls ds) := by
  refine foldlRecOn ds withDecl hempty fun p h d _ => ?_
  unfold withDecl
  rcases hrun : p.addRoutine d with f | ⟨id, p'⟩
  · exact h
  · exact hadd p d id p' h hrun

/-- A declaration that is taken is an operation; one that is refused changes nothing. -/
theorem operations_ofDecls {P : Plan → Prop} {E : Action → Prop} (hE : E .declare)
    (ds : List RoutineDecl) : Operations P E .empty (ofDecls ds) :=
  ofDecls_induct .refl (fun _ _ _ _ h hadd => h.tail ⟨_, hE, .addRoutine hadd⟩) ds

theorem history_ofDecls (ds : List RoutineDecl) : (ofDecls ds).History := operations_ofDecls nofun ds

theorem exists_converged (p : Program) (plan : Plan) (good : Program → Bool)
    (h : (match p.analyze plan with
      | .ok o p' => o.isConverged && good p'
      | .error _ _ => false) = true) :
    ∃ n p', p.analyze plan = .ok (.converged n) p' ∧ good p' = true := by
  rcases hrun : p.analyze plan with ⟨o, p'⟩ | ⟨f, p'⟩
  · rw [hrun, Bool.and_eq_true] at h
    cases o with
    | converged n => exact ⟨n, p', rfl, h.2⟩
    | cancelled | budgetExceeded => cases h.1
  · rw [hrun] at h
    cases h

/-- Some declarations, with a resolver that picks a routine that does not exist. -/
def misled (ds : List RoutineDecl) : Program :=
  { ofDecls ds with resolver := fun _ _ => .resolved 99 }

/-- What a run leaves of them. -/
def astray (ds : List RoutineDecl) : Program :=
  match (misled ds).analyze {} with
  | .ok _ p => p
  | .error _ p => p

def goesAstray (ds : List RoutineDecl) : Bool :=
  match (misled ds).analyze {} with
  | .ok _ _ => false
  | .error _ _ => true

theorem analyze_misled (ds : List RoutineDecl) (h : goesAstray ds = true) :
    ∃ f, (misled ds).analyze {} = .error f (astray ds) := by
  unfold goesAstray at h
  unfold astray
  rcases hrun : (misled ds).analyze {} with ⟨o, p'⟩ | ⟨f, p'⟩
  · rw [hrun] at h
    cases h
  · exact ⟨f, rfl⟩


theorem analyze_recursive_succeeds : (ofDecls recursive).size = 2 ∧ (ofDecls recursive).History ∧
    (∀ n, 2 ≤ n → (ofDecls recursive).resolver.Within n) ∧
    ∃ o p', (ofDecls recursive).analyze {} = .ok o p' ∧ p'.Sound ∧
      ∀ s, p'.Stores s → (p'.table.display s).isSome = true := by
  have hresolver : (ofDecls recursive).resolver = Resolver.mostSpecific := by rfl
  refine ⟨by decide +kernel, history_ofDecls recursive,
    fun n _ => hresolver ▸ Resolver.mostSpecific_within n, ?_⟩
  exact (history_ofDecls recursive).analyze_succeeds
    (fun n _ => hresolver ▸ Resolver.mostSpecific_within n) {} (by simp)

end Program

end ShapeFlow
