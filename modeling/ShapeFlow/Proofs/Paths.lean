/-
# Initialization along paths

A path through the graph of a routine initializes variables block by block and
edge by edge.  The analysis never looks at a path: it joins states where edges
meet, until nothing changes.  All the same it is exact.  Since each variable is
treated by itself, what is lost by joining before an edge is lost by joining
after it too; so an input says that a variable is initialized on some path, or
on every path, just if that is so.

Key definitions: `Graph.Path`, `Path.effect`, `Routine.Traced`.
Key theorems: `Routine.Evolves.traced`, `Program.History.initialization_exact`.
-/
import ShapeFlow.Proofs.Evolution
import ShapeFlow.Proofs.Histories
import ShapeFlow.Proofs.Tracking

namespace ShapeFlow

open ShapeFlow.Flow Infer List

/-! ### The order of what is initialized -/

namespace Flow.Inits

/-- `b` allows for whatever `a` says: more variables may have a value, fewer must. -/
instance : Preorder Inits where
  le a b := (∀ i, a.possibly.contains i = true → b.possibly.contains i = true) ∧
    ∀ i, b.certainly.contains i = true → a.certainly.contains i = true
  le_refl _ := ⟨fun _ h => h, fun _ h => h⟩
  le_trans _ _ _ h h' := ⟨fun i hi => h'.1 i (h.1 i hi), fun i hi => h.2 i (h'.2 i hi)⟩

variable {old new : Option Inits} {come : Inits → Prop} {m n : Inits}

theorem Meets.le_of_old (h : Meets old come new) (hm : m ∈ old) (hn : n ∈ new) : m ≤ n :=
  ⟨fun i hi => (h.possibly n hn i).2 (.inl ⟨m, hm, hi⟩),
    fun i hi => ((h.certainly n hn i).1 hi).1 m hm⟩

theorem Meets.le_of_come (h : Meets old come new) (hm : come m) (hn : n ∈ new) : m ≤ n :=
  ⟨fun i hi => (h.possibly n hn i).2 (.inr ⟨m, hm, hi⟩),
    fun i hi => ((h.certainly n hn i).1 hi).2 m hm⟩

end Flow.Inits

theorem Steady.monotone {T : Inits → Inits} (h : Steady T) : Monotone T := fun a b hab =>
  ⟨fun i => h.possibly i a b (hab.1 i), fun i => h.certainly i b a (hab.2 i)⟩

/-! ### Paths -/

/-- A path from the entry to a block. -/
inductive Graph.Path (g : Graph Nat) : Nat → Type
  | entry : Path g Graph.entry
  | edge {b d : Nat} {l : Label} : Path g b → (d, l) ∈ g.succs b → Path g d

theorem Graph.Reach.path {g : Graph Nat} {b : Nat} (h : g.Reach b) : Nonempty (g.Path b) := by
  induction h with
  | entry => exact ⟨.entry⟩
  | step _ hedge ih => exact ih.map fun π => π.edge hedge

/-- What is initialized at the end of a path that starts with `m` initialized. -/
def Graph.Path.effect {g : Graph Nat} (ix : String → Nat) (m : Inits) : {b : Nat} → g.Path b → Inits
  | _, .entry => m
  | _, @Path.edge _ b _ l π _ => g.transfer ix b l (π.effect ix m)

section OnPaths

variable {g : Graph Nat} {ix : String → Nat} {x m n : Inits} {b d : Nat} {l : Label}

/-- Whatever `m` says of a variable, some path to `b` bears it out. -/
structure OnPaths (g : Graph Nat) (ix : String → Nat) (x : Inits) (b : Nat) (m : Inits) : Prop where
  possibly : ∀ i, m.possibly.contains i = true →
    ∃ π : g.Path b, (π.effect ix x).possibly.contains i = true
  certainly : ∀ i, m.certainly.contains i = false →
    ∃ π : g.Path b, (π.effect ix x).certainly.contains i = false

theorem onPaths_entry (g : Graph Nat) (ix : String → Nat) (x : Inits) : OnPaths g ix x Graph.entry x :=
  ⟨fun _ hi => ⟨.entry, hi⟩, fun _ hi => ⟨.entry, hi⟩⟩

theorem OnPaths.transfer (h : OnPaths g ix x b m) (hb : g.Reach b) (hedge : (d, l) ∈ g.succs b) :
    OnPaths g ix x d (g.transfer ix b l m) := by
  have hsteady : Steady (g.transfer ix b l) := g.steady_transfer b l
  obtain ⟨π0⟩ := hb.path
  constructor
  · intro i hi
    by_cases hm : m.possibly.contains i = true
    · obtain ⟨π, hπ⟩ := h.possibly i hm
      exact ⟨π.edge hedge, hsteady.possibly i m _ (fun _ => hπ) hi⟩
    · exact ⟨π0.edge hedge, hsteady.possibly i m _ (fun hi => absurd hi hm) hi⟩
  · intro i hi
    rw [Bool.eq_false_iff] at hi
    by_cases hm : m.certainly.contains i = true
    · exact ⟨π0.edge hedge, Bool.eq_false_iff.2 fun hπ => hi (hsteady.certainly i _ m (fun _ => hm) hπ)⟩
    · obtain ⟨π, hπ⟩ := h.certainly i (Bool.eq_false_iff.2 hm)
      rw [Bool.eq_false_iff] at hπ
      exact ⟨π.edge hedge, Bool.eq_false_iff.2 fun hi' =>
        hi (hsteady.certainly i _ m (fun hc => absurd hc hπ) hi')⟩

theorem OnPaths.meets {old : Option Inits} {come : Inits → Prop} {new : Option Inits}
    (h : Inits.Meets old come new) (hold : ∀ o ∈ old, OnPaths g ix x b o)
    (hcome : ∀ y, come y → OnPaths g ix x b y) (hn : n ∈ new) : OnPaths g ix x b n := by
  constructor
  · intro i hi
    rcases (h.possibly n hn i).1 hi with ⟨o, ho, hi⟩ | ⟨y, hy, hi⟩
    · exact (hold o ho).possibly i hi
    · exact (hcome y hy).possibly i hi
  · intro i hi
    by_contra hnone
    refine Bool.eq_false_iff.1 hi ((h.certainly n hn i).2 ⟨fun o ho => ?_, fun y hy => ?_⟩)
    · by_contra hfalse
      exact hnone ((hold o ho).certainly i (Bool.eq_false_iff.2 hfalse))
    · by_contra hfalse
      exact hnone ((hcome y hy).certainly i (Bool.eq_false_iff.2 hfalse))

end OnPaths

namespace Routine

variable {r r' : Routine} {b d : Nat} {l : Label} {m n : Inits} {come : Nat → Inits → Prop}

/-- The parameters are initialized. -/
def initially (r : Routine) : Inits := r.params.foldl (fun m p => m.assign p.var) {}

theorem inits_entryState (r : Routine) : r.entryState.inits = r.initially := by
  have hfold : ∀ (l : List Param) (k : Nat) (s : State),
      ((l.zipIdx k).foldl (fun s x => s.assign x.1.var (r.entryTypes x.2 x.1).plain) s).inits =
        l.foldl (fun m p => m.assign p.var) s.inits := by
    intro l
    induction l with
    | nil => exact fun _ _ => rfl
    | cons p l ih =>
      intro k s
      rw [zipIdx_cons, foldl_cons, ih, foldl_cons]
      rfl
  exact hfold r.params 0 _

/-! ### What holds while routines are analysed -/

/-- The block has handed on what it initializes to its successors. -/
def Handed (r : Routine) (b : Nat) : Prop :=
  ∀ m ∈ r.initsAt b, ∀ d l, (d, l) ∈ r.graph.succs b →
    ∃ n ∈ r.initsAt d, r.graph.transfer r.index b l m ≤ n

/-- Inputs say nothing that no path bears out.  The entry has taken in the parameters; a block
that is not pending has handed on what it initializes. -/
structure Traced (r : Routine) : Prop where
  start : ∀ m ∈ r.initsAt Graph.entry, r.initially ≤ m
  handed : ∀ b, b ∈ r.pending.toList ∨ r.Handed b
  paths : ∀ b, ∀ m ∈ r.initsAt b, OnPaths r.graph r.index r.initially b m

theorem traced_of_unreached (h : ∀ b, r.input? b = none) : r.Traced := by
  have hat : ∀ b, r.initsAt b = none := fun b => by rw [initsAt, h]; rfl
  refine ⟨by simp [hat], fun b => .inr ?_, by simp [hat]⟩
  intro m hm
  rw [hat] at hm
  cases hm

theorem Handed.taken (h : r.Handed b) (ht : TakenIn come r r') (hsame : r'.input? b = r.input? b) :
    r'.Handed b := by
  have hix : r'.index = r.index := by funext name; rw [index, index, ht.names]
  intro m hm d l hedge
  rw [initsAt, hsame] at hm
  rw [ht.graph] at hedge ⊢
  obtain ⟨n, hn, hle⟩ := h m hm d l hedge
  have hsome : (r'.initsAt d).isSome = true := (ht.meets d).isSome.2 (.inl (Option.isSome_of_mem hn))
  obtain ⟨n', hn'⟩ := Option.isSome_iff_exists.1 hsome
  exact ⟨n', hn', hix ▸ le_trans hle ((ht.meets d).le_of_old hn hn')⟩

theorem Traced.taken (h : r.Traced) (ht : TakenIn come r r') (hparams : r'.params = r.params)
    (hcome : ∀ d y, come d y → OnPaths r.graph r.index r.initially d y)
    (hstart : (r.initsAt Graph.entry).isSome = true ∨ come Graph.entry r.initially)
    (hhanded : ∀ b, b ∈ r'.pending.toList ∨ r'.Handed b) : r'.Traced := by
  have hix : r'.index = r.index := by funext name; rw [index, index, ht.names]
  have hinit : r'.initially = r.initially := by rw [initially, initially, hparams]
  refine ⟨fun m hm => ?_, hhanded, fun b m hm => ?_⟩
  · rw [hinit]
    rcases hstart with hstart | hstart
    · obtain ⟨m0, hm0⟩ := Option.isSome_iff_exists.1 hstart
      exact le_trans (h.start m0 hm0) ((ht.meets _).le_of_old hm0 hm)
    · exact (ht.meets _).le_of_come hstart hm
  · rw [ht.graph, hix, hinit]
    exact OnPaths.meets (ht.meets b) (h.paths b) (hcome b) hm

theorem Traced.congr (h : r.Traced) (htext : SameText r r') (hinputs : r'.inputs = r.inputs)
    (hpending : ∀ b ∈ r.pending.toList, b ∈ r'.pending.toList) : r'.Traced := by
  have hinput : ∀ b, r'.input? b = r.input? b := fun b => by rw [input?, input?, hinputs]
  have hat : ∀ b, r'.initsAt b = r.initsAt b := fun b => by rw [initsAt, initsAt, hinput]
  have ht : TakenIn (fun _ _ => False) r r' :=
    ⟨htext.graph, htext.names, by rw [hinputs], fun d => hat d ▸ .refl _⟩
  have hix : r'.index = r.index := by funext name; rw [index, index, htext.names]
  have hinit : r'.initially = r.initially := by rw [initially, initially, htext.params]
  refine ⟨?_, fun b => (h.handed b).imp (hpending b) fun hb => hb.taken ht (hinput b), fun b => ?_⟩
  · rw [hinit, hat]
    exact h.start
  · rw [htext.graph, hix, hinit, hat]
    exact h.paths b

theorem Traced.seed {t : ShapeTable} {k : Nat} {c : Bool} (h : r.Traced) (hr : r.Valid t k) (ht : t.Valid)
    (hseed : r.seed = .ok (c, r')) : r'.Traced := by
  obtain ⟨-, hflows⟩ := hr.seed_flows ht hseed
  have hlt : Graph.entry < r.inputs.size := hr.size ▸ hr.graph.pos
  have htaken := flowInto_taken hlt hseed
  refine h.taken htaken (by rw [hflows.frame]) ?_ (.inr ⟨rfl, r.inits_entryState.symm⟩) fun b => ?_
  · rintro d y ⟨rfl, rfl⟩
    rw [inits_entryState]
    exact onPaths_entry _ _ _
  · have hgrows := hflows.grows
    rcases hgrows.changed b with hsame | hpending
    · exact (h.handed b).imp (hgrows.pending b) fun hb => hb.taken htaken hsame
    · exact .inl hpending

theorem Traced.walk {c : Setting} {q : Agenda Nat} {w w' : Walker} (h : r.Traced)
    (hc : Setting.NoneByRef c) (hpop : r.pending.pop? = some (c.block, q))
    (hroutine : w.routine = { r with status := .analyzing, pending := q }) (hwalk : Walks c w w') :
    w'.routine.Traced := by
  have hready := hwalk.before.routine
  obtain ⟨s, hs⟩ := Option.isSome_iff_exists.1 hwalk.here
  have hreach := hready.reach _ hwalk.here
  have hhands := (block_hands hc hready.graph hready.size hready.names hs
    (hready.graph.reach_lt hreach)).ok hwalk.run
  have hgrows := hwalk.advances.toGrows
  have hentry := hready.entry _ hwalk.here
  rw [hroutine] at hhands hgrows hs hreach hentry
  have htaken : TakenIn (fun d m => ∃ l, (d, l) ∈ r.graph.succs c.block ∧
      m = r.graph.transfer r.index c.block l s.inits) r w'.routine :=
    ⟨hhands.graph, hhands.names, hhands.size, hhands.meets⟩
  have hat : r.initsAt c.block = some s.inits := by rw [initsAt, show r.input? c.block = some s from hs]; rfl
  have hlist := (Agenda.pop?_spec hpop).1
  refine h.taken htaken (by rw [hgrows.frame]) ?_ (.inl ?_) fun b => ?_
  · rintro d y ⟨l, hedge, rfl⟩
    exact (h.paths _ _ hat).transfer hreach hedge
  · rw [initsAt, Option.isSome_map]
    exact hentry
  · rcases hgrows.changed b with hsame | hpending
    · by_cases hb : b = c.block
      · -- the block itself
        refine .inr fun m hm d l hedge => ?_
        subst hb
        rw [initsAt, hsame, show Routine.input? _ c.block = some s from hs] at hm
        obtain rfl : s.inits = m := by simpa using hm
        have hix : w'.routine.index = r.index := by funext name; rw [index, index, hhands.names]
        rw [hhands.graph] at hedge ⊢
        rw [hix]
        have hcome : ∃ x, (d, x) ∈ r.graph.succs c.block ∧
            r.graph.transfer r.index c.block l s.inits = r.graph.transfer r.index c.block x s.inits :=
          ⟨l, hedge, rfl⟩
        obtain ⟨n, hn⟩ := Option.isSome_iff_exists.1 ((htaken.meets d).isSome.2 (.inr ⟨_, hcome⟩))
        exact ⟨n, hn, (htaken.meets d).le_of_come hcome hn⟩
      · refine (h.handed b).imp (fun hold => hgrows.pending b ?_) fun hb' => hb'.taken htaken hsame
        rw [hlist] at hold
        exact (mem_cons.1 hold).resolve_left hb
    · exact .inl hpending

theorem Evolves.traced {m : Mid} {i : Nat} (h : r.Evolves m r') (hm : m.Sound)
    (hr : m.program.routines[i]? = some r) (hsigs : ∀ s ∈ m.sigs, ∀ j, s.isByRef j = false)
    (hs : r.Traced) : r'.Traced := by
  have hvalid := hm.program.valid hr
  have htext := h.text hm.kept hr
  cases h with
  | stir hstirs =>
    cases hstirs with
    | tweak ht =>
      cases ht with
      | queue hq => exact hs.congr htext (by rw [hq.frame]) hq.kept
      | mark hmarks => exact hs.congr htext (by rw [hmarks.frame]) (by rw [hmarks.frame]; exact fun _ hb => hb)
      | seed hseed => exact hs.seed hvalid hm.program.table hseed
    | forget observed heq =>
      subst heq
      exact traced_of_unreached (input?_replicate (m := r.graph.size) rfl)
    | observe hcond heq =>
      subst heq
      exact hs.congr htext rfl fun _ hb => hb
    | @enter args c hobserving hseed =>
      have hsame : (Program.observing r args).Traced :=
        hs.congr ⟨rfl, rfl, rfl, rfl, rfl, rfl, rfl, rfl, rfl⟩ rfl fun _ hb => hb
      exact hsame.seed hobserving hm.program.table hseed
  | @walk b q w w' hpop htable hcalls hroutine hwalk heq =>
    subst heq
    exact hs.walk (c := m.program.setting m.sigs b) hsigs hpop hroutine hwalk

end Routine

/-! ### Exactness -/

variable {m m' : Mid} {p p' : Program}

/-- No routine takes a parameter by reference. -/
def Program.NoneByRef (p : Program) : Prop := ∀ r ∈ p.routines, ∀ q ∈ r.params, q.byRef = false

theorem Mid.Alters.noneByRef (h : m.Evolves m') (hm : m.Sound) (hnone : m'.program.NoneByRef) :
    m.program.NoneByRef := by
  intro r hr q hq
  obtain ⟨i, hi⟩ := getElem?_of_mem hr
  obtain ⟨r', hr', hevolves⟩ := h.old i r hi
  exact hnone r' (mem_of_getElem? hr') q ((hevolves.text hm.kept hi).params ▸ hq)

theorem Mid.Sound.noneByRef (hm : m.Sound) (hnone : m.program.NoneByRef) :
    ∀ s ∈ m.sigs, ∀ j, s.isByRef j = false := by
  intro s hs j
  obtain ⟨i, hi⟩ := getElem?_of_mem hs
  obtain ⟨r, hr, hsig, -⟩ := hm.sigs i s hi
  rw [hsig]
  show (r.params.map (·.byRef)).getD j false = false
  rw [getD_eq_getElem?_getD, getElem?_map]
  rcases hq : r.params[j]? with _ | q
  · rfl
  · exact hnone r (mem_of_getElem? hr) q (mem_of_getElem? hq)

theorem Move.traced (h : Move m m') (hm : m.Sound) (hnone : m.program.NoneByRef)
    (ht : ∀ r ∈ m.program.routines, r.Traced) : ∀ r ∈ m'.program.routines, r.Traced := by
  intro r' hr'
  obtain ⟨i, hi⟩ := getElem?_of_mem hr'
  rcases (h.evolves hm.kept).back hi with ⟨r, hr, hevolves⟩ | hfresh
  · exact hevolves.traced hm hr (hm.noneByRef hnone) (ht r (mem_of_getElem? hr))
  · exact Routine.traced_of_unreached hfresh.input?

theorem Moves.traced (h : Moves m m') (hm : m.Sound) (ht : ∀ r ∈ m.program.routines, r.Traced)
    (hnone : m'.program.NoneByRef) : ∀ r ∈ m'.program.routines, r.Traced := by
  induction h with
  | refl => exact ht
  | tail hmoves hmove ih =>
    have hsound := Moves.sound hmoves hm
    have hbefore := (hmove.evolves hsound.kept).noneByRef hsound hnone
    exact hmove.traced hsound hbefore (ih hbefore)

/-- Once nothing is pending, inputs take in every path. -/
theorem Routine.Traced.le_along {r : Routine} (h : r.Traced) (hquiet : r.pending.toList = [])
    (hentry : (r.initsAt Graph.entry).isSome = true) {b : Nat} (π : r.graph.Path b) :
    ∃ m ∈ r.initsAt b, π.effect r.index r.initially ≤ m := by
  induction π with
  | entry =>
    obtain ⟨m, hm⟩ := Option.isSome_iff_exists.1 hentry
    exact ⟨m, hm, h.start m hm⟩
  | @edge b d l π hedge ih =>
    obtain ⟨m, hm, hle⟩ := ih
    have hhanded := (h.handed b).resolve_left (by simp [hquiet])
    obtain ⟨n, hn, hle'⟩ := hhanded m hm d l hedge
    exact ⟨n, hn, le_trans ((r.graph.steady_transfer b l).monotone hle) hle'⟩

/-- **Initialization is exact.**  Where the program has converged, a variable counts as possibly
initialized on entry to a block just if some path to the block initializes it, and as certainly
initialized just if every path does. -/
theorem Program.History.initialization_exact (h : p.History) {plan : Plan}
    (hextra : ∀ s ∈ plan.extra, s.Sound) {n : Nat} (hrun : p.analyze plan = .ok (.converged n) p')
    (hnone : p'.NoneByRef) {r : Routine} (hr : r ∈ p'.routines) {b : Nat} (hb : r.graph.Reach b) :
    ∃ s, r.input? b = some s ∧ ∀ i < VarSet.width,
      (s.possibly.contains i = true ↔
        ∃ π : r.graph.Path b, (π.effect r.index r.initially).possibly.contains i = true) ∧
      (s.certainly.contains i = true ↔
        ∀ π : r.graph.Path b, (π.effect r.index r.initially).certainly.contains i = true) := by
  obtain ⟨hcont, hquiet⟩ := Program.analyze_ok h.sound hextra hrun
  have htraced : r.Traced := Moves.traced (h.moves.trans (hcont.moves h.sound))
    (Mid.sound_of Program.sound_empty) (by simp [Mid.of, Program.empty]) hnone r hr
  have hentry : (r.initsAt Graph.entry).isSome = true := by
    rw [Routine.initsAt, Option.isSome_map]
    exact hcont.entered r hr
  have hle := fun π => htraced.le_along (hquiet rfl r hr) hentry (b := b) π
  obtain ⟨π₀⟩ := hb.path
  obtain ⟨m, hm, -⟩ := hle π₀
  obtain ⟨s, hs, rfl⟩ := Option.map_eq_some_iff.1 hm
  have hle' : ∀ π : r.graph.Path b, π.effect r.index r.initially ≤ s.inits := by
    intro π
    obtain ⟨m, hm', hle⟩ := hle π
    exact Option.some.inj (hm'.symm.trans hm) ▸ hle
  have hpaths := htraced.paths b _ hm
  refine ⟨s, hs, fun i _ => ⟨⟨hpaths.possibly i, fun h => h.elim fun π hπ => (hle' π).1 i hπ⟩,
    fun hi π => (hle' π).2 i hi, fun hall => ?_⟩⟩
  by_contra hfalse
  obtain ⟨π, hπ⟩ := hpaths.certainly i (Bool.eq_false_iff.2 hfalse)
  exact Bool.eq_false_iff.1 hπ (hall π)

/-- `f(c)` gives `x` a value only if `c` holds. -/
def Program.branching : List RoutineDecl :=
  [{ name := "f"
     params := [{ name := "c" }]
     body := [.branch (.var () "c") [.eval (.assign () (.var () "x") (.lit () .int))] [],
       .ret (some (.var () "x"))] }]

/-- Where the two ways through `f` meet, one has given `x` a value and the other has not. -/
theorem Program.branching_exact : ∃ n p' r s,
    (ofDecls branching).analyze {} = .ok (.converged n) p' ∧ p'.NoneByRef ∧ r ∈ p'.routines ∧
    r.graph.Reach 2 ∧ r.input? 2 = some s ∧
    s.possibly.contains 1 = true ∧ s.certainly.contains 1 = false ∧
    (∃ π : r.graph.Path 2, (π.effect r.index r.initially).possibly.contains 1 = true) ∧
    ¬ ∀ π : r.graph.Path 2, (π.effect r.index r.initially).certainly.contains 1 = true := by
  obtain ⟨n, p', hrun, hgood⟩ := exists_converged (ofDecls branching) {}
    (fun p' => p'.routines.all (fun r => r.params.all (fun q => !q.byRef)) &&
      p'.routines[0]?.any (fun r =>
        (r.input? 2).any (fun s => s.possibly.contains 1 && !s.certainly.contains 1)))
    (by decide +kernel)
  simp only [Bool.and_eq_true, List.all_eq_true, Bool.not_eq_true', Option.any_eq_true] at hgood
  obtain ⟨hnone, r, hr, s, hs, hposs, hcert⟩ := hgood
  have hmem := List.mem_of_getElem? hr
  have hhist := history_ofDecls branching
  have hsound := (analyze_ok hhist.sound (by simp) hrun).1.sound hhist.sound
  have hreach : r.graph.Reach 2 := (hsound.routines r hmem).reach 2 (by rw [hs]; rfl)
  obtain ⟨s', hs', hexact⟩ := hhist.initialization_exact (by simp) hrun hnone hmem hreach
  obtain rfl := Option.some.inj (hs.symm.trans hs')
  obtain ⟨h₁, h₂⟩ := hexact 1 (by decide)
  exact ⟨n, p', r, s, hrun, hnone, hmem, hreach, hs, hposs, hcert, h₁.1 hposs,
    fun hall => Bool.eq_false_iff.1 hcert (h₂.2 hall)⟩

end ShapeFlow
