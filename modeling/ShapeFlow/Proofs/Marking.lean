/-
# Marks for dynamic calls

A call is dynamic if no routine goes by its name and the library function of that
name is dynamic.  Names only gain routines, so a call that is not dynamic never
becomes so.  A routine is marked when such a call of it is bound; and by the time
clones are made, all calls of blocks that can be reached have been.  So what is
cloned has no dynamic call and never will have, nor will its clones.

A mark stays, and so does a call.  So a routine from which a dynamic call could
once be reached is one from which it still can, and what is forwarded at the end
of a run is exact.

Key definitions: `Directory.Dynamic`, `Routine.Marked`, `Routine.Spared`, `Program.Heedful`,
`Program.Unbroken`.
Key theorems: `Routine.Marked.spared`, `Beats.heedful`, `Heedful.specialize`, `Heedful.iterate`,
`Unbroken.dynamic_marks_exact`.
-/
import ShapeFlow.Proofs.Closure
import ShapeFlow.Proofs.Failures
import ShapeFlow.Proofs.Overloads
import ShapeFlow.Proofs.Reaching
import ShapeFlow.Proofs.Strides

namespace ShapeFlow

open ShapeFlow.Flow Infer Relation
open List hiding set

variable {p : Program} {c : Setting} {w w' : Walker}

/-! ### Dynamic names -/

/-- A call of `name` is dynamic. -/
def Directory.Dynamic (d : Directory) (name : String) : Prop :=
  d.candidates name = [] ∧ Library.Dynamic name

theorem Mid.Kept.dynamic_iff {sigs : List Signature} {reports : List (Nat × Tuple)}
    (hm : Mid.Kept ⟨p, sigs, reports⟩) (b : Nat) (name : String) :
    (p.setting sigs b).Dynamic name ↔ p.directory.Dynamic name := by
  have hcandidates : (p.directory.candidates name).filterMap (sigs[·]?) = [] ↔
      p.directory.candidates name = [] := by
    refine ⟨fun h => eq_nil_iff_forall_not_mem.2 fun id hid => ?_, fun h => by rw [h]; rfl⟩
    have hnone := filterMap_eq_nil_iff.1 h id hid
    have hcount : sigs.length = p.size := hm.count
    have hlt : id < p.size := hm.program.directory name id hid
    rw [getElem?_eq_none_iff] at hnone
    omega
  exact and_congr_left' hcandidates

theorem Program.dynamic_of_push {s : Routine} {name : String}
    (hnew : p.size ∉ p.directory.candidates name) (h : (p.push s).directory.Dynamic name) :
    p.directory.Dynamic name := by
  obtain ⟨hnone, hlibrary⟩ := h
  refine ⟨?_, hlibrary⟩
  rw [show (p.push s).directory = p.directory.declareRoutine s.name p.size from rfl,
    Directory.candidates_declareRoutine s.name name hnew] at hnone
  split at hnone
  · simp at hnone
  · exact hnone

/-! ### Marked routines -/

variable {D D' : String → Prop}

/-- Block `b` can be reached and makes a call of a name in `D`. -/
def Graph.Reflects (D : String → Prop) (g : Graph Nat) (b : Nat) : Prop :=
  g.Reach b ∧ ∃ k name args, .call k name args ∈ g.exprsOf b ∧ D name

theorem Graph.Reflects.mono {g : Graph Nat} {b : Nat} (h : g.Reflects D b)
    (hD : ∀ name, D name → D' name) : g.Reflects D' b := by
  obtain ⟨hreach, k, name, args, hcall, hname⟩ := h
  exact ⟨hreach, k, name, args, hcall, hD name hname⟩

namespace Routine

variable {r r' : Routine}

/-- A routine that has a call of a name in `D` bound makes dynamic calls. -/
def Marked (D : String → Prop) (r : Routine) : Prop := ∀ b k name args,
  .call k name args ∈ r.graph.exprsOf b → D name → (r.target? k).isSome = true →
    r.flags.dynamicCall = true

/-- A routine that makes dynamic calls has one in a block that can be reached. -/
def Caused (r : Routine) : Prop :=
  r.flags.dynamicCall = true → ∃ b, r.graph.Reflects Library.Dynamic b

/-- The routine makes no dynamic call, and there is none that it could come to. -/
structure Spared (D : String → Prop) (r : Routine) : Prop where
  unmarked : r.flags.dynamicCall = false
  plain : ∀ b, ¬ r.graph.Reflects D b

theorem Marked.anti (h : r.Marked D) (hD : ∀ name, D' name → D name) : r.Marked D' :=
  fun b k name args hcall hname => h b k name args hcall (hD name hname)

theorem Spared.anti (h : r.Spared D) (hD : ∀ name, D' name → D name) : r.Spared D' where
  unmarked := h.unmarked
  plain b hb := h.plain b (hb.mono hD)

/-- **When nothing is pending**, a routine without mark is spared: its blocks have been gone
through, so all its calls are bound. -/
theorem Marked.spared (h : r.Marked D) (hfollowed : r.Followed)
    (hentry : (r.input? Graph.entry).isSome = true) (hpending : r.pending.toList = [])
    (hunmarked : r.flags.dynamicCall = false) : r.Spared D where
  unmarked := hunmarked
  plain b := by
    rintro ⟨hb, k, name, args, hcall, hname⟩
    have hreached := hfollowed.spread.complete hentry hpending b hb
    rcases hfollowed.answered b hreached with hdue | hanswered
    · rw [hpending] at hdue
      cases hdue
    · have hmarked := h b k name args hcall hname (hanswered k name args hcall)
      rw [hunmarked] at hmarked
      cases hmarked

/-- The routine stays marked or spared, as it was. -/
structure Abides (D : String → Prop) (r r' : Routine) : Prop where
  id : r'.id = r.id
  origin : r'.origin = r.origin
  dynamicCall : r.flags.dynamicCall = true → r'.flags.dynamicCall = true
  marked : r.Marked D → r'.Marked D
  caused : r.Caused → r'.Caused
  spared : r.Spared D → r'.Spared D

theorem Abides.trans {r'' : Routine} (h : r.Abides D r') (h' : r'.Abides D r'') : r.Abides D r'' where
  id := h'.id.trans h.id
  origin := h'.origin.trans h.origin
  dynamicCall hr := h'.dynamicCall (h.dynamicCall hr)
  marked hr := h'.marked (h.marked hr)
  caused hr := h'.caused (h.caused hr)
  spared hr := h'.spared (h.spared hr)

theorem abides_of_same (hid : r'.id = r.id) (horigin : r'.origin = r.origin)
    (hgraph : r'.graph = r.graph) (hflag : r'.flags.dynamicCall = r.flags.dynamicCall)
    (htargets : ∀ k, r'.target? k = r.target? k) : r.Abides D r' where
  id := hid
  origin := horigin
  dynamicCall h := hflag.trans h
  marked h b k name args hcall hname htarget := by
    rw [hgraph] at hcall
    rw [htargets] at htarget
    exact hflag.trans (h b k name args hcall hname htarget)
  caused h := by
    unfold Caused
    rw [hflag, hgraph]
    exact h
  spared h := ⟨hflag.trans h.unmarked, hgraph ▸ h.plain⟩

/-- Nothing changes that says what the routine calls. -/
def Tame (r r' : Routine) : Prop :=
  r' = { r with
    status := r'.status, inputs := r'.inputs, observed := r'.observed, pending := r'.pending
    candidates := r'.candidates, applied := r'.applied }

theorem Tame.refl (r : Routine) : r.Tame r := rfl

theorem Tame.abides (h : r.Tame r') : r.Abides D r' := by
  refine abides_of_same (by rw [h]) (by rw [h]) (by rw [h]) (by rw [h]) fun k => ?_
  unfold target?
  rw [h]

theorem Tame.flags (h : r.Tame r') : r'.flags = r.flags := by rw [h]

theorem Piles.tame (h : r.Piles r') : r.Tame r' := by
  unfold Tame
  rw [h.frame]

theorem seed_tame {changed : Bool} (h : r.seed = .ok (changed, r')) : r.Tame r' := by
  unfold Tame
  rw [flowInto_frame h]

end Routine

theorem Infer.Walks.heeds (h : Walks c w w') :
    w.routine.Heeds (w.routine.graph.Reflects c.Dynamic c.block)
      (fun k => ∃ name args, .call k name args ∈ w.routine.graph.exprsOf c.block ∧ c.Dynamic name)
      w'.routine := by
  obtain ⟨s, hs⟩ := Option.isSome_iff_exists.1 h.here
  have hgraph := h.before.routine.graph
  have hreach := h.before.routine.reach _ h.here
  have hlt : c.block < w.routine.graph.blocks.length := hgraph.reach_lt hreach
  have hblk := getElem?_eq_getElem hlt
  have hrun := h.run
  rw [block_eq hs hblk] at hrun
  refine ((made_body (E := {x | x ∈ w.routine.graph.exprsOf c.block})
    (fun e he x hx => (Graph.mem_exprsOf hblk).2 ⟨e, he, hx⟩) (fun k name args hmem => ?_) s).gains
    w).ok hrun |>.routine
  refine ⟨fun hname => ⟨hreach, k, name, args, hmem, hname⟩, fun ⟨name', args', hmem', hname'⟩ => ?_⟩
  -- a call is known by its number
  have hsame : Expr.call k name args = Expr.call k name' args' := hgraph.expr_unique hmem hmem' rfl
  injection hsame with _ hname
  exact hname ▸ hname'

/-- **A walk through a block** marks with cause. -/
theorem Infer.Walks.abides (h : Walks c w w') : w.routine.Abides c.Dynamic w'.routine := by
  have hheeds := h.heeds
  have hgraph : w'.routine.graph = w.routine.graph := h.advances.graph
  refine ⟨by rw [h.advances.frame], by rw [h.advances.frame], hheeds.dynamicCall, ?_, ?_, ?_⟩
  · intro hmarked b k name args hcall hname htarget
    rw [hgraph] at hcall
    by_cases htag : k ∈ w.routine.graph.tagsOf c.block
    · obtain rfl : b = c.block :=
        h.before.routine.graph.tagsOf_unique (mem_map_of_mem hcall) htag
      rcases hheeds.effect k ⟨name, args, hcall, hname⟩ htarget with hbefore | hflag
      · exact hheeds.dynamicCall (hmarked _ k name args hcall hname hbefore)
      · exact hflag
    · have hfact := h.advances.others k htag
      unfold Routine.target? at htarget
      rw [hfact] at htarget
      exact hheeds.dynamicCall (hmarked b k name args hcall hname htarget)
  · intro hcaused hflag
    rw [hgraph]
    rcases hheeds.cause hflag with hbefore | hreflects
    · exact hcaused hbefore
    · exact ⟨c.block, hreflects.mono fun _ hname => hname.2⟩
  · intro hspared
    refine ⟨?_, hgraph ▸ hspared.plain⟩
    by_contra hflag
    rcases hheeds.cause (by simpa using hflag) with hbefore | hreflects
    · rw [hspared.unmarked] at hbefore
      cases hbefore
    · exact hspared.plain _ hreflects

/-! ### Programs that heed dynamic calls -/

namespace Program

variable {p p' : Program} {plan : Plan}

/-- Marks and calls stay, and nothing is said to lead to a dynamic call that does not. -/
structure Abides (p p' : Program) : Prop where
  names : p'.directory.Dynamic = p.directory.Dynamic
  leads : ∀ i j, p.calls.Leads i j → p'.calls.Leads i j
  routines : Each (fun r r' => r.Abides p.directory.Dynamic r' ∧
    (r'.flags.callsDynamic = true → r.flags.callsDynamic = true ∨ p.ReachesDynamic r.id))
    p { p with routines := p'.routines }

theorem abides_of_tame (h : Each Routine.Tame p { p with routines := p'.routines })
    (hcalls : p'.calls = p.calls) (hnames : p'.directory.Dynamic = p.directory.Dynamic) :
    p.Abides p' where
  names := hnames
  leads i j h := hcalls ▸ h
  routines := h.mono fun _ r r' _ htame =>
    ⟨htame.abides, fun hflag => .inl (by rw [htame.flags] at hflag; exact hflag)⟩

theorem Each.abides (h : Each Routine.Tame p p') : p.Abides p' := by
  refine abides_of_tame (h.frame ▸ h) ?_ ?_ <;> rw [h.frame]

theorem abides_of_eq (hroutines : p'.routines = p.routines) (hcalls : p'.calls = p.calls)
    (hnames : p'.directory.Dynamic = p.directory.Dynamic) : p.Abides p' :=
  abides_of_tame (hroutines ▸ .refl .refl p) hcalls hnames

theorem abides_forwardDynamic (hp : p.Kept) : p.Abides p.forwardDynamic where
  names := rfl
  leads _ _ h := h
  routines := by
    refine (forwardDynamic_marks hp).mono fun i r r' _ h => ?_
    obtain ⟨hframe, hflag, hcalls⟩ := h
    refine ⟨Routine.abides_of_same (by rw [hframe]) (by rw [hframe]) (by rw [hframe]) hflag
      fun k => ?_, hcalls.1⟩
    unfold Routine.target?
    rw [hframe]

theorem ReachesDynamic.abides {i : Nat} (hi : p.ReachesDynamic i) (h : p.Abides p') :
    p'.ReachesDynamic i := by
  obtain ⟨d, hd, hflag, hpath⟩ := hi
  obtain ⟨j, hj⟩ := getElem?_of_mem hd
  obtain ⟨d', hd', habides, -⟩ := h.routines.forth hj
  exact ⟨d', mem_of_getElem? hd', habides.dynamicCall hflag,
    habides.id ▸ .mono h.leads _ _ hpath⟩

/-- Routine `i` makes no dynamic call, and there is none that it could come to. -/
def Sparing (p : Program) (i : Nat) : Prop :=
  ∃ r, p.routines[i]? = some r ∧ r.Spared p.directory.Dynamic

theorem Sparing.abides {i : Nat} (hi : p.Sparing i) (h : p.Abides p') : p'.Sparing i := by
  obtain ⟨r, hr, hspared⟩ := hi
  obtain ⟨r', hr', habides, -⟩ := h.routines.forth hr
  exact ⟨r', hr', h.names ▸ habides.spared hspared⟩

/-- Dynamic calls are marked when they are bound, and nothing else is; clones and what they were
made from are spared; what is said to lead to a dynamic call does. -/
structure Heedful (p : Program) : Prop where
  marked : ∀ r ∈ p.routines, r.Marked p.directory.Dynamic
  caused : ∀ r ∈ p.routines, r.Caused
  spared : ∀ r ∈ p.routines, ∀ o, r.origin = some o →
    r.Spared p.directory.Dynamic ∧ p.Sparing o
  backed : ∀ r ∈ p.routines, r.flags.callsDynamic = true → p.ReachesDynamic r.id

theorem heedful_empty : Heedful .empty :=
  ⟨fun _ hr => (by cases hr), fun _ hr => (by cases hr), fun _ hr => (by cases hr),
    fun _ hr => (by cases hr)⟩

theorem Heedful.abides (hp : p.Heedful) (h : p.Abides p') : p'.Heedful := by
  have hback : ∀ r' ∈ p'.routines, ∃ r ∈ p.routines, r.Abides p.directory.Dynamic r' ∧
      (r'.flags.callsDynamic = true → r.flags.callsDynamic = true ∨ p.ReachesDynamic r.id) := by
    intro r' hr'
    obtain ⟨i, hi⟩ := getElem?_of_mem hr'
    obtain ⟨r, hr, hall⟩ := h.routines.back hi
    exact ⟨r, mem_of_getElem? hr, hall⟩
  refine ⟨fun r' hr' => ?_, fun r' hr' => ?_, fun r' hr' o ho => ?_, fun r' hr' hflag => ?_⟩ <;>
    obtain ⟨r, hr, habides, hcalls⟩ := hback r' hr'
  · rw [h.names]
    exact habides.marked (hp.marked r hr)
  · exact habides.caused (hp.caused r hr)
  · obtain ⟨hspared, horigin⟩ := hp.spared r hr o (habides.origin ▸ ho)
    rw [h.names]
    exact ⟨habides.spared hspared, horigin.abides h⟩
  · rw [habides.id]
    rcases hcalls hflag with hbefore | hreach
    · exact (hp.backed r hr hbefore).abides h
    · exact hreach.abides h

/-! ### New routines -/

section Push

variable {s : Routine} (hnew : ∀ name, p.size ∉ p.directory.candidates name)

theorem Kept.unlisted (hp : p.Kept) (name : String) : p.size ∉ p.directory.candidates name :=
  fun h => Nat.lt_irrefl _ (hp.directory name _ h)

include hnew

theorem Sparing.push {i : Nat} (h : p.Sparing i) : (p.push s).Sparing i := by
  obtain ⟨r, hr, hspared⟩ := h
  refine ⟨r, ?_, hspared.anti fun name => dynamic_of_push (hnew name)⟩
  exact (getElem?_append_left (lt_of_getElem? hr)).trans hr

theorem Heedful.push (hp : p.Heedful) (htargets : ∀ k, s.target? k = none)
    (hflags : s.flags = {})
    (horigin : ∀ o, s.origin = some o → s.Spared p.directory.Dynamic ∧ p.Sparing o) :
    (p.push s).Heedful := by
  have hnames : ∀ name, (p.push s).directory.Dynamic name → p.directory.Dynamic name :=
    fun name => dynamic_of_push (hnew name)
  refine ⟨fun r hr => ?_, fun r hr => ?_, fun r hr o ho => ?_, fun r hr hflag => ?_⟩ <;>
    rcases mem_append.1 hr with hr | hr
  · exact (hp.marked r hr).anti hnames
  · obtain rfl := mem_singleton.1 hr
    intro b k name args _ _ htarget
    rw [htargets k] at htarget
    cases htarget
  · exact hp.caused r hr
  · obtain rfl := mem_singleton.1 hr
    intro hflag
    rw [hflags] at hflag
    cases hflag
  · obtain ⟨hspared, hsparing⟩ := hp.spared r hr o ho
    exact ⟨hspared.anti hnames, hsparing.push hnew⟩
  · obtain rfl := mem_singleton.1 hr
    obtain ⟨hspared, hsparing⟩ := horigin o ho
    exact ⟨hspared.anti hnames, hsparing.push hnew⟩
  · obtain ⟨d, hd, hrest⟩ := hp.backed r hr hflag
    exact ⟨d, mem_append_left _ hd, hrest⟩
  · obtain rfl := mem_singleton.1 hr
    rw [hflags] at hflag
    cases hflag

end Push

end Program

/-! ### Rounds -/

theorem Beat.abides {m m' : Mid} (h : Beat m m') (hm : m.Kept) : m.program.Abides m'.program := by
  cases h with
  | change h => exact h.elim
  | @walk p sigs reports i b r q w w' hr _ _ hcalls hroutine hwalk =>
    have hnames : (p.setting sigs b).Dynamic = p.directory.Dynamic :=
      funext fun name => propext (hm.dynamic_iff b name)
    have hpopped : r.Tame w.routine := hroutine ▸ rfl
    have hwalked : w.routine.Abides p.directory.Dynamic w'.routine := hnames ▸ hwalk.abides
    refine ⟨rfl, fun i j hlead => ?_, Program.each_put (fun s => ⟨(Routine.Tame.refl s).abides, Or.inl⟩)
      hr ⟨?_, fun hflag => .inl ?_⟩⟩
    · obtain ⟨e, he, rfl, rfl⟩ := hlead
      obtain ⟨e', he', hkey⟩ := hwalk.advances.kept e (hcalls ▸ he)
      simp only [CallEdge.key, Prod.mk.injEq] at hkey
      exact ⟨e', he', hkey.1, hkey.2.1⟩
    · exact hpopped.abides.trans hwalked
    · rw [hwalk.heeds.callsDynamic, hpopped.flags] at hflag
      exact hflag
  | @report p p' sigs callee args reports hrun =>
    obtain ⟨r, r', hr, rfl, -, -, hframe⟩ := hm.grows hrun
    refine (Program.each_put .refl hr (?_ : r.Tame r')).abides
    unfold Routine.Tame
    rw [hframe]
    rfl
  | @notify p sigs _ =>
    exact ((Program.notify_piles sigs p).mono fun _ _ _ _ => Routine.Piles.tame).abides

/-- **Rounds** keep a program heedful. -/
theorem Beats.heedful {m m' : Mid} (h : Beats m m') (hm : m.Kept) (hp : m.program.Heedful) :
    m'.program.Heedful := by
  induction h with
  | refl => exact hp
  | tail hbeats hbeat ih => exact ih.abides (hbeat.abides ((Beats.acts hbeats).moves.kept hm))

namespace Program

variable {p p' : Program} {plan : Plan}

/-! ### Clones -/

theorem Heedful.applyClone (h : p.Heedful) (hp : p.Kept) {i : Nat} {r : Routine} {tuple : Tuple}
    (hr : p.routines[i]? = some r) (hspared : r.Spared p.directory.Dynamic)
    (htuple : KnowsTuple p.table tuple) (hrun : p.applyClone r tuple = .ok p') :
    p'.Heedful ∧ ∀ o, p.Sparing o → p'.Sparing o := by
  obtain ⟨c, clone, hseed, -, -⟩ := Routine.seed_spec
    ((clone_fresh p.size (hp.valid hr) htuple).valid (n := p.size)) hp.table
  have hframe := Routine.flowInto_frame hseed
  rw [applyClone_eq hp hr hseed (by rw [hframe]; rfl)] at hrun
  cases hrun
  obtain ⟨q1, hq1⟩ : ∃ q1, q1 = p.put i (noting r tuple) := ⟨_, rfl⟩
  have hmarks : Each Routine.Tame p q1 := hq1 ▸ each_put .refl hr rfl
  have hqueues : Each Routine.Tame q1 (q1.requeueCallers i) :=
    (requeueCallers_spec q1 i).1.mono fun _ _ _ _ hq => hq.toPiles.tame
  have hheedful := (h.abides hmarks.abides).abides hqueues.abides
  have hsparing : ∀ {o}, p.Sparing o → (q1.requeueCallers i).Sparing o :=
    fun ho => (ho.abides hmarks.abides).abides hqueues.abides
  have hdirectory : (q1.requeueCallers i).directory = p.directory := by
    rw [hqueues.frame, hmarks.frame]
  have hnew : ∀ name,
      (q1.requeueCallers i).size ∉ (q1.requeueCallers i).directory.candidates name := by
    rw [hqueues.size, hmarks.size, hdirectory]
    exact hp.unlisted
  rw [← hq1]
  refine ⟨hheedful.push hnew (fun k => ?_) ?_ fun o ho => ?_, fun o ho => (hsparing ho).push hnew⟩
  · have hfacts : clone.facts = (r.clone p.size tuple).facts := by rw [hframe]
    exact Routine.target?_fresh hfacts k
  · rw [hframe]
    rfl
  · have hclone : clone.Spared p.directory.Dynamic := by
      rw [hframe]
      exact ⟨rfl, hspared.plain⟩
    have horigin : clone.origin = some (r.origin.getD r.id) := by
      rw [hframe]
      rfl
    rw [hdirectory]
    refine ⟨hclone, hsparing ?_⟩
    obtain rfl := Option.mem_unique horigin ho
    rcases ho' : r.origin with _ | o
    · exact ⟨r, by rw [Option.getD_none, hp.ids i r hr, hr], hspared⟩
    · exact (h.spared r (mem_of_getElem? hr) o ho').2

theorem Heedful.applyAll : ∀ {sets : List (Nat × List Tuple)} {p p' : Program} {n : Nat},
    p.Heedful → p.Kept → p.Entered → (∀ x ∈ sets, p.Sparing x.1) →
    (∀ x ∈ sets, ∀ tuple ∈ x.2, KnowsTuple p.table tuple) → applyAll sets p = .ok (n, p') →
    p'.Heedful
  | [], p, p', n, hp, _, _, _, _, h => by
    cases h
    exact hp
  | (i, set) :: sets, p, p', n, hp, hkept, hentered, hsparing, hsets, h => by
    have htweaks := each_candidates hkept i (hsets _ (.head _))
    have htame : Each Routine.Tame p (p.update i fun r => { r with candidates := set }) := by
      rcases hr : p.routines[i]? with _ | r
      · rw [update_of_none hr]
        exact .refl .refl p
      · rw [update_eq_put hr]
        exact each_put .refl hr rfl
    have hcont := Continues.tweak hkept hentered htweaks
    have htable : (p.update i fun r => { r with candidates := set }).table = p.table := by
      rw [htweaks.frame]
    unfold Program.applyAll at h
    simp only at h
    generalize (p.update i fun r => { r with candidates := set }) = p1 at *
    have hheedful := hp.abides htame.abides
    have hkept1 := hcont.kept hkept
    have hsparing1 : ∀ x ∈ sets, p1.Sparing x.1 :=
      fun x hx => (hsparing x (.tail _ hx)).abides htame.abides
    have hsets1 : ∀ x ∈ sets, ∀ tuple ∈ x.2, KnowsTuple p1.table tuple :=
      fun x hx => htable ▸ hsets x (.tail _ hx)
    split at h
    next r tuple hchoice =>
      obtain ⟨r1, hr, hmap⟩ := Option.bind_eq_some_iff.1 hchoice
      obtain ⟨tuple1, hfind, heq⟩ := Option.map_eq_some_iff.1 hmap
      cases heq
      have htuple := (hkept1.valid hr).candidates tuple (mem_of_find?_eq_some hfind)
      obtain ⟨s, hs, hspared⟩ := (hsparing _ (.head _)).abides htame.abides
      obtain rfl := Option.mem_unique hs hr
      obtain ⟨p2, hclone, hcont2⟩ := applyClone_spec hkept1 hcont.entered hr htuple
      obtain ⟨p3, hclone3, h⟩ := ok_of_except h
      obtain rfl := Except.ok.inj (hclone.symm.trans hclone3)
      obtain ⟨⟨k, p3⟩, hrest, h⟩ := ok_of_except h
      cases h
      obtain ⟨hheedful2, hsparing2⟩ := hheedful.applyClone hkept1 hr hspared htuple hclone
      exact Heedful.applyAll hheedful2 (hcont2.kept hkept1) hcont2.entered
        (fun x hx => hsparing2 _ (hsparing1 x hx))
        (fun x hx tuple ht => (hsets1 x hx tuple ht).mono hcont2.turns.table) hrest
    next => exact Heedful.applyAll hheedful hkept1 hcont.entered hsparing1 hsets1 h

/-- **Clones** are made only of routines that are spared. -/
theorem Heedful.specialize (h : p.Heedful) (hp : p.Kept) (hentered : p.Entered) (hquiet : p.Quiet)
    (hfollowed : ∀ r ∈ p.routines, r.Followed) (hs : ∀ s ∈ plan.strategies, s.SoundOn p) {n : Nat}
    (hrun : p.specialize plan.config plan.strategies = .ok (n, p')) : p'.Heedful := by
  unfold Program.specialize at hrun
  split at hrun
  · cases hrun
    exact h
  obtain ⟨sets, t, hgather, ht, hext, hsets⟩ := gatherAll_spec hs (p.eligible plan.config)
    (fun r hr => mem_of_mem_filter hr) hp.table (.refl p.table)
  obtain ⟨hids, -⟩ := gatherAll_paces hgather
  rw [hgather] at hrun
  have hconsult : p.Abides { p with table := t } := abides_of_eq rfl rfl rfl
  refine (h.abides hconsult).applyAll ((Adjust.extend hext ht).kept hp) hentered (fun x hx => ?_)
    hsets hrun
  have hmem : x.1 ∈ (p.eligible plan.config).map (·.id) := hids ▸ mem_map_of_mem hx
  obtain ⟨r, hr, heq⟩ := mem_map.1 hmem
  obtain ⟨hr, heligible⟩ := mem_filter.1 hr
  have hunmarked : r.flags.dynamicCall = false := by
    simp only [Routine.eligible, Bool.and_eq_true, Bool.not_eq_true'] at heligible
    exact heligible.1.2
  have hspared : r.Spared p.directory.Dynamic :=
    (h.marked r hr).spared (hfollowed r hr) (hentered r hr) (hquiet r hr) hunmarked
  obtain ⟨i, hi⟩ := getElem?_of_mem hr
  have hid : x.1 = i := heq.symm.trans (hp.ids i r hi)
  exact Sparing.abides ⟨r, hid ▸ hi, hspared⟩ hconsult

/-! ### Runs -/

/-- Routines that lead to a dynamic call are said to. -/
def Forwarded (p : Program) : Prop :=
  ∀ r ∈ p.routines, p.ReachesDynamic r.id → r.flags.callsDynamic = true

theorem forwarded_forwardDynamic (hp : p.Kept) : p.forwardDynamic.Forwarded := by
  intro r' hr' ⟨d', hd', hflag, hpath⟩
  have hmarks := forwardDynamic_marks hp
  obtain ⟨i, hi⟩ := getElem?_of_mem hr'
  obtain ⟨r, -, hframe, -, hcalls⟩ := hmarks.back hi
  obtain ⟨j, hj⟩ := getElem?_of_mem hd'
  obtain ⟨d, hd, hframe', hsame, -⟩ := hmarks.back hj
  refine hcalls.2 (.inr ⟨d, mem_of_getElem? hd, hsame ▸ hflag, ?_⟩)
  rw [hframe, hframe'] at hpath
  exact hpath

theorem Continues.followed (h : Continues p p') (hp : p.Kept)
    (hfollowed : ∀ r ∈ p.routines, r.Followed) : ∀ r ∈ p'.routines, r.Followed :=
  followed_of_turns h.turns hp hfollowed

/-- **An iteration** keeps a program heedful, and forwards its marks. -/
theorem Heedful.iteration (h : p.Heedful) (hp : p.Sound) (hentered : p.Entered)
    (hfollowed : ∀ r ∈ p.routines, r.Followed) (hextra : ∀ s ∈ plan.extra, s.Serves p)
    {x : Nat × Bool} (hrun : iteration plan p = .ok x p') : p'.Heedful ∧ p'.Forwarded := by
  obtain ⟨⟨⟩, p1, hsettle, hrun⟩ := ok_of_bind hrun
  obtain ⟨hrounds, hquiet1⟩ := (settle_ends hp.toKept hentered).ok hsettle
  have hsound1 := hrounds.sound hp
  have hheedful1 : p1.Heedful := (hrounds.beats hp).heedful (Mid.kept_of hp.toKept) h
  have hstable : Each Routine.Tame p1 p1.markStable := each_map p1 _ fun r _ => by split <;> rfl
  have hcont2 := hrounds.toContinues.trans
    (Continues.tweak hsound1.toKept hrounds.entered (each_markStable hsound1.toKept))
  have hquiet2 : p1.markStable.Quiet := quiet_map hquiet1 fun r => by split <;> rfl
  rw [bind_of_ok (show (modify markStable : Run Unit) p1 = .ok () p1.markStable from rfl),
    get_bind] at hrun
  obtain ⟨n, p3, hattempt, hrun⟩ := ok_of_bind hrun
  have hspecialize : p1.markStable.specialize plan.config plan.strategies = .ok (n, p3) :=
    (attempt_cases (Q := fun n q => p1.markStable.specialize plan.config plan.strategies = .ok (n, q))
      (E := fun _ _ => True) (fun _ _ h => h) fun _ _ => trivial).ok hattempt
  have hkept2 := hcont2.kept hp.toKept
  have hsoundOn : ∀ s ∈ plan.strategies, s.SoundOn p1.markStable := fun s hs =>
    ((strategies_serve hextra s hs).continues hcont2).soundOn hkept2
  have hheedful3 : p3.Heedful := (hheedful1.abides hstable.abides).specialize hkept2 hcont2.entered
    hquiet2 (hcont2.followed hp.toKept hfollowed) hsoundOn hspecialize
  obtain ⟨n', q, hspecialize', hcont3⟩ := specialize_spec hkept2 hcont2.entered plan.config hsoundOn
  rw [hspecialize] at hspecialize'
  cases hspecialize'
  have hkept3 := hcont3.kept hkept2
  cases hrun
  exact ⟨hheedful3.abides (abides_forwardDynamic hkept3), forwarded_forwardDynamic hkept3⟩

theorem Heedful.iterate : ∀ {left done seen : Nat} {p p' : Program} {o : Outcome}, p.Heedful →
    p.Sound → p.Entered → (∀ r ∈ p.routines, r.Followed) → (∀ s ∈ plan.extra, s.Serves p) →
    iterate plan done seen left p = .ok o p' →
    p'.Heedful ∧ (o.isConverged = true → p'.Forwarded)
  | 0, done, seen, p, p', o, h, _, _, _, _, hrun => by
    unfold Program.iterate at hrun
    split at hrun <;> cases hrun
    · exact ⟨h, fun h => by cases h⟩
    · exact ⟨h.abides (abides_of_eq rfl rfl rfl), fun h => by cases h⟩
  | left + 1, done, seen, p, p', o, h, hp, hentered, hfollowed, hextra, hrun => by
    unfold Program.iterate at hrun
    split at hrun
    · cases hrun
      exact ⟨h, fun h => by cases h⟩
    obtain ⟨⟨asked, finished⟩, p1, hone, hrun⟩ := ok_of_bind hrun
    obtain ⟨hheedful, hforwarded⟩ := h.iteration hp hentered hfollowed hextra hone
    obtain ⟨hcont, -⟩ := (iteration_ends hp.toKept hentered hextra).ok hone
    rcases finished with _ | _
    · exact hheedful.iterate (hcont.sound hp) hcont.entered (hcont.followed hp.toKept hfollowed)
        (fun s hs => (hextra s hs).continues hcont) hrun
    · cases hrun
      exact ⟨hheedful, fun _ => hforwarded⟩

/-- **A run of the analysis** keeps a program heedful.  Once it converges, marks are forwarded. -/
theorem Heedful.analyze (h : p.Heedful) (hp : p.Sound) (hfollowed : ∀ r ∈ p.routines, r.Followed)
    (hextra : ∀ s ∈ plan.extra, s.Sound) {o : Outcome} (hrun : p.analyze plan = .ok o p') :
    p'.Heedful ∧ (o.isConverged = true → p'.Forwarded) := by
  obtain ⟨rs, henter, hcont, -, heq⟩ := analyze_enters hp.toKept
  have htame : List.Forall₂ Routine.Tame p.routines rs := (enterAll_enter henter).imp fun r r' hone => by
    rcases enterOne_cases hone with ⟨changed, hseed⟩ | ⟨rfl, -⟩
    · exact Routine.seed_tame hseed
    · exact .refl _
  have hentering : p.Abides (p.entering rs) := abides_of_tame (each_of_forall₂ htame) rfl rfl
  rw [heq plan] at hrun
  obtain ⟨o', p2, hiterate, hrun⟩ := ok_of_bind hrun
  obtain ⟨hheedful, hforwarded⟩ := (h.abides hentering).iterate (hcont.sound hp) hcont.entered
    (hcont.followed hp.toKept hfollowed)
    (fun s hs => (serves_of_sound hp hextra s hs).continues hcont) hiterate
  have hsaid : ∀ diagnostics, Program.Heedful { p2 with diagnostics, outcome := some o' } :=
    fun _ => hheedful.abides (abides_of_eq rfl rfl rfl)
  rcases hconverged : o'.isConverged <;> rw [hconverged] at hrun <;> cases hrun
  · exact ⟨hsaid _, fun h => by rw [hconverged] at h; cases h⟩
  · exact ⟨hsaid _, fun _ => hforwarded hconverged⟩

/-! ### Histories in which nothing is forgotten -/

/-- A program as it comes about, while no routine is invalidated and no run fails. -/
abbrev Unbroken (p : Program) : Prop :=
  Operations (fun plan => ∀ s ∈ plan.extra, s.Sound) (fun e => e ≠ .fail ∧ ∀ id, e ≠ .invalidate id)
    .empty p

theorem Unbroken.history (h : p.Unbroken) : p.History :=
  Relation.ReflTransGen.mono (fun _ _ ⟨e, hkind, hop⟩ => ⟨e, hkind.1, hop⟩) _ _ h

theorem Unbroken.heedful (h : p.Unbroken) : p.Heedful := by
  induction h with
  | refl => exact heedful_empty
  | @tail p _ hp hop ih =>
    obtain ⟨_, hkind, hop⟩ := hop
    have hhistory := Unbroken.history hp
    cases hop with
    | addRoutine hadd =>
      obtain ⟨r, table, hdecl, -, rfl⟩ := addRoutine_cases hadd
      obtain ⟨-, -, hfresh⟩ := Routine.ofDecl_spec hhistory.sound.table hdecl
      have hextended : p.Abides { p with table } := abides_of_eq rfl rfl rfl
      have hdeclared : (push { p with table } r).Heedful := by
        refine (ih.abides hextended).push hhistory.sound.unlisted (fun k => ?_) ?_ fun o ho => ?_
        · cases hfresh
          exact Routine.target?_fresh rfl k
        · cases hfresh
          rfl
        · rw [(Routine.ofDecl_derived hdecl).1] at ho
          cases ho
      exact hdeclared.abides (abides_of_eq rfl rfl rfl)
    | declareClass | setResolver => exact ih.abides (abides_of_eq rfl rfl rfl)
    | requeue hrun =>
      obtain ⟨r, hr, rfl⟩ := requeue_cases hrun
      have htame : r.Tame { r with pending := r.pending.insertAll r.reached } := rfl
      exact (ih.abides (each_put .refl hr htame).abides).abides (abides_of_eq rfl rfl rfl)
    | analyze hextra hrun => exact (ih.analyze hhistory.sound hhistory.followed hextra hrun).1
    | invalidate => exact absurd rfl (hkind.2 _)
    | fail => exact absurd rfl hkind.1

/-- **Marks for dynamic calls are exact, and keep routines from being cloned.**  While nothing is
forgotten and no run fails, however a program comes about, after a run that converges a routine
is said to lead to a dynamic call if and only if by calls, of any number and in cycles or not, it
leads to a routine that makes one.  Routines with a dynamic call in a block that can be reached are
those that make one, and they have no clones and are none. -/
theorem Unbroken.dynamic_marks_exact (h : p.Unbroken) (hextra : ∀ s ∈ plan.extra, s.Sound) {n : Nat}
    (hrun : p.analyze plan = .ok (.converged n) p') :
    (∀ r ∈ p'.routines, r.flags.callsDynamic = true ↔ p'.ReachesDynamic r.id) ∧
    (∀ r ∈ p'.routines, (∀ b, r.graph.Reflects p'.directory.Dynamic b → r.flags.dynamicCall = true) ∧
      (r.flags.dynamicCall = true → ∃ b, r.graph.Reflects Library.Dynamic b)) ∧
    ∀ r ∈ p'.routines, r.flags.dynamicCall = true →
      r.origin = none ∧ ∀ s ∈ p'.routines, s.origin ≠ some r.id := by
  have hsound := h.history.sound
  have hfollowed := (h.history.analyze hextra hrun).followed
  obtain ⟨hcont, hquiet⟩ := analyze_ok hsound hextra hrun
  obtain ⟨hheedful, hforwarded⟩ := h.heedful.analyze hsound h.history.followed hextra hrun
  refine ⟨fun r hr => ⟨hheedful.backed r hr, hforwarded rfl r hr⟩,
    fun r hr => ⟨fun b hb => ?_, hheedful.caused r hr⟩, fun r hr hflag => ⟨?_, fun s hs ho => ?_⟩⟩
  · by_contra hflag
    have hspared := (hheedful.marked r hr).spared (hfollowed r hr) (hcont.entered r hr)
      (hquiet rfl r hr) (by simpa using hflag)
    exact hspared.plain b hb
  · rcases ho : r.origin with _ | o
    · rfl
    · have hunmarked := (hheedful.spared r hr o ho).1.unmarked
      rw [hflag] at hunmarked
      cases hunmarked
  · obtain ⟨q, hq, hspared⟩ := (hheedful.spared s hs r.id ho).2
    obtain ⟨i, hi⟩ := List.getElem?_of_mem hr
    rw [(hcont.sound hsound).ids i r hi, hi] at hq
    obtain rfl := Option.some.inj hq
    have hunmarked := hspared.unmarked
    rw [hflag] at hunmarked
    cases hunmarked

/-- `peek` makes a dynamic call.  `ping` and `pong` call each other, and `pong` calls `peek`.  `main`
calls all of them, and `plain`. -/
def reflecting : List RoutineDecl :=
  [{ name := "peek"
     params := [{ name := "x" }]
     exported := false
     body := [.ret (some (.call () "compact" [.var () "x"]))] },
   { name := "ping"
     params := [{ name := "x" }]
     exported := false
     body := [.eval (.call () "pong" [.var () "x"])] },
   { name := "pong"
     params := [{ name := "x" }]
     exported := false
     body := [.eval (.call () "ping" [.var () "x"]), .eval (.call () "peek" [.var () "x"])] },
   { name := "plain"
     params := [{ name := "x" }]
     exported := false
     body := [.ret (some (.var () "x"))] },
   { name := "main"
     body := [.eval (.call () "ping" [.lit () .int]), .eval (.call () "peek" [.lit () .string]),
       .eval (.call () "plain" [.call () "mystery" []]), .eval (.call () "plain" [.lit () .int])] }]

/-- The marks of `peek`, `ping` and `plain`, and clones of the latter two. -/
def reflectingMarks (p : Program) : Bool :=
  p.routines.any (fun r => r.id == 0 && r.flags.dynamicCall) &&
    p.routines.any (fun r => r.id == 1 && r.flags.callsDynamic) &&
    p.routines.any (fun r => r.id == 3 && !r.flags.callsDynamic) &&
    p.routines.any (fun r => r.origin == some 1) && p.routines.any (fun r => r.origin == some 3)

/-- `ping` leads to the dynamic call of `peek`, and `plain` does not.  Both are cloned, and `peek` is
not. -/
theorem reflecting_marks_exact :
    ∃ n p, (ofDecls reflecting).analyze {} = .ok (.converged n) p ∧
      p.ReachesDynamic 1 ∧ ¬ p.ReachesDynamic 3 ∧ (∃ s ∈ p.routines, s.origin = some 1) ∧
      (∃ s ∈ p.routines, s.origin = some 3) ∧ ∀ s ∈ p.routines, s.origin ≠ some 0 := by
  obtain ⟨n, p, hrun, hgood⟩ :=
    exists_converged (ofDecls reflecting) {} reflectingMarks (by decide +kernel)
  obtain ⟨hcalls, -, hclones⟩ :=
    Unbroken.dynamic_marks_exact (operations_ofDecls ⟨nofun, nofun⟩ reflecting) (by simp) hrun
  simp only [reflectingMarks, Bool.and_eq_true, List.any_eq_true, beq_iff_eq,
    Bool.not_eq_true'] at hgood
  obtain ⟨⟨⟨⟨⟨peek, hpeek, hpeekId, hmark⟩, ping, hping, hpingId, hleads⟩, plain, hplain, hplainId,
    hplainLeads⟩, hpingClone⟩, hplainClone⟩ := hgood
  refine ⟨n, p, hrun, hpingId ▸ (hcalls ping hping).1 hleads, fun hreach => ?_, hpingClone,
    hplainClone, hpeekId ▸ (hclones peek hpeek hmark).2⟩
  have hcontra := (hcalls plain hplain).2 (hplainId ▸ hreach)
  rw [hplainLeads] at hcontra
  cases hcontra

end Program
end ShapeFlow
