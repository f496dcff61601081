/-
# No variable is discovered late

The variables of a routine are collected when it is made, from the operations and exits of its
graph and the expressions inside them.  A walk finds its variables by name as it goes, in an order
of its own, and would make one that it does not find.  It finds them all.  So a routine has the same
variables at any time, whatever happens to the program, and each state that is recorded for a block,
or is handed on to one, has a slot for each of them and no more.

Key definitions: `Graph.Mentions`, `Routine.AsMade`.
Key theorems: `Graph.mem_names`, `Happens.alters`, `Infer.Walks.slots`, `Program.no_variable_late`.
-/
import ShapeFlow.Proofs.Failures
import ShapeFlow.Proofs.Untracked
import ShapeFlow.Proofs.Visits

namespace ShapeFlow

open ShapeFlow.Flow Infer List

/-! ### Names -/

theorem nodup_firstMentions (l : List String) : (firstMentions l).Nodup := by
  refine foldlRecOn l _ nodup_nil fun seen hseen name _ => ?_
  split
  next => exact hseen
  next hnew =>
    refine nodup_append.2 ⟨hseen, nodup_singleton name, fun x hx y hy => ?_⟩
    rintro rfl
    exact hnew (contains_iff_mem.2 (mem_singleton.1 hy ▸ hx))

namespace Graph

variable {α : Type} {g : Graph α} {x : String} {b : Block α} {e : Expr α}

/-- Something in the graph names the variable. -/
inductive Mentions (g : Graph α) (x : String) : Prop
  | expr {e : Expr α} : e ∈ g.exprs → e.varName? = some x → Mentions g x
  | static {b : Block α} {init : Option (Expr α)} : b ∈ g.blocks → .static x init ∈ b.ops →
    Mentions g x
  | global {b : Block α} {names : List String} : b ∈ g.blocks → .global names ∈ b.ops → x ∈ names →
    Mentions g x
  | unset {b : Block α} {names : List String} : b ∈ g.blocks → .unset names ∈ b.ops → x ∈ names →
    Mentions g x
  | key {b : Block α} {source : Expr α} {value : String} : b ∈ g.blocks →
    b.exit = .each source (some x) value → Mentions g x
  | value {b : Block α} {source : Expr α} {key : Option String} : b ∈ g.blocks →
    b.exit = .each source key x → Mentions g x

theorem mentions_of_root (hb : b ∈ g.blocks) (he : e ∈ b.ops.flatMap Op.exprs ++ b.exit.exprs)
    (hx : x ∈ e.names) : g.Mentions x := by
  obtain ⟨y, hy, hname⟩ := mem_filterMap.1 hx
  exact .expr (mem_flatMap.2 ⟨e, mem_flatMap.2 ⟨b, hb, he⟩, hy⟩) hname

/-- **The names of a graph** are those that are mentioned in it. -/
theorem mem_names : x ∈ g.names ↔ g.Mentions x := by
  rw [names, mem_firstMentions, mem_flatMap]
  constructor
  · rintro ⟨b, hb, hx⟩
    rcases mem_append.1 hx with hx | hx
    · obtain ⟨o, ho, hx⟩ := mem_flatMap.1 hx
      have hroot : ∀ e ∈ o.exprs, x ∈ e.names → g.Mentions x := fun e he =>
        mentions_of_root hb (mem_append_left _ (mem_flatMap.2 ⟨o, ho, he⟩))
      cases o with
      | eval e => exact hroot e (.head _) hx
      | static name init =>
        rcases mem_cons.1 hx with rfl | hx
        · exact .static hb ho
        · obtain ⟨e, he, hx⟩ := mem_flatMap.1 hx
          exact hroot e he hx
      | global names => exact .global hb ho hx
      | unset names => exact .unset hb ho hx
    · have hroot : ∀ e ∈ b.exit.exprs, x ∈ e.names → g.Mentions x := fun e he =>
        mentions_of_root hb (mem_append_right _ he)
      rcases hexit : b.exit with _ | cond | ⟨source, key, value⟩ | e <;> rw [hexit] at hx hroot
      · cases hx
      · exact hroot cond (.head _) hx
      · rcases mem_append.1 hx with hx | hx
        · rcases mem_append.1 hx with hx | hx
          · exact hroot source (.head _) hx
          · exact .key hb (Option.mem_toList.1 hx ▸ hexit)
        · exact .value hb (mem_singleton.1 hx ▸ hexit)
      · obtain ⟨e, he, hx⟩ := mem_flatMap.1 hx
        exact hroot e he hx
  · intro h
    cases h with
    | @expr e he hname =>
      obtain ⟨root, hroot, hwalk⟩ := mem_flatMap.1 he
      obtain ⟨b, hb, hroot⟩ := mem_flatMap.1 hroot
      have hx : x ∈ root.names := mem_filterMap.2 ⟨e, hwalk, hname⟩
      refine ⟨b, hb, mem_append.2 ((mem_append.1 hroot).imp (fun h => ?_) fun h => ?_)⟩
      · obtain ⟨o, ho, h⟩ := mem_flatMap.1 h
        exact mem_flatMap.2 ⟨o, ho, Op.names_of_exprs h x hx⟩
      · exact Exit.names_of_exprs h x hx
    | static hb ho => exact ⟨_, hb, mem_append_left _ (mem_flatMap.2 ⟨_, ho, .head _⟩)⟩
    | global hb ho hx | unset hb ho hx =>
      exact ⟨_, hb, mem_append_left _ (mem_flatMap.2 ⟨_, ho, hx⟩)⟩
    | key hb hexit | value hb hexit => exact ⟨_, hb, mem_append_right _ (by simp [hexit, Exit.names])⟩

end Graph

/-! ### Routines -/

namespace Routine

variable {r r' : Routine}

/-- The variables are those that a new routine of this text has. -/
def AsMade (r : Routine) : Prop :=
  r.scope.names = (fresh r.id r.name r.params r.graph r.exported).scope.names

theorem Fresh.asMade {t : ShapeTable} {id : Nat} (h : r.Fresh t id) : r.AsMade := by
  cases h with
  | @intro name params graph exported =>
    have hparams := map_params_fresh (f := fun p => (p.name, p.byRef)) (fun _ _ => rfl) id name params
      graph exported
    show _ = (Scope.ofRoutine id ((fresh id name params graph exported).params.map _) _).2.names
    rw [hparams]
    rfl

theorem AsMade.same (h : r.AsMade) (hs : SameText r r') : r'.AsMade := by
  unfold AsMade
  rw [hs.names, hs.id, hs.name, hs.params, hs.graph, hs.exported]
  exact h

end Routine

variable {m m' : Mid} {i : Nat} {r : Routine}

/-- **Whatever happens, a routine keeps its text**, and its variables with it. -/
theorem Happens.alters (h : Happens m m') (hm : m.Kept) : Mid.Alters Routine.SameText m m' := by
  have hrefl : ∀ r : Routine, r.SameText r := fun r => .of_frame rfl
  rcases h with h | h
  · cases h with
    | move hmove =>
      have hevolves := hmove.evolves hm
      refine ⟨fun i r hr => ?_, hevolves.new⟩
      obtain ⟨r', hr', hone⟩ := hevolves.old i r hr
      exact ⟨r', hr', hone.text hm hr⟩
    | @notify p sigs =>
      have hpiles := Program.notify_piles sigs p
      refine Mid.Alters.mono (Program.alters_each hpiles) fun r r' hone => .of_frame ?_
      rw [hone.frame]
  · cases h with
    | enter hr _ _ _ hroutine hwalk =>
      have htext := hwalk.advances.toGrows.text
      rw [hroutine] at htext
      exact Program.alters_put hr (Program.routines_put hr _) hrefl { htext with }
    | drop => exact Program.alters_same rfl hrefl

theorem Elapses.routine (h : Elapses m m') (hm : m.Kept) (hr : m.program.routines[i]? = some r) :
    ∃ r', m'.program.routines[i]? = some r' ∧ r'.graph = r.graph ∧ r'.scope.names = r.scope.names := by
  induction h with
  | refl => exact ⟨r, hr, rfl, rfl⟩
  | tail hbefore hone ih =>
    obtain ⟨r₁, hr₁, hgraph, hnames⟩ := ih
    obtain ⟨r', hr', htext⟩ := (hone.alters (Elapses.kept hbefore hm)).old i r₁ hr₁
    exact ⟨r', hr', htext.graph.trans hgraph, htext.names.trans hnames⟩

theorem Elapses.asMade (h : Elapses m m') (hm : m.Kept) (hp : ∀ r ∈ m.program.routines, r.AsMade) :
    ∀ r ∈ m'.program.routines, r.AsMade := by
  induction h with
  | refl => exact hp
  | tail hbefore hone ih =>
    intro r' hr'
    obtain ⟨i, hi⟩ := getElem?_of_mem hr'
    rcases (hone.alters (Elapses.kept hbefore hm)).back hi with ⟨r, hr, htext⟩ | hfresh
    · exact (ih r (mem_of_getElem? hr)).same htext
    · exact hfresh.asMade

/-! ### States -/

namespace Infer

variable {c : Setting} {w w' : Walker}

theorem Way.Held.left {g : Place} {t : ShapeTable} {way : Way} {s : State} (h : way.Held g t)
    (hs : s ∈ way.left) : State.Fits g.routine g.vars s := by
  cases way with
  | onward held yes no => exact (h.1 s hs).1
  | back held returned => exact mem_singleton.1 hs ▸ h.1.1

/-- **A walk makes no variables**, and the states in which it leaves the block, some of which it hands
on, have a slot for each that there is. -/
theorem Walks.slots (h : Walks c w w') : ∃ way w₁, Leads c w way w₁ ∧ depart c way w₁ = .ok () w' ∧
    w₁.routine.scope.names = w.routine.scope.names ∧
    w'.routine.scope.names = w.routine.scope.names ∧
    ∀ s ∈ way.left ++ way.passed, s.slots.length = w.routine.scope.size := by
  obtain ⟨way, w₁, hleads, hdepart⟩ := exists_leads h.before.routine.toHeld h.run
  obtain ⟨s₀, blk, hs₀, hblk, heval⟩ := hleads
  obtain ⟨-, hadvances, hheld⟩ :=
    (evaluate_goes (h.before.whole h.here) h.before.covers hs₀ hblk).ok heval
  refine ⟨way, w₁, ⟨s₀, blk, hs₀, hblk, heval⟩, hdepart, hadvances.names, h.advances.names,
    fun s hs => ?_⟩
  have hfits := hheld.left ((mem_append.1 hs).elim id fun hs => (hheld.passed hs).1)
  exact hfits.size.trans (Scope.length_names _)

end Infer

namespace Program

/-- **No variable is discovered late.**  The names of a graph list each variable that some
operation, exit or nested expression mentions, once.  So from any program on, with runs that go well
and runs that fail, a routine, declared or cloned, has just the variables that a new routine of its
parameters and its graph has, among them all that its code mentions, and has them at any time after;
the states recorded for its blocks have a slot for each variable, and so have the states in which a
walk leaves a block and those it hands on. -/
theorem no_variable_late :
    (∀ g : Graph Nat, g.names.Nodup ∧ ∀ x, x ∈ g.names ↔ g.Mentions x) ∧
    ∀ (p : Program) (D : Set Nat), p.Past D → ∀ m, Elapses (.of p) m →
      (∀ (i : Nat) (r : Routine), m.program.routines[i]? = some r → r.AsMade ∧
        (∀ x ∈ r.graph.names, x ∈ r.scope.names) ∧
        (∀ b s, r.input? b = some s → s.slots.length = r.scope.size) ∧
        ∀ m', Elapses m m' → ∃ r', m'.program.routines[i]? = some r' ∧ r'.graph = r.graph ∧
          r'.scope.names = r.scope.names) ∧
      ∀ (v : Visit) (m' : Mid), v.Takes m m' → ∃ way w₁, Leads v.setting v.start way w₁ ∧
        depart v.setting way w₁ = .ok () v.finish ∧
        w₁.routine.scope.names = v.start.routine.scope.names ∧
        v.finish.routine.scope.names = v.start.routine.scope.names ∧
        ∀ s ∈ way.left ++ way.passed, s.slots.length = v.start.routine.scope.size := by
  refine ⟨fun g => ⟨nodup_firstMentions _, fun x => Graph.mem_names⟩, fun p D hp m helapses => ?_⟩
  have hkept : m.Kept := helapses.kept (Mid.kept_of hp.kept)
  refine ⟨fun i r hr => ?_, fun v m' htakes => ?_⟩
  · have hvalid := hkept.program.valid hr
    have hmade := Elapses.asMade (hp.elapses.trans helapses) (Mid.kept_of sound_empty.toKept)
      fun _ hr => (not_mem_nil hr).elim
    exact ⟨hmade r (mem_of_getElem? hr), hvalid.names, fun b s hs => (hvalid.fits b s hs).size,
      fun m' h => h.routine hkept hr⟩
  · obtain ⟨-, -, -, -, -, -, hwalk⟩ := htakes
    exact hwalk.slots

/-- A program that has been analysed, with a clone in it. -/
theorem no_variable_late_recursive : ∃ n p', (ofDecls recursive).analyze {} = .ok (.converged n) p' ∧
    (∃ r ∈ p'.routines, r.origin.isSome = true ∧ (r.input? Graph.entry).isSome = true) ∧
    ∀ (i : Nat) (r : Routine), p'.routines[i]? = some r → ∀ b s, r.input? b = some s →
      s.slots.length = r.scope.size := by
  obtain ⟨n, p', hrun, hgood⟩ := exists_converged (ofDecls recursive) {} (fun p' =>
    p'.routines.any fun r => r.origin.isSome && (r.input? Graph.entry).isSome) (by decide +kernel)
  have hpast := (past_ofDecls recursive).next trivial (.analyze (by simp) hrun)
  refine ⟨n, p', hrun, by simpa using hgood, fun i r hr => ?_⟩
  exact ((no_variable_late.2 p' ∅ hpast (.of p') .refl).1 i r hr).2.2.1

end Program

end ShapeFlow
