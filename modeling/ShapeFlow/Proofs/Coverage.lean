/-
# What a run covers

A target is recorded where a call is bound, and calls are bound by walks, through
blocks that have been reached.  So targets are found only at calls that can be
reached, whatever has happened to the program.  And a run that converges leaves no
block pending: each block that can be reached has been gone through to its end, and
its calls, at any depth, have been bound.

Key definitions: `Graph.Calls`, `Routine.Aware`, `Routine.Explored`.
Key theorems: `Program.History.aware`, `Program.History.covers_reachable`.
-/
import ShapeFlow.Proofs.Failures

namespace ShapeFlow

open ShapeFlow.Flow Infer

/-! ### Calls that can be reached -/

/-- Whether the expression is a call. -/
def Expr.isCall {α : Type} : Expr α → Bool
  | .call .. => true
  | _ => false

theorem Expr.exists_of_isCall {e : Expr Nat} (h : e.isCall = true) :
    ∃ name args, e = .call e.tag name args := by
  cases e with
  | call k name args => exact ⟨name, args, rfl⟩
  | _ => cases h

namespace Graph

variable {g : Graph Nat} {e : Expr Nat} {k : Nat}

/-- Expression `k` is a call, at any depth, in a block that can be reached. -/
def Calls (g : Graph Nat) (k : Nat) : Prop :=
  ∃ b name args, g.Reach b ∧ .call k name args ∈ g.exprsOf b

theorem Sound.eq_of_tag (h : g.Sound) {x : Expr Nat} (he : e ∈ g.exprs) (hx : x ∈ g.exprs)
    (htag : e.tag = x.tag) : e = x :=
  List.inj_on_of_nodup_map (h.numbered.nodup_iff.2 List.nodup_range) he hx htag

theorem Sound.calls_tag (h : g.Sound) (he : e ∈ g.exprs) :
    g.Calls e.tag ↔ e.isCall = true ∧ ∃ b, g.Reach b ∧ e ∈ g.exprsOf b := by
  constructor
  · rintro ⟨b, name, args, hreach, hcall⟩
    have hsame : e = .call e.tag name args :=
      h.eq_of_tag he (mem_exprs_of_mem_exprsOf hcall) rfl
    exact ⟨by rw [hsame]; rfl, b, hreach, hsame ▸ hcall⟩
  · rintro ⟨hcall, b, hreach, hmem⟩
    obtain ⟨name, args, heq⟩ := Expr.exists_of_isCall hcall
    exact ⟨b, name, args, hreach, heq ▸ hmem⟩

end Graph

/-! ### Targets are found only where they should be -/

namespace Routine

variable {r r' : Routine}

/-- Only calls that can be reached have targets. -/
def Aware (r : Routine) : Prop := ∀ k, (r.target? k).isSome = true → r.graph.Calls k

theorem aware_of_blank {n : Nat} (h : r.facts = Array.replicate n {}) : r.Aware := by
  intro k hk
  unfold target? at hk
  rw [h, Array.getElem?_replicate] at hk
  split at hk <;> cases hk

/-- A walk binds calls of its own block, which has been reached. -/
theorem Aware.walk {c : Setting} {w w' : Walker} (h : w.routine.Aware) (hwalk : Walks c w w') :
    w'.routine.Aware := by
  intro k hk
  rw [hwalk.advances.graph]
  rcases hwalk.advances.targets k (fun hb => hb) with hsame | ⟨t, -, ⟨name, args, -, hcall, -⟩, -⟩
  · rw [hsame] at hk
    exact h k hk
  · exact ⟨c.block, name, args, hwalk.before.routine.reach _ hwalk.here, hcall⟩

theorem Evolves.aware {m : Mid} {i : Nat} (h : r.Evolves m r') (hm : m.Kept)
    (hr : m.program.routines[i]? = some r) (ha : r.Aware) : r'.Aware := by
  cases h with
  | stir hstirs =>
    rcases hstirs.stands hm hr with hstands | ⟨observed, rfl⟩
    · intro k hk
      unfold target? at hk
      rw [hstands.facts] at hk
      rw [hstands.graph]
      exact ha k hk
    · exact aware_of_blank (n := r.graph.exprCount) rfl
  | walk _ _ _ hroutine hwalk heq =>
    subst heq
    refine Aware.walk ?_ hwalk
    rw [hroutine]
    exact ha

/-- Just the blocks that can be reached have inputs, and just their calls have targets. -/
structure Explored (r : Routine) : Prop where
  blocks : ∀ b, (r.input? b).isSome = true ↔ r.graph.Reach b
  calls : ∀ k, (r.target? k).isSome = true ↔ r.graph.Calls k

/-- **When nothing is pending**, a routine that has been entered is explored. -/
theorem Followed.explored (h : r.Followed) (ha : r.Aware)
    (hreach : ∀ b, (r.input? b).isSome = true → r.graph.Reach b)
    (hentry : (r.input? Graph.entry).isSome = true) (hidle : r.pending.toList = []) : r.Explored where
  blocks b := ⟨hreach b, h.spread.complete hentry hidle b⟩
  calls k := by
    refine ⟨ha k, fun ⟨b, name, args, hb, hcall⟩ => ?_⟩
    rcases h.answered b (h.spread.complete hentry hidle b hb) with hpending | hall
    · rw [hidle] at hpending
      cases hpending
    · exact hall k name args hcall

end Routine

namespace Program

variable {p p' : Program}

/-- **At any time**, only calls that can be reached have targets. -/
theorem History.aware (h : p.History) : ∀ r ∈ p.routines, r.Aware := by
  refine h.moves.routines (Mid.kept_of sound_empty.toKept) (fun t i r hfresh => ?_)
    (fun m i r r' hm hr hevolves => hevolves.aware hm hr) (fun r hr => by cases hr)
  cases hfresh
  exact Routine.aware_of_blank rfl

/-- **A run covers exactly the code that can be reached.**  When it converges, a block has an
input just if there is a path to it from the entry, and an expression has a target just if it
is a call, at any depth, in such a block. -/
theorem History.covers_reachable (h : p.History) {plan : Plan} (hextra : ∀ s ∈ plan.extra, s.Sound)
    {n : Nat} (hrun : p.analyze plan = .ok (.converged n) p') : ∀ r ∈ p'.routines,
    (∀ b, (r.input? b).isSome = true ↔ r.graph.Reach b) ∧
    (∀ k, (r.target? k).isSome = true ↔ r.graph.Calls k) ∧
    ∀ e ∈ r.graph.exprs, (r.target? e.tag).isSome = true ↔
      e.isCall = true ∧ ∃ b, r.graph.Reach b ∧ e ∈ r.graph.exprsOf b := by
  intro r hr
  obtain ⟨hcont, hquiet⟩ := analyze_ok h.sound hextra hrun
  have hafter : p'.History := h.analyze hextra hrun
  have hvalid := hafter.sound.routines r hr
  have hexplored : r.Explored := (hafter.followed r hr).explored (hafter.aware r hr) hvalid.reach
    (hcont.entered r hr) (hquiet rfl r hr)
  exact ⟨hexplored.blocks, hexplored.calls,
    fun e he => (hexplored.calls e.tag).trans (hvalid.graph.calls_tag he)⟩

/-- `main` returns before it would call `f` a second time; the first call has another in its
argument. -/
def early : List RoutineDecl :=
  [{ name := "main"
     body := [.eval (.call () "f" [.call () "strlen" [.lit () .string]]), .ret none,
       .eval (.call () "f" [.lit () .int])] },
   { name := "f", params := [{ name := "x" }], exported := false
     body := [.ret (some (.var () "x"))] }]

theorem early_covered : ∃ n p' r, (ofDecls early).History ∧
    (ofDecls early).analyze {} = .ok (.converged n) p' ∧ p'.routines[0]? = some r ∧
    (∀ b, (r.input? b).isSome = true ↔ r.graph.Reach b) ∧
    (∀ e ∈ r.graph.exprs, (r.target? e.tag).isSome = true ↔
      e.isCall = true ∧ ∃ b, r.graph.Reach b ∧ e ∈ r.graph.exprsOf b) ∧
    r.graph.Calls 1 ∧ ¬ r.graph.Calls 3 ∧ ∃ b < r.graph.size, ¬ r.graph.Reach b := by
  obtain ⟨n, p', hrun, hgood⟩ := exists_converged (ofDecls early) {}
    (fun p' => p'.routines[0]?.any fun (r : Routine) => (r.target? 1).isSome && (r.target? 3).isNone &&
      (r.input? 1).isNone && decide (1 < r.graph.size)) (by decide +kernel)
  rcases hr : p'.routines[0]? with _ | r
  · rw [hr] at hgood
    cases hgood
  · simp only [hr, Option.any_some, Bool.and_eq_true, decide_eq_true_eq, Option.isNone_iff_eq_none]
      at hgood
    obtain ⟨⟨⟨hbound, hfree⟩, hinput⟩, hlt⟩ := hgood
    obtain ⟨hblocks, hcalls, hexprs⟩ := (history_ofDecls early).covers_reachable (by simp) hrun r
      (List.mem_of_getElem? hr)
    refine ⟨n, p', r, history_ofDecls early, hrun, hr, hblocks, hexprs, (hcalls 1).1 hbound, ?_,
      1, hlt, ?_⟩
    · rw [← hcalls 3, hfree]
      exact Bool.false_ne_true
    · rw [← hblocks 1, hinput]
      exact Bool.false_ne_true

end Program

end ShapeFlow
