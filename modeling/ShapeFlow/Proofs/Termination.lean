/-
# The analysis terminates

Whatever has happened to a program, and whatever its resolver does, the rounds of a run come to an
end after finitely many blocks, before any bound is reached.

Key definition: `Program.Underway`.
Key theorem: `Program.Underway.settles`.
-/
import ShapeFlow.Proofs.Failures

namespace ShapeFlow
namespace Program

open ShapeFlow.Flow Infer

variable {p p' : Program}

/-- A program as it is when rounds are begun: a run has entered its routines, or has finished
an iteration and goes on. -/
inductive Underway (plan : Plan) : Program → Prop
  | start {p : Program} {D : Set Nat} {rs : List Routine} : p.Past D →
    p.routines.mapM Routine.enter = .ok rs → Underway plan (p.entering rs)
  | next {p p' : Program} {x : Nat × Bool} : Underway plan p → iteration plan p = .ok x p' →
    Underway plan p'

theorem Underway.kept {plan : Plan} (hextra : ∀ s ∈ plan.extra, s.Robust) (h : p.Underway plan) :
    p.Kept ∧ p.Entered := by
  induction h with
  | @start p D rs hpast hrun =>
    obtain ⟨rs', hrun', heach, hentered⟩ := enter_spec (p := { p with diagnostics := [], outcome := none })
      ((Adjust.relabel _ _).kept hpast.kept)
    obtain rfl : rs' = rs := Except.ok.inj (hrun'.symm.trans hrun)
    exact ⟨(Adjust.tweak heach).kept ((Adjust.relabel _ _).kept hpast.kept), hentered⟩
  | next _ hrun ih =>
    have hends := iteration_ends ih.1 ih.2 (serves_of_robust hextra)
    obtain ⟨hcont, -⟩ := hends.ok hrun
    exact ⟨hcont.kept ih.1, hcont.entered⟩

/-- **Rounds terminate.**  Whatever has happened to a program, runs that failed included, and
whatever its resolver picks, rounds are over after finitely many blocks: the pending blocks
of each routine are gone through until none is left or one fails, and rounds go on until
nothing is pending or one has failed.  No bound is reached. -/
theorem Underway.settles {plan : Plan} (hextra : ∀ s ∈ plan.extra, s.Robust)
    (h : p.Underway plan) :
    ∃ k n, k ≤ p.roundBound ∧ SettlesIn p k n (settle p) ∧
      ∀ f p', settle p = .error f p' → f ≠ .stepBoundReached := by
  obtain ⟨hkept, hentered⟩ := h.kept hextra
  obtain ⟨⟨k, n, hk, hsettles⟩, -⟩ := rounds_end hkept hentered
    (show p.isPending = true → p.entryRoom < p.roundBound from
      fun _ => Nat.lt_succ_of_le (entryRoom_le_growth p))
  refine ⟨k, n, hk, hsettles, fun f p' hrun => ?_⟩
  have hends := settle_ends hkept hentered
  unfold Ends at hends
  rw [hrun] at hends
  exact hends.bounded

theorem recursive_settles : ∃ rs, (ofDecls recursive).routines.mapM Routine.enter = .ok rs ∧
    ((ofDecls recursive).entering rs).isPending = true ∧
    ∃ k n, k ≤ ((ofDecls recursive).entering rs).roundBound ∧
      SettlesIn ((ofDecls recursive).entering rs) k n (settle ((ofDecls recursive).entering rs)) ∧
      ∀ f p', settle ((ofDecls recursive).entering rs) = .error f p' → f ≠ .stepBoundReached := by
  have hpending : (match (ofDecls recursive).routines.mapM Routine.enter with
      | .ok rs => ((ofDecls recursive).entering rs).isPending
      | .error _ => false) = true := by decide +kernel
  rcases hrun : (ofDecls recursive).routines.mapM Routine.enter with f | rs
  · rw [hrun] at hpending
    cases hpending
  · rw [hrun] at hpending
    have hunderway : ((ofDecls recursive).entering rs).Underway {} :=
      Underway.start (past_ofDecls recursive) hrun
    exact ⟨rs, rfl, hpending, Underway.settles (by simp) hunderway⟩

end Program
end ShapeFlow
