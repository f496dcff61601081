/-
# Visits

Most moves walk through one block of one routine.  A log lists these visits, the
newest first.  Every sequence of moves has a log.

Key definitions: `Visit`, `Visit.Takes`, `Logged`, `visitsTo`.
Key theorems: `Moves.logged`, `Logged.invariant`.
-/
import ShapeFlow.Proofs.Evolution
import ShapeFlow.Proofs.Histories

namespace ShapeFlow

open ShapeFlow.Flow Infer

/-- One walk through a block of a routine. -/
structure Visit where
  routine : Nat
  setting : Setting
  start : Walker
  finish : Walker

/-- The block that is visited. -/
def Visit.block (v : Visit) : Nat := v.setting.block

/-- The move takes the block off the queue and walks through it. -/
inductive Visit.Takes (v : Visit) : Mid → Mid → Prop
  | intro {p : Program} {sigs : List Signature} {reports : List (Nat × Tuple)} {r : Routine}
    {q : Agenda Nat} : p.routines[v.routine]? = some r → r.pending.pop? = some (v.block, q) →
    v.start.table = p.table → v.start.calls = p.calls →
    v.start.routine = { r with status := .analyzing, pending := q } →
    v.setting = p.setting sigs v.block → Walks v.setting v.start v.finish →
    v.Takes ⟨p, sigs, reports ++ v.start.reports.toList⟩
      ⟨p.after v.routine v.finish, sigs, reports ++ v.finish.reports.toList⟩

/-- A move that is no visit. -/
inductive Pause : Mid → Mid → Prop
  | change {p p' : Program} : Program.Change p p' → Pause (.of p) (.of p')
  | report {p p' : Program} {sigs : List Signature} {callee : Nat} {args : Tuple}
    {reports : List (Nat × Tuple)} : Program.report callee args p = .ok () p' →
    Pause ⟨p, sigs, (callee, args) :: reports⟩ ⟨p', sigs, reports⟩
  | notify {p : Program} {sigs : List Signature} : (∀ r ∈ p.routines, r.Complete) →
    Pause ⟨p, sigs, []⟩ (.of (sigs.foldl Program.notifyCallers p))

variable {m m' : Mid} {v : Visit} {log : List Visit}

theorem Visit.Takes.move (h : v.Takes m m') : Move m m' := by
  cases h with
  | intro hr hpop htable hcalls hroutine hsetting hwalk =>
    rw [hsetting] at hwalk
    exact .walk hr hpop htable hcalls hroutine hwalk

theorem Pause.move (h : Pause m m') : Move m m' := by
  cases h with
  | change hc => exact .change hc
  | report hrun => exact .report hrun
  | notify hcomplete => exact .notify hcomplete

theorem Move.pause_or_visit (h : Move m m') : Pause m m' ∨ ∃ v : Visit, v.Takes m m' := by
  cases h with
  | change hc => exact .inl (.change hc)
  | @walk p sigs reports i b r q w w' hr hpop htable hcalls hroutine hwalk =>
    exact .inr ⟨⟨i, p.setting sigs b, w, w'⟩, .intro hr hpop htable hcalls hroutine rfl hwalk⟩
  | report hrun => exact .inl (.report hrun)
  | notify hcomplete => exact .inl (.notify hcomplete)

theorem Pause.alters (h : Pause m m') (hm : m.Kept) : Mid.Alters (Routine.Stirs m) m m' := by
  cases h with
  | change hc => exact hc.alters
  | report hrun => exact Program.report_alters hm hrun
  | notify hcomplete => exact Program.notify_alters hm hcomplete

/-! ### Logs -/

/-- The program has come about by moves of which `log` lists the visits, the newest first. -/
inductive Logged : List Visit → Mid → Prop
  | empty : Logged [] (.of .empty)
  | pause {log : List Visit} {m m' : Mid} : Logged log m → Pause m m' → Logged log m'
  | visit {log : List Visit} {m m' : Mid} {v : Visit} : Logged log m → v.Takes m m' →
    Logged (v :: log) m'

theorem Logged.moves (h : Logged log m) : Moves (.of .empty) m := by
  induction h with
  | empty => exact .refl
  | pause _ hp ih => exact ih.tail hp.move
  | visit _ hv ih => exact ih.tail hv.move

theorem Logged.sound (h : Logged log m) : m.Sound :=
  Moves.sound h.moves (Mid.sound_of Program.sound_empty)

/-- **Every sequence of moves has a log.** -/
theorem Moves.logged (h : Moves (.of .empty) m) : ∃ log, Logged log m := by
  induction h with
  | refl => exact ⟨[], .empty⟩
  | tail _ hmove ih =>
    obtain ⟨log, hlog⟩ := ih
    rcases hmove.pause_or_visit with hpause | ⟨v, hv⟩
    · exact ⟨log, hlog.pause hpause⟩
    · exact ⟨v :: log, hlog.visit hv⟩

/-- The visits to routine `i`, the newest first. -/
def visitsTo (log : List Visit) (i : Nat) : List Visit := log.filter (·.routine = i)

theorem visitsTo_cons_self (log : List Visit) (v : Visit) :
    visitsTo (v :: log) v.routine = v :: visitsTo log v.routine :=
  List.filter_cons_of_pos (by simp)

theorem visitsTo_cons_of_ne {i : Nat} (h : v.routine ≠ i) :
    visitsTo (v :: log) i = visitsTo log i :=
  List.filter_cons_of_neg (by simp [h])

theorem Logged.invariant {I : Mid → List Visit → Routine → Prop} (h : Logged log m)
    (hfresh : ∀ (m : Mid) (vs : List Visit) (i : Nat) (r : Routine), m.Sound →
      r.Fresh m.program.table i → I m vs r)
    (hpause : ∀ (m m' : Mid) (vs : List Visit) (i : Nat) (r r' : Routine), m.Sound →
      m.program.routines[i]? = some r → Pause m m' → r.Stirs m r' → I m vs r → I m' vs r')
    (hvisit : ∀ (m m' : Mid) (vs : List Visit) (v : Visit) (r : Routine) (q : Agenda Nat),
      m.Sound → m.program.routines[v.routine]? = some r → r.pending.pop? = some (v.block, q) →
      v.start.routine = { r with status := .analyzing, pending := q } → v.Takes m m' →
      Walks v.setting v.start v.finish → I m vs r → I m' (v :: vs) v.finish.routine)
    (hother : ∀ (m m' : Mid) (vs : List Visit) (v : Visit) (i : Nat) (r : Routine), m.Sound →
      m.program.routines[i]? = some r → v.Takes m m' → v.routine ≠ i → I m vs r → I m' vs r) :
    ∀ (i : Nat) (r : Routine), m.program.routines[i]? = some r → I m (visitsTo log i) r := by
  induction h with
  | empty =>
    intro i r hr
    cases hr
  | @pause log m m' hlog hp ih =>
    intro i r' hr'
    rcases (hp.alters hlog.sound.kept).back hr' with ⟨r, hr, hstirs⟩ | hnew
    · exact hpause m m' _ i r r' hlog.sound hr hp hstirs (ih i r hr)
    · exact hfresh m' _ i r' (hp.move.sound hlog.sound) hnew
  | @visit log m m' v hlog htakes ih =>
    have hsound := hlog.sound
    intro i r' hr'
    cases id htakes with
    | @intro p sigs reports r q hr hpop htable hcalls hroutine hsetting hwalk =>
    rcases Program.of_put hr hr' with ⟨rfl, rfl⟩ | ⟨heq, hi⟩
    · rw [visitsTo_cons_self]
      exact hvisit _ _ _ v r q hsound hr hpop hroutine htakes hwalk (ih v.routine r hr)
    · rw [visitsTo_cons_of_ne heq]
      exact hother _ _ _ v i r' hsound hi htakes heq (ih i r' hi)

end ShapeFlow
