/-
# Queueing

A work list is asked to take entries, to hand one out, to forget them all, and
what is waiting.  A plain list answers the same requests: an entry goes to its
end unless it is in it, and the head is handed out.  Every sequence of requests
has the same replies from both and leaves set and queue in agreement
(`serve_agrees`, `serveAll_agrees`), and between two clearings the entries that
are accepted come off once each, in the order in which they went in (`conserved`).

Key definitions: `WorkList.Request`, `WorkList.serve`, `WorkList.serveList`.
Key theorem: `WorkList.serveAll_queues`.
-/
import ShapeFlow.Agenda
import Mathlib.Data.List.Nodup

namespace ShapeFlow
namespace WorkList

open List

/-- What a work list can be asked. -/
inductive Request (α : Type) where
  | insert (a : α)
  | insertAll (l : List α)
  | pop
  | clear
  | contains (a : α)
  | size
  | isEmpty
deriving DecidableEq

inductive Reply (α : Type) where
  | done
  | entry (next : Option α)
  | told (b : Bool)
  | counted (n : Nat)
deriving DecidableEq

variable {α : Type} [DecidableEq α] {w w' : WorkList α} {l : List α} {r : Request α} {a : α}

/-- What comes of a request. -/
def serve (w : WorkList α) : Request α → Reply α × WorkList α
  | .insert a => (.done, w.insert a)
  | .insertAll l => (.done, w.insertAll l)
  | .pop =>
    match w.pop? with
    | some (a, w') => (.entry (some a), w')
    | none => (.entry none, w)
  | .clear => (.done, {})
  | .contains a => (.told (w.contains a), w)
  | .size => (.counted w.size, w)
  | .isEmpty => (.told w.isEmpty, w)

/-- Puts `a` at the end of a list it is not in. -/
def putLast (l : List α) (a : α) : List α := if a ∈ l then l else l ++ [a]

/-- What comes of a request to a list. -/
def serveList (l : List α) : Request α → Reply α × List α
  | .insert a => (.done, putLast l a)
  | .insertAll as => (.done, as.foldl putLast l)
  | .pop => (.entry l.head?, l.tail)
  | .clear => (.done, [])
  | .contains a => (.told (a ∈ l), l)
  | .size => (.counted l.length, l)
  | .isEmpty => (.told (l = []), l)

/-- Requests are answered one after the other. -/
def answer {σ : Type} (step : σ → Request α → Reply α × σ) : σ → List (Request α) → List (Reply α) × σ
  | s, [] => ([], s)
  | s, r :: rs => ((step s r).1 :: (answer step (step s r).2 rs).1, (answer step (step s r).2 rs).2)

def serveAll (w : WorkList α) (rs : List (Request α)) : List (Reply α) × WorkList α := answer serve w rs

def serveAllList (l : List α) (rs : List (Request α)) : List (Reply α) × List α := answer serveList l rs

/-! ### The same replies -/

theorem Agrees.queue_insert (h : w.Agrees) (a : α) : (w.insert a).queue = putLast w.queue a := by
  simp only [WorkList.insert, putLast, h.contains_iff]
  split <;> rfl

theorem Agrees.queue_insertAll : ∀ {w : WorkList α}, w.Agrees → ∀ as : List α,
    (w.insertAll as).queue = as.foldl putLast w.queue
  | _, _, [] => rfl
  | _, h, a :: as => by
    rw [foldl_cons, ← h.queue_insert]
    exact queue_insertAll (h.insert a) as

theorem serve_agrees (h : w.Agrees) (r : Request α) : (w.serve r).2.Agrees ∧
    (w.serve r).1 = (serveList w.queue r).1 ∧ (w.serve r).2.queue = (serveList w.queue r).2 := by
  cases r with
  | insert a => exact ⟨h.insert a, rfl, h.queue_insert a⟩
  | insertAll as => exact ⟨h.insertAll as, rfl, h.queue_insertAll as⟩
  | pop =>
    unfold serve serveList
    rcases hpop : w.pop? with _ | ⟨a, w'⟩
    · have hqueue : w.queue = [] := by
        unfold pop? at hpop
        split at hpop
        · assumption
        · cases hpop
      simp [hqueue, h]
    · simp [(of_pop? hpop).1, h.pop? hpop]
  | clear => exact ⟨agrees_empty, rfl, rfl⟩
  | contains a =>
    refine ⟨h, congrArg Reply.told ?_, rfl⟩
    rw [Bool.eq_iff_iff, h.contains_iff, decide_eq_true_iff]
  | size => exact ⟨h, rfl, rfl⟩
  | isEmpty => exact ⟨h, congrArg Reply.told (by rw [isEmpty]; cases w.queue <;> rfl), rfl⟩

theorem serveAll_agrees : ∀ (rs : List (Request α)) {w : WorkList α}, w.Agrees →
    (w.serveAll rs).2.Agrees ∧ (w.serveAll rs).1 = (serveAllList w.queue rs).1 ∧
      (w.serveAll rs).2.queue = (serveAllList w.queue rs).2
  | [], _, h => ⟨h, rfl, rfl⟩
  | r :: rs, w, h => by
    obtain ⟨hagrees, hreply, hqueue⟩ := serve_agrees h r
    obtain ⟨hlast, hreplies, hend⟩ := serveAll_agrees rs hagrees
    rw [hqueue] at hreplies hend
    exact ⟨hlast, congrArg₂ cons hreply hreplies, hend⟩

/-! ### Every entry comes off once -/

/-- The entries of a request. -/
def Request.entries : Request α → List α
  | .insert a => [a]
  | .insertAll l => l
  | _ => []

/-- Those of the entries `as` that are accepted, each after the ones before it. -/
def accepts : WorkList α → List α → List α
  | _, [] => []
  | w, a :: as => (if w.contains a then [] else [a]) ++ accepts (w.insert a) as

/-- The entries that are accepted in the course of requests. -/
def acceptsAll : WorkList α → List (Request α) → List α
  | _, [] => []
  | w, r :: rs => w.accepts r.entries ++ acceptsAll (w.serve r).2 rs

/-- The entry that a reply hands out. -/
def Reply.entry? : Reply α → Option α
  | .entry next => next
  | _ => none

/-- The entries that replies hand out. -/
def delivered (replies : List (Reply α)) : List α := replies.filterMap Reply.entry?

theorem queue_insertAll_accepts : ∀ (as : List α) (w : WorkList α),
    (w.insertAll as).queue = w.queue ++ w.accepts as
  | [], w => (append_nil _).symm
  | a :: as, w => by
    rw [show w.insertAll (a :: as) = (w.insert a).insertAll as from rfl, queue_insertAll_accepts,
      accepts, insert]
    split <;> simp

/-- What waits and what is accepted is what is handed out and what waits then. -/
theorem conserved_serve (w : WorkList α) (hr : r ≠ .clear) :
    w.queue ++ w.accepts r.entries = delivered [(w.serve r).1] ++ (w.serve r).2.queue := by
  cases r with
  | insert a => exact (queue_insertAll_accepts [a] w).symm
  | insertAll as => exact (queue_insertAll_accepts as w).symm
  | pop =>
    unfold serve
    rcases hpop : w.pop? with _ | ⟨a, w'⟩
    · exact append_nil _
    · simp [(of_pop? hpop).1, Request.entries, accepts, delivered, Reply.entry?]
  | clear => exact absurd rfl hr
  | contains a => exact append_nil _
  | size => exact append_nil _
  | isEmpty => exact append_nil _

theorem conserved : ∀ (rs : List (Request α)) (w : WorkList α), (∀ r ∈ rs, r ≠ .clear) →
    w.queue ++ w.acceptsAll rs = delivered (w.serveAll rs).1 ++ (w.serveAll rs).2.queue
  | [], w, _ => append_nil _
  | r :: rs, w, h => by
    have hstep := conserved_serve w (h r (.head _))
    have hrest := conserved rs (w.serve r).2 fun r hr => h r (.tail _ hr)
    calc w.queue ++ w.acceptsAll (r :: rs)
        = (w.queue ++ w.accepts r.entries) ++ (w.serve r).2.acceptsAll rs := (append_assoc ..).symm
      _ = delivered [(w.serve r).1] ++ ((w.serve r).2.queue ++ (w.serve r).2.acceptsAll rs) := by
          rw [hstep, append_assoc]
      _ = (delivered [(w.serve r).1] ++ delivered ((w.serve r).2.serveAll rs).1) ++
            ((w.serve r).2.serveAll rs).2.queue := by rw [hrest, append_assoc]
      _ = delivered (w.serveAll (r :: rs)).1 ++ (w.serveAll (r :: rs)).2.queue := by
          rw [delivered, delivered, ← filterMap_append]
          rfl

/-- What has been taken off is not waiting any more, and may be added again. -/
theorem Agrees.insert_popped (h : w.Agrees) (hpop : w.pop? = some (a, w')) :
    w.queue = a :: w'.queue ∧ w'.contains a = false ∧ (w'.insert a).queue = w'.queue ++ [a] := by
  have hqueue := (of_pop? hpop).1
  have ha : a ∉ w'.queue := (nodup_cons.1 (hqueue ▸ h.nodup)).1
  have h' := h.pop? hpop
  refine ⟨hqueue, by rwa [← Bool.not_eq_true, h'.contains_iff], ?_⟩
  rw [h'.queue_insert, putLast, if_neg ha]

/-- **A work list is a queue without repetitions.**  Whatever it has been asked, its replies are
those of a list to whose end absent entries go and whose head is taken off.  Its queue is that list,
and its set has the entries of the queue, both of them each once; what is taken off is in neither
and may come back; and until it is cleared, what waited and what it has accepted since is what it
has handed out and what is waiting, in that order. -/
theorem serveAll_queues (rs : List (Request α)) :
    (({} : WorkList α).serveAll rs).1 = (serveAllList [] rs).1 ∧
      ∀ w, w = (({} : WorkList α).serveAll rs).2 →
        w.queue = (serveAllList [] rs).2 ∧ w.queue.Nodup ∧ w.set.Nodup ∧
        (∀ a, a ∈ w.set ↔ a ∈ w.queue) ∧
        (∀ a w', w.pop? = some (a, w') → w.queue = a :: w'.queue ∧ w'.contains a = false ∧
          (w'.insert a).queue = w'.queue ++ [a]) ∧
        ∀ more, (∀ r ∈ more, r ≠ .clear) →
          w.queue ++ w.acceptsAll more = delivered (w.serveAll more).1 ++ (w.serveAll more).2.queue := by
  obtain ⟨hagrees, hreplies, hqueue⟩ := serveAll_agrees rs (agrees_empty (α := α))
  refine ⟨hreplies, ?_⟩
  rintro w rfl
  exact ⟨hqueue, hagrees.nodup, hagrees.perm.nodup_iff.2 hagrees.nodup, fun a => hagrees.perm.mem_iff,
    fun a w' hpop => hagrees.insert_popped hpop, fun more hmore => conserved more _ hmore⟩

/-- Three entries are put in and one is taken off, which is then put in again. -/
theorem serveAll_queues_again :
    let rs : List (Request Nat) := [.insertAll [3, 1, 3, 2], .pop, .insert 3, .insert 1, .contains 3, .size]
    let more : List (Request Nat) := [.pop, .pop, .insert 1, .pop, .pop, .pop, .isEmpty]
    (({} : WorkList Nat).serveAll rs).1 =
        [.done, .entry (some 3), .done, .done, .told true, .counted 3] ∧
      ∀ w, w = (({} : WorkList Nat).serveAll rs).2 → w.queue = [1, 2, 3] ∧ w.set = [3, 2, 1] ∧
        w.acceptsAll more = [1] ∧ delivered (w.serveAll more).1 = [1, 2, 3, 1] := by
  intro rs more
  obtain ⟨hreplies, hrest⟩ := serveAll_queues rs
  refine ⟨hreplies, fun w hw => ?_⟩
  obtain ⟨hqueue, -, -, -, -, hmore⟩ := hrest w hw
  have hqueue : w.queue = [1, 2, 3] := hqueue
  have hconserved := hmore more (by decide)
  subst hw
  rw [hqueue] at hconserved
  refine ⟨hqueue, rfl, by decide, ?_⟩
  have hlast : ((({} : WorkList Nat).serveAll rs).2.serveAll more).2.queue = [] := by decide
  rw [hlast, append_nil] at hconserved
  rw [← hconserved]
  decide

end WorkList
end ShapeFlow
