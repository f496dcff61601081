/-
# Agendas

An agenda is a queue of things to do.  Adding what is already waiting changes
nothing; what has been taken off may be added again.  A work list keeps the queue
and, beside it, the set of what is in it, which is what tells whether an entry is
waiting.  Both have to be changed together: an agenda is a work list whose set and
queue agree.

Key definitions: `WorkList`, `WorkList.Agrees`.
Key theorems: `WorkList.Agrees.insert`, `WorkList.Agrees.pop?`,
`WorkList.Agrees.contains_iff`.
-/
namespace ShapeFlow

/-- A first-in first-out queue and the set of its entries. -/
structure WorkList (α : Type) where
  /-- The set, in no particular order. -/
  set : List α := []
  /-- The entries, the next one first. -/
  queue : List α := []

namespace WorkList

variable {α : Type} [DecidableEq α] {w w' : WorkList α} {a : α}

omit [DecidableEq α] in
def size (w : WorkList α) : Nat := w.queue.length

omit [DecidableEq α] in
def isEmpty (w : WorkList α) : Bool := w.queue.isEmpty

def contains (w : WorkList α) (a : α) : Bool := w.set.contains a

/-- Adds `a` unless the set has it already. -/
def insert (w : WorkList α) (a : α) : WorkList α :=
  if w.contains a then w else { set := a :: w.set, queue := w.queue ++ [a] }

/-- Adds the elements of `l` one by one. -/
def insertAll (w : WorkList α) (l : List α) : WorkList α := l.foldl insert w

/-- Takes the oldest entry off, and out of the set. -/
def pop? (w : WorkList α) : Option (α × WorkList α) :=
  match w.queue with
  | [] => none
  | a :: queue => some (a, { set := w.set.erase a, queue })

/-- The set and the queue have the same entries, each once. -/
structure Agrees (w : WorkList α) : Prop where
  perm : w.set.Perm w.queue
  nodup : w.queue.Nodup

omit [DecidableEq α] in
theorem agrees_empty : Agrees ({} : WorkList α) := ⟨.nil, .nil⟩

theorem Agrees.contains_iff (h : w.Agrees) : w.contains a = true ↔ a ∈ w.queue := by
  rw [contains, List.contains_iff_mem, h.perm.mem_iff]

theorem Agrees.insert (h : w.Agrees) (a : α) : (w.insert a).Agrees := by
  unfold WorkList.insert
  split
  next => exact h
  next hnew =>
    rw [h.contains_iff] at hnew
    refine ⟨(h.perm.cons a).trans (List.perm_append_singleton a _).symm, ?_⟩
    refine List.nodup_append.2 ⟨h.nodup, by simp, fun b hb c hc => ?_⟩
    rintro rfl
    exact hnew (List.mem_singleton.1 hc ▸ hb)

theorem Agrees.insertAll : ∀ {w : WorkList α}, w.Agrees → ∀ l : List α, (w.insertAll l).Agrees
  | _, h, [] => h
  | _, h, a :: l => insertAll (h.insert a) l

theorem of_pop? (h : w.pop? = some (a, w')) :
    w.queue = a :: w'.queue ∧ w'.set = w.set.erase a := by
  unfold pop? at h
  split at h <;> cases h
  exact ⟨‹_›, rfl⟩

theorem Agrees.pop? (h : w.Agrees) (hpop : w.pop? = some (a, w')) : w'.Agrees := by
  obtain ⟨hqueue, hset⟩ := of_pop? hpop
  have hperm := h.perm
  have hnodup := h.nodup
  rw [hqueue] at hperm hnodup
  refine ⟨?_, (List.nodup_cons.1 hnodup).2⟩
  rw [hset, ← List.erase_cons_head (a := a) (l := w'.queue)]
  exact hperm.erase a

end WorkList

/-- A work list whose set and queue agree. -/
structure Agenda (α : Type) extends WorkList α where
  agrees : toWorkList.Agrees

namespace Agenda

variable {α : Type} [DecidableEq α]

omit [DecidableEq α] in
/-- Nothing to do. -/
def empty : Agenda α := ⟨{}, WorkList.agrees_empty⟩

instance : Inhabited (Agenda α) := ⟨empty⟩

omit [DecidableEq α] in
/-- The entries, the next one first. -/
def toList (q : Agenda α) : List α := q.queue

/-- Adds `a` unless it is waiting already. -/
def insert (q : Agenda α) (a : α) : Agenda α := ⟨q.toWorkList.insert a, q.agrees.insert a⟩

/-- Adds the elements of `l` one by one. -/
def insertAll (q : Agenda α) (l : List α) : Agenda α :=
  ⟨q.toWorkList.insertAll l, q.agrees.insertAll l⟩

/-- Takes the oldest entry off. -/
def pop? (q : Agenda α) : Option (α × Agenda α) :=
  match h : q.toWorkList.pop? with
  | none => none
  | some (a, w) => some (a, ⟨w, q.agrees.pop? h⟩)

end Agenda
end ShapeFlow
