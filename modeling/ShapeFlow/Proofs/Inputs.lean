/-
# The inputs of a routine

The blocks of a routine that have been reached have an input state; joining a
state into an input makes it grow or leaves it alone, and queues the block in
the first case.  How much everything kept in a routine can still grow is its
room, `Routine.room`: the pending blocks, and what the inputs and the variables
have left.

Key definitions: `Routine.Held`, `Routine.Grounded`, `Routine.room`.
Key theorems: `Routine.flowInto_spec`, `Routine.room_le_stepBound`.
-/
import ShapeFlow.Proofs.Lowering
import ShapeFlow.Proofs.States

namespace ShapeFlow

open ShapeFlow.Flow List

/-! ### Agendas -/

namespace Agenda

variable {q : Agenda Nat} {a b : Nat}

theorem isEmpty_iff (q : Agenda Nat) : q.isEmpty = true ↔ q.toList = [] := List.isEmpty_iff

theorem mem_insert : b ∈ (q.insert a).toList ↔ b ∈ q.toList ∨ b = a := by
  show b ∈ (q.toWorkList.insert a).queue ↔ b ∈ q.queue ∨ b = a
  unfold WorkList.insert
  split
  next h =>
    rw [q.agrees.contains_iff] at h
    exact ⟨.inl, fun hb => hb.elim id (· ▸ h)⟩
  next => simp

theorem size_insert_le (q : Agenda Nat) (a : Nat) : (q.insert a).size ≤ q.size + 1 := by
  show (q.toWorkList.insert a).queue.length ≤ q.queue.length + 1
  unfold WorkList.insert
  split <;> simp

theorem mem_insertAll : ∀ {l : List Nat} {q : Agenda Nat},
    b ∈ (q.insertAll l).toList ↔ b ∈ q.toList ∨ b ∈ l
  | [], q => by simp [insertAll, WorkList.insertAll, toList]
  | a :: l, q => by
    rw [show q.insertAll (a :: l) = (q.insert a).insertAll l from rfl, mem_insertAll, mem_insert,
      mem_cons, or_assoc]

theorem pop?_spec {q' : Agenda Nat} (h : q.pop? = some (b, q')) :
    q.toList = b :: q'.toList ∧ q'.size + 1 = q.size := by
  unfold pop? at h
  split at h
  next => cases h
  next hpop =>
    cases h
    have hqueue := (WorkList.of_pop? hpop).1
    exact ⟨hqueue, (congrArg length hqueue).symm⟩

theorem pop?_eq_none (h : q.pop? = none) : q.toList = [] := by
  unfold pop? at h
  split at h
  next hpop =>
    unfold WorkList.pop? at hpop
    split at hpop
    · assumption
    · cases hpop
  next => cases h

end Agenda

/-! ### Variables -/

namespace Flow.Scope

variable {s s' : Scope} {i : Nat} {v : Variable} {t : TypeSet} {grew : Bool}

theorem get_ok (h : s.get i = .ok v) : s.vars[i]? = some v := by
  unfold get at h
  split at h
  next hv => exact hv.trans (congrArg some (Except.ok.inj h))
  next => cases h

theorem addTypes_ok (h : s.addTypes i t = .ok (grew, s')) : ∃ v, s.vars[i]? = some v ∧
    s' = { s with vars := s.vars.set i { v with types := v.types ∪ t } } := by
  obtain ⟨v, hv, h⟩ := ok_of_except h
  cases h
  exact ⟨v, get_ok hv, rfl⟩

theorem addKept_ok (h : s.addKept i t = .ok (grew, s')) : ∃ v all, s.vars[i]? = some v ∧
    (∀ old, v.kept = some old → old ≤ all) ∧
    s' = { s with
      vars := s.vars.set i { v with kept := some all }, aliased := s.aliased.insert i } := by
  obtain ⟨v, hv, h⟩ := ok_of_except h
  cases h
  exact ⟨v, _, get_ok hv, fun old hold => by rw [hold]; exact TypeSet.le_union_left old t, rfl⟩

theorem markAliased_ok {u : Unit} (h : (do return ((), ← s.markAliased i)) = .ok (u, s')) :
    s' = { s with aliased := s.aliased.insert i } := by
  obtain ⟨s1, hs1, h⟩ := ok_of_except h
  cases h
  obtain ⟨v, -, h⟩ := ok_of_except hs1
  cases h
  rfl

end Flow.Scope

namespace Routine

variable {b : Nat} {r : Routine} {s : State} {t : ShapeTable}

/-! ### Inputs -/

theorem input?_setInput (r : Routine) (hb : b < r.inputs.size) (s : State) (b' : Nat) :
    (r.setInput b s).input? b' = if b = b' then some s else r.input? b' := by
  unfold input? setInput
  rw [Array.getElem?_setIfInBounds]
  by_cases h : b = b'
  · subst h
    simp [hb]
  · simp [h]

theorem input?_lt (h : (r.input? b).isSome = true) : b < r.inputs.size := by
  by_contra hge
  rw [input?, Array.getElem?_eq_none (by omega)] at h
  cases h

theorem mem_reached : b ∈ r.reached ↔ (r.input? b).isSome = true := by
  rw [reached, mem_filter, mem_range]
  exact ⟨And.right, fun h => ⟨input?_lt h, h⟩⟩

/-- What a routine holds is known to the table, and the blocks its inputs and sites
mention have been reached. -/
structure Held (t : ShapeTable) (r : Routine) : Prop where
  size : r.inputs.size = r.graph.size
  fits : ∀ (b : Nat) (s : State), r.input? b = some s → State.Fits r.id r.scope.size s
  known : ∀ (b : Nat) (s : State), r.input? b = some s → State.Known t s
  reach : ∀ b, (r.input? b).isSome = true → r.graph.Reach b
  entry : ∀ b, (r.input? b).isSome = true → (r.input? Graph.entry).isSome = true
  sites : ∀ p ∈ r.sites, (r.input? p.2).isSome = true
  vars : ∀ v ∈ r.scope.vars, t.Knows v.types ∧ ∀ k ∈ v.kept, t.Knows k
  returns : t.Knows r.scope.returns

theorem Held.mono {t' : ShapeTable} (h : Held t r) (ht : t.Extends t') : Held t' r :=
  { h with
    known := fun b s hs => (h.known b s hs).mono ht
    vars := fun v hv => ⟨(h.vars v hv).1.mono ht, fun k hk => ((h.vars v hv).2 k hk).mono ht⟩
    returns := h.returns.mono ht }

theorem Held.queue (h : Held t r) (b : Nat) : Held t (r.queue b) :=
  { h with }

/-- Only blocks that have been reached are pending. -/
def Grounded (r : Routine) : Prop := ∀ b ∈ r.pending.toList, (r.input? b).isSome = true

/-! ### Room to grow -/

/-- How much an input over `n` variables can grow; being reached counts too. -/
def inputRoom (n : Nat) : Option State → Nat
  | none => State.growth n + 1
  | some s => State.growth n - s.weight n

/-- How much the types of a variable, and what it keeps, can grow. -/
def varRoom (v : Variable) : Nat :=
  64 - v.types.weight + match v.kept with
    | none => 64
    | some k => 64 - k.weight

/-- The pending blocks and those that may become pending. -/
def room (r : Routine) : Nat :=
  r.pending.size + ∑ b ∈ Finset.range r.graph.size, inputRoom r.scope.size (r.input? b) +
    2 * (r.scope.vars.map varRoom).sum

theorem room_le_stepBound (r : Routine) : r.room ≤ r.stepBound := by
  have hinputs : ∑ b ∈ Finset.range r.graph.size, inputRoom r.scope.size (r.input? b) ≤
      ∑ _b ∈ Finset.range r.graph.size, (State.growth r.scope.size + 1) := by
    apply Finset.sum_le_sum
    intro b _
    rcases r.input? b with _ | s <;> simp only [inputRoom] <;> omega
  rw [Finset.sum_const, Finset.card_range, smul_eq_mul] at hinputs
  have hvars : (r.scope.vars.map varRoom).sum ≤ r.scope.size * 129 := by
    have := sum_le_card_nsmul (r.scope.vars.map varRoom) 129 fun x hx => by
      obtain ⟨v, -, rfl⟩ := mem_map.1 hx
      unfold varRoom
      rcases v.kept with _ | k <;> simp only <;> omega
    simpa [Scope.size] using this
  unfold room stepBound
  omega

theorem sum_map_set {β : Type} {f : β → Nat} {b : β} : ∀ {l : List β} {i : Nat} {a : β},
    l[i]? = some a → ((l.set i b).map f).sum + f a = (l.map f).sum + f b
  | x :: l, 0, a, h => by
    obtain rfl : x = a := by simpa using h
    simp
    omega
  | x :: l, i + 1, a, h => by
    have := sum_map_set (f := f) (b := b) (l := l) (i := i) (by simpa using h)
    simp only [set_cons_succ, map_cons, sum_cons]
    omega

/-! ### States that flow in -/

/-- A state `s` has flowed into block `b`. -/
structure Flows (r r' : Routine) (b : Nat) (s : State) : Prop where
  frame : r' = { r with inputs := r'.inputs, pending := r'.pending }
  input : ∃ s', r'.input? b = some s' ∧ s ≤ s' ∧ ∀ old, r.input? b = some old → old ≤ s'
  others : ∀ b', b' ≠ b → r'.input? b' = r.input? b'
  changed : r'.input? b = r.input? b ∨ b ∈ r'.pending.toList
  pending : ∀ b' ∈ r.pending.toList, b' ∈ r'.pending.toList
  queued : ∀ b' ∈ r'.pending.toList, b' ∈ r.pending.toList ∨ b' = b
  room : r'.room ≤ r.room
  /-- Nothing has happened, or the input has less room. -/
  paid : r' = r ∨ inputRoom r.scope.size (r'.input? b) < inputRoom r.scope.size (r.input? b)

/-- An input that takes up room pays for the block it queues. -/
theorem room_setInput (hb : b < r.graph.size) (hsize : r.inputs.size = r.graph.size)
    (hroom : inputRoom r.scope.size (some s) < inputRoom r.scope.size (r.input? b)) :
    ((r.setInput b s).queue b).room ≤ r.room := by
  have hinput : ∀ b', ((r.setInput b s).queue b).input? b' = if b = b' then some s else r.input? b' :=
    r.input?_setInput (hsize ▸ hb) s
  have hlt : ∑ b' ∈ Finset.range r.graph.size,
      inputRoom r.scope.size (((r.setInput b s).queue b).input? b') <
      ∑ b' ∈ Finset.range r.graph.size, inputRoom r.scope.size (r.input? b') := by
    apply Finset.sum_lt_sum
    · intro b' _
      rw [hinput]
      split
      next h => exact h ▸ Nat.le_of_lt hroom
      next => exact Nat.le_refl _
    · exact ⟨b, Finset.mem_range.2 hb, by rw [hinput, if_pos rfl]; exact hroom⟩
  have hpending := Agenda.size_insert_le r.pending b
  show (r.pending.insert b).size + ∑ b' ∈ Finset.range r.graph.size,
      inputRoom r.scope.size (((r.setInput b s).queue b).input? b') +
      2 * (r.scope.vars.map varRoom).sum ≤ r.room
  unfold room
  omega

theorem Held.setInput (h : Held t r) (hlt : b < r.graph.size) (hb : r.graph.Reach b)
    (hfits : State.Fits r.id r.scope.size s) (hknown : State.Known t s)
    (hentry : b = Graph.entry ∨ (r.input? Graph.entry).isSome = true) :
    Held t ((r.setInput b s).queue b) := by
  have hinput : ∀ b', ((r.setInput b s).queue b).input? b' = if b = b' then some s else r.input? b' :=
    r.input?_setInput (h.size ▸ hlt) s
  have hstay : ∀ b', (r.input? b').isSome = true →
      (((r.setInput b s).queue b).input? b').isSome = true := by
    intro b' hb'
    rw [hinput]
    split
    · rfl
    · exact hb'
  refine { h with size := ?_, fits := ?_, known := ?_, reach := ?_, entry := ?_,
                  sites := fun p hp => hstay p.2 (h.sites p hp) }
  · simpa [Routine.setInput, Routine.queue] using h.size
  · intro b' s' hs'
    rw [hinput] at hs'
    split at hs'
    · cases hs'
      exact hfits
    · exact h.fits b' s' hs'
  · intro b' s' hs'
    rw [hinput] at hs'
    split at hs'
    · cases hs'
      exact hknown
    · exact h.known b' s' hs'
  · intro b' hb'
    rw [hinput] at hb'
    split at hb'
    next heq => exact heq ▸ hb
    next => exact h.reach b' hb'
  · intro _ _
    rcases hentry with heq | hentry
    · rw [hinput, if_pos heq]
      rfl
    · exact hstay _ hentry

theorem flowInto_cases {r' : Routine} {changed : Bool} (h : r.flowInto b s = .ok (changed, r')) :
    r' = r ∨ ∃ new, r' = (r.setInput b new).queue b ∧
      (r.input? b = none ∧ new = s ∨ ∃ old, r.input? b = some old ∧ old.join s = .ok new) := by
  unfold flowInto at h
  split at h
  next hnone =>
    cases h
    exact .inr ⟨s, rfl, .inl ⟨hnone, rfl⟩⟩
  next old hold =>
    obtain ⟨new, hjoin, h⟩ := ok_of_except h
    split at h <;> cases h
    · exact .inl rfl
    · exact .inr ⟨new, rfl, .inr ⟨old, hold, hjoin⟩⟩

theorem flowInto_spec (h : Held t r) (ht : t.Valid) (hgraph : r.graph.Sound) (hb : r.graph.Reach b)
    (hentry : b = Graph.entry ∨ (r.input? Graph.entry).isSome = true)
    (hfits : State.Fits r.id r.scope.size s) (hknown : State.Known t s) :
    ∃ c r', r.flowInto b s = .ok (c, r') ∧ Held t r' ∧ Flows r r' b s := by
  have hlt := hgraph.reach_lt hb
  have hinput : ∀ s b', ((r.setInput b s).queue b).input? b' = if b = b' then some s else r.input? b' :=
    r.input?_setInput (h.size ▸ hlt)
  have hweight := State.weight_le_growth r.scope.size
  have hqueued : ∀ s, b ∈ ((r.setInput b s).queue b).pending.toList := fun s =>
    Agenda.mem_insert.2 (.inr rfl)
  rcases hold : r.input? b with _ | old
  · have hroom : inputRoom r.scope.size (some s) < inputRoom r.scope.size (r.input? b) := by
      rw [hold, inputRoom, inputRoom]
      omega
    have hnew : ((r.setInput b s).queue b).input? b = some s := by
      rw [hinput, if_pos rfl]
    refine ⟨true, (r.setInput b s).queue b, by rw [flowInto, hold]; rfl,
      h.setInput hlt hb hfits hknown hentry, rfl,
      ⟨s, hnew, State.le_refl s, by simp [hold]⟩, fun b' hne => ?_, .inr (hqueued s),
      fun b' hb' => Agenda.mem_insert.2 (.inl hb'), fun b' hb' => Agenda.mem_insert.1 hb',
      room_setInput hlt h.size hroom, .inr (hnew ▸ hroom)⟩
    rw [hinput, if_neg (Ne.symm hne)]
  · have hfitsOld := h.fits b old hold
    obtain ⟨new, hnew, hfitsNew, hleOld, hle, -⟩ := State.join_spec hfitsOld hfits
    have hknownNew := (h.known b old hold).join hknown ht hfitsOld hfits hnew
    have hrun : r.flowInto b s = if new.agrees old then .ok (false, r)
        else .ok (true, (r.setInput b new).queue b) := by
      rw [flowInto, hold]
      simp only [hnew]
      rfl
    by_cases hagree : new.agrees old = true
    · rw [if_pos hagree] at hrun
      obtain rfl := (State.agrees_iff hfitsNew hfitsOld).1 hagree
      refine ⟨false, r, hrun, h, rfl, ⟨new, hold, hle, ?_⟩, fun _ _ => rfl, .inl rfl,
        fun _ hb' => hb', fun _ hb' => .inl hb', Nat.le_refl _, .inl rfl⟩
      rintro old' hold'
      obtain rfl := Option.mem_unique hold hold'
      exact hleOld
    · have hne : old ≠ new := fun heq => hagree ((State.agrees_iff hfitsNew hfitsOld).2 heq.symm)
      have hheavy : old.weight r.scope.size < new.weight r.scope.size := by
        by_contra hlight
        exact hne (State.eq_of_weight_le hfitsOld hfitsNew hleOld (by omega))
      have hroom : inputRoom r.scope.size (some new) < inputRoom r.scope.size (r.input? b) := by
        have := hweight new
        rw [hold, inputRoom, inputRoom]
        omega
      have hinputNew : ((r.setInput b new).queue b).input? b = some new := by
        rw [hinput, if_pos rfl]
      rw [if_neg hagree] at hrun
      refine ⟨true, (r.setInput b new).queue b, hrun,
        h.setInput hlt hb hfitsNew hknownNew hentry, rfl, ⟨new, hinputNew, hle, ?_⟩,
        fun b' hne => ?_, .inr (hqueued new), fun b' hb' => Agenda.mem_insert.2 (.inl hb'),
        fun b' hb' => Agenda.mem_insert.1 hb', room_setInput hlt h.size hroom, .inr (hinputNew ▸ hroom)⟩
      · rintro old' hold'
        obtain rfl := Option.mem_unique hold hold'
        exact hleOld
      · rw [hinput, if_neg (Ne.symm hne)]

end Routine
end ShapeFlow
