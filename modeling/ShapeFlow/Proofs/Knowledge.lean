/-
# What is known of a routine

What the analysis has found out about a routine is ordered: more is known if every
type found is still among the types, every state a block is entered in has grown, and
a read is initialized on no fewer of some paths and on no more of all paths.  Whatever
is done to a routine, short of forgetting it, takes it up in this order, in whatever
condition the routine is.

Key definitions: `Persists`, the orders, `Routine.Gains`.
Key theorems: `CallGraph.climbs_add`, `Scope.le_addTypes`, `Routine.gains_flowInto`.
-/
import ShapeFlow.Proofs.Inputs

namespace ShapeFlow

open ShapeFlow.Flow TypeSet

/-! ### What is there stays there -/

section Persists

variable {α : Type} {R : α → α → Prop} {a b c : Option α} {x y : α}

/-- What `a` holds, `b` holds too, changed at most as `R` says. -/
def Persists (R : α → α → Prop) (a b : Option α) : Prop := ∀ x ∈ a, ∃ y ∈ b, R x y

/-- What `a` holds, `b` holds too or more of it. -/
abbrev Climbs [LE α] (a b : Option α) : Prop := Persists (· ≤ ·) a b

theorem Persists.refl (hR : ∀ x, R x x) (a : Option α) : Persists R a a := fun x hx => ⟨x, hx, hR x⟩

theorem Persists.trans (hR : ∀ x y z, R x y → R y z → R x z) (h : Persists R a b)
    (h' : Persists R b c) : Persists R a c := by
  intro x hx
  obtain ⟨y, hy, hxy⟩ := h x hx
  obtain ⟨z, hz, hyz⟩ := h' y hy
  exact ⟨z, hz, hR x y z hxy hyz⟩

theorem persists_none (R : α → α → Prop) (b : Option α) : Persists R none b := fun _ hx => by cases hx

theorem persists_some (h : R x y) : Persists R (some x) (some y) := by
  rintro _ ⟨⟩
  exact ⟨y, rfl, h⟩

theorem persists_set (hR : ∀ x, R x x) {l : List α} {j : Nat} (hx : l[j]? = some x) (h : R x y)
    (i : Nat) : Persists R l[i]? (l.set j y)[i]? := by
  rw [List.getElem?_set]
  by_cases hij : j = i
  · subst hij
    rw [if_pos rfl, if_pos (lt_of_getElem? hx), hx]
    exact persists_some h
  · rw [if_neg hij]
    exact .refl hR _

theorem persists_append (hR : ∀ x, R x x) (l k : List α) (i : Nat) :
    Persists R l[i]? (l ++ k)[i]? := by
  intro x hx
  have hlt : i < l.length := (lt_of_getElem? hx)
  rw [List.getElem?_append_left hlt]
  exact ⟨x, hx, hR x⟩

theorem persists_modify (hR : ∀ x, R x x) {l : Array α} {f : α → α} (hf : ∀ x, R x (f x)) (j i : Nat) :
    Persists R l[i]? (l.modify j f)[i]? := by
  rw [Array.getElem?_modify]
  split
  · rcases l[i]? with _ | x
    · exact persists_none R _
    · exact persists_some (hf x)
  · exact .refl hR _

end Persists

/-! ### The orders -/

/-- The same calls, for which more types have been seen. -/
structure CallEdge.Le (a b : CallEdge) : Prop where
  text : b = { a with argTypes := b.argTypes }
  argTypes : ∀ i : Nat, Climbs a.argTypes[i]? b.argTypes[i]?

instance : LE CallEdge := ⟨CallEdge.Le⟩

theorem CallEdge.le_refl (a : CallEdge) : a ≤ a := ⟨rfl, fun _ => .refl TypeSet.le_refl _⟩

theorem CallEdge.le_trans {a b c : CallEdge} (h : a ≤ b) (h' : b ≤ c) : a ≤ c :=
  ⟨by rw [h'.text, h.text],
    fun i => (h.argTypes i).trans (fun _ _ _ => TypeSet.le_trans) (h'.argTypes i)⟩

theorem CallGraph.climbs_unionArgs : ∀ (old new : List TypeSet) (i : Nat),
    Climbs old[i]? (unionArgs old new)[i]?
  | [], _, _ => persists_none _ _
  | _ :: _, [], _ => .refl le_refl _
  | o :: _, n :: _, 0 => persists_some (le_union_left o n)
  | _ :: old, _ :: new, i + 1 => climbs_unionArgs old new i

/-- A call is never forgotten. -/
theorem CallGraph.climbs_add (g : CallGraph) (e : CallEdge) (i : Nat) :
    Climbs g.edges[i]? (g.add e).2.edges[i]? := by
  rw [edges_add]
  induction g.edges generalizing i with
  | nil => exact persists_none _ _
  | cons d rest ih =>
    rw [addTo]
    split
    · cases i with
      | zero => exact persists_some ⟨rfl, climbs_unionArgs _ _⟩
      | succ i => exact .refl CallEdge.le_refl _
    · cases i with
      | zero => exact persists_some (CallEdge.le_refl d)
      | succ i => exact ih i

/-- The variable is found initialized on no fewer paths to some of the reads, and on no more
paths to all of them. -/
structure ReadSite.Le (a b : ReadSite) : Prop where
  var : b.var = a.var
  possibly : a.possibly = true → b.possibly = true
  certainly : b.certainly = true → a.certainly = true

instance : LE ReadSite := ⟨ReadSite.Le⟩

theorem ReadSite.le_refl (a : ReadSite) : a ≤ a := ⟨rfl, id, id⟩

theorem ReadSite.le_trans {a b c : ReadSite} (h : a ≤ b) (h' : b ≤ c) : a ≤ c :=
  ⟨h'.var.trans h.var, fun hp => h'.possibly (h.possibly hp), fun hc => h.certainly (h'.certainly hc)⟩

/-- More types are known of an expression, and what was known of it as a read. -/
structure Fact.Le (a b : Fact) : Prop where
  types : a.types ≤ b.types
  read : Climbs a.read b.read

instance : LE Fact := ⟨Fact.Le⟩

theorem Fact.le_refl (a : Fact) : a ≤ a :=
  ⟨TypeSet.le_refl _, .refl ReadSite.le_refl _⟩

theorem Fact.le_trans {a b c : Fact} (h : a ≤ b) (h' : b ≤ c) : a ≤ c :=
  ⟨TypeSet.le_trans h.types h'.types, h.read.trans (fun _ _ _ => ReadSite.le_trans) h'.read⟩

namespace Flow

/-- The variable has been given more types and keeps more. -/
structure Variable.Le (a b : Variable) : Prop where
  name : b.name = a.name
  types : a.types ≤ b.types
  kept : Climbs a.kept b.kept

instance : LE Variable := ⟨Variable.Le⟩

theorem Variable.le_refl (a : Variable) : a ≤ a :=
  ⟨rfl, TypeSet.le_refl _, .refl TypeSet.le_refl _⟩

theorem Variable.le_trans {a b c : Variable} (h : a ≤ b) (h' : b ≤ c) : a ≤ c :=
  ⟨h'.name.trans h.name, TypeSet.le_trans h.types h'.types,
    h.kept.trans (fun _ _ _ => TypeSet.le_trans) h'.kept⟩

namespace Scope

variable {grew : Bool}

/-- More is known of each variable and of what is returned. -/
structure Le (a b : Scope) : Prop where
  vars : ∀ i : Nat, Climbs a.vars[i]? b.vars[i]?
  returns : a.returns ≤ b.returns

instance : LE Scope := ⟨Le⟩

protected theorem le_refl (a : Scope) : a ≤ a :=
  ⟨fun _ => .refl Variable.le_refl _, le_refl _⟩

protected theorem le_trans {a b c : Scope} (h : a ≤ b) (h' : b ≤ c) : a ≤ c :=
  ⟨fun i => (h.vars i).trans (fun _ _ _ => Variable.le_trans) (h'.vars i),
    le_trans h.returns h'.returns⟩

/-! ### What is done to a scope -/

variable {s s' : Scope} {i : Nat} {t : TypeSet}

theorem le_declare (s : Scope) (name : String) : s ≤ (s.declare name).2 := by
  unfold declare
  split
  · exact Scope.le_refl s
  · exact ⟨fun i => persists_append Variable.le_refl _ _ i, le_refl _⟩

theorem le_use (s : Scope) (name : String) : s ≤ (s.use name).2 :=
  ⟨(le_declare s name).vars, (le_declare s name).returns⟩

theorem le_addTypes (h : s.addTypes i t = .ok (grew, s')) : s ≤ s' := by
  obtain ⟨v, hv, rfl⟩ := addTypes_ok h
  refine ⟨persists_set Variable.le_refl hv ?_, le_refl _⟩
  exact ⟨rfl, le_union_left _ _, .refl le_refl _⟩

theorem le_addKept (h : s.addKept i t = .ok (grew, s')) : s ≤ s' := by
  obtain ⟨v, all, hv, hall, rfl⟩ := addKept_ok h
  refine ⟨persists_set Variable.le_refl hv ⟨rfl, le_refl _, ?_⟩, le_refl _⟩
  exact fun old hold => ⟨all, rfl, hall old hold⟩

theorem le_alias (s : Scope) (aliased : VarSet) : s ≤ { s with aliased } :=
  ⟨fun _ => .refl Variable.le_refl _, le_refl _⟩

theorem le_addReturn (s : Scope) (t : TypeSet) : s ≤ (s.addReturn t).2 :=
  ⟨fun _ => .refl Variable.le_refl _, le_union_left _ _⟩

end Scope
end Flow

namespace Routine

variable {changed : Bool}

/-- The same routine, of which more is known. -/
structure Le (r r' : Routine) : Prop where
  text : r' = { r with
    scope := r'.scope, status := r'.status, facts := r'.facts, inputs := r'.inputs
    sites := r'.sites, observed := r'.observed, pending := r'.pending, flags := r'.flags
    candidates := r'.candidates, applied := r'.applied }
  scope : r.scope ≤ r'.scope
  facts : ∀ k : Nat, Climbs r.facts[k]? r'.facts[k]?
  inputs : ∀ b, Climbs (r.input? b) (r'.input? b)
  observed : List.Forall₂ (· ≤ ·) r.observed r'.observed

instance : LE Routine := ⟨Le⟩

/-- Nor has it been cloned, or proposed to be. -/
structure Gains (r r' : Routine) : Prop extends Le r r' where
  candidates : r'.candidates = r.candidates
  applied : r'.applied = r.applied

variable {r r' r'' : Routine} {b : Nat}

theorem observed_le_refl (l : List TypeSet) : List.Forall₂ (· ≤ ·) l l :=
  List.forall₂_same.2 fun t _ => le_refl t

protected theorem le_refl (r : Routine) : r ≤ r where
  text := rfl
  scope := Scope.le_refl _
  facts _ := .refl Fact.le_refl _
  inputs _ := .refl State.le_refl _
  observed := observed_le_refl _

protected theorem le_trans (h : r ≤ r') (h' : r' ≤ r'') : r ≤ r'' where
  text := by rw [h'.text, h.text]
  scope := Scope.le_trans h.scope h'.scope
  facts k := (h.facts k).trans (fun _ _ _ => Fact.le_trans) (h'.facts k)
  inputs b := (h.inputs b).trans (fun _ _ _ => State.le_trans) (h'.inputs b)
  observed := forall₂_trans (R := (· ≤ ·)) (fun _ _ _ => le_trans) h.observed h'.observed

theorem Gains.refl (r : Routine) : r.Gains r := ⟨Routine.le_refl r, rfl, rfl⟩

theorem Gains.trans (h : r.Gains r') (h' : r'.Gains r'') : r.Gains r'' :=
  ⟨Routine.le_trans h.toLe h'.toLe, h'.candidates.trans h.candidates, h'.applied.trans h.applied⟩

/-! ### What is done to a routine -/

theorem Gains.id_eq (h : r.Gains r') : r'.id = r.id := by rw [h.text]

theorem gains_facts {facts : Array Fact} (h : ∀ k : Nat, Climbs r.facts[k]? facts[k]?) :
    r.Gains { r with facts } := { Gains.refl r with facts := h, text := rfl }

theorem gains_scope {scope : Scope} (h : r.scope ≤ scope) : r.Gains { r with scope } :=
  { Gains.refl r with scope := h, text := rfl }

theorem gains_marks (r : Routine) (status : Status) (sites : List (Nat × Nat)) (pending : Agenda Nat)
    (flags : Flags) : r.Gains { r with status, sites, pending, flags } :=
  { Gains.refl r with text := rfl }

theorem gains_queue (r : Routine) (b : Nat) : r.Gains (r.queue b) :=
  gains_marks r r.status r.sites _ r.flags

theorem persists_input {new : State} (hold : ∀ s ∈ r.input? b, s ≤ new) (c : Nat) :
    Climbs (r.input? c) ((r.setInput b new).input? c) := by
  intro s hs
  unfold input? setInput at *
  rw [Array.getElem?_setIfInBounds]
  by_cases hbc : b = c
  · subst hbc
    have hlt : b < r.inputs.size := by
      by_contra hge
      rw [Array.getElem?_eq_none (by omega)] at hs
      cases hs
    rw [if_pos rfl, if_pos hlt]
    exact ⟨new, rfl, hold s hs⟩
  · rw [if_neg hbc]
    exact ⟨s, hs, State.le_refl s⟩

theorem gains_flowInto {s : State} (h : r.flowInto b s = .ok (changed, r')) :
    r.Gains r' := by
  rcases flowInto_cases h with rfl | ⟨new, rfl, hnew⟩
  · exact .refl r'
  · refine { Gains.refl r with inputs := persists_input fun s0 hs0 => ?_, text := rfl }
    rcases hnew with ⟨hnone, -⟩ | ⟨old, hold, hjoin⟩
    · rw [hnone] at hs0
      cases hs0
    · obtain rfl := Option.mem_unique hold hs0
      exact (State.join_bounds hjoin).1

theorem gains_seed (h : r.seed = .ok (changed, r')) : r.Gains r' := gains_flowInto h

theorem le_observe : ∀ seen args : List TypeSet, List.Forall₂ (· ≤ ·) seen (observe seen args)
  | [], _ => by
    rw [observe]
    · exact .nil
    · exact fun _ _ _ _ h => by cases h
  | s :: seen, [] => by
    rw [observe]
    · exact observed_le_refl _
    · exact fun _ _ _ _ _ h => by cases h
  | s :: seen, a :: args => by
    rw [observe]
    exact .cons (le_union_left _ _) (le_observe seen args)

theorem gains_observe (r : Routine) (args : Tuple) :
    r.Gains { r with observed := observe r.observed args } :=
  { Gains.refl r with observed := le_observe _ _, text := rfl }

end Routine
end ShapeFlow
