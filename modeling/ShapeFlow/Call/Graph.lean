/-
# The call graph

Who calls whom, from which expression, with arguments of which types.  Edges
are never removed: a call seen once stays evidence.  Calls from one expression
to one routine share an edge, whose argument types accumulate.

Beside the edges it is kept where they are: by link, by callee and by caller.  A
call that tells nothing new is answered without writing anything.  All of this
has to agree with the edges, and in a call graph it does: adding a call is adding
it to the list of edges (`addTo`), and the edges into and out of a routine are
those of the list.

Key definitions: `Edges`, `Edges.add`, `Edges.Agrees`, `CallGraph.addTo`.
Key theorems: `Edges.Agrees.add`, `CallGraph.add_eq`, `CallGraph.add_cases`, `CallGraph.into_eq`,
`CallGraph.outOf_eq`.
-/
import ShapeFlow.TypeSet

namespace ShapeFlow

/-- The calls from one expression of a routine to another routine. -/
structure CallEdge where
  caller : Nat
  callee : Nat
  /-- The calling expression. -/
  site : Nat
  /-- The block the expression is in. -/
  block : Nat
  argExprs : List Nat
  /-- The types of each argument in all calls so far. -/
  argTypes : List TypeSet
deriving DecidableEq, Inhabited

/-- What adding a call changed. -/
inductive CallChange where
  /-- The first call from there. -/
  | new
  /-- The types of some argument grew. -/
  | widened
  | unchanged
deriving DecidableEq, Inhabited

namespace CallGraph

/-- The types of each argument in either list.  A list that ends has void there. -/
def unionArgs : List TypeSet → List TypeSet → List TypeSet
  | [], new => new
  | old, [] => old
  | o :: old, n :: new => (o ∪ n) :: unionArgs old new

/-- Some argument has types in `new` that it has not in `old`. -/
def argsGrow : List TypeSet → List TypeSet → Bool
  | _, [] => false
  | [], new => new.any (· != .void)
  | o :: old, n :: new => (o ∪ n) != o || argsGrow old new

end CallGraph

namespace CallEdge

/-- What calls that share an edge have in common: the caller, the callee and the expression. -/
def link (e : CallEdge) : Nat × Nat × Nat := (e.caller, e.callee, e.site)

/-- The edge with the arguments of another call taken in. -/
def take (d e : CallEdge) : CallEdge :=
  { d with argTypes := CallGraph.unionArgs d.argTypes e.argTypes }

/-- What taking the other call in changes. -/
def change (d e : CallEdge) : CallChange :=
  if CallGraph.argsGrow d.argTypes e.argTypes then .widened else .unchanged

/-- The other call has no more arguments, and these no other types. -/
def covers (d e : CallEdge) : Bool :=
  e.argTypes.length ≤ d.argTypes.length && (e.argTypes.zip d.argTypes).all fun (n, o) => o ∪ n == o

end CallEdge

/-- The calls seen so far, and where they are. -/
structure Edges where
  /-- In the order of the first of each. -/
  edges : List CallEdge := []
  /-- Where the edge over a link is. -/
  index : Nat × Nat × Nat → Option Nat := fun _ => none
  /-- Where the calls of a routine are, in order. -/
  callers : Nat → List Nat := fun _ => []
  /-- Where the calls that a routine makes are, in order. -/
  callees : Nat → List Nat := fun _ => []

namespace Edges

/-- Puts a call last. -/
def push (g : Edges) (e : CallEdge) : Edges where
  edges := g.edges ++ [e]
  index k := if k = e.link then some g.edges.length else g.index k
  callers c := if c = e.callee then g.callers c ++ [g.edges.length] else g.callers c
  callees c := if c = e.caller then g.callees c ++ [g.edges.length] else g.callees c

/-- The answer to a call that tells nothing new. -/
def read? (g : Edges) (e : CallEdge) : Option CallChange :=
  if ((g.index e.link).bind (g.edges[·]?)).any (·.covers e) then some .unchanged else none

/-- Writes a call down. -/
def write (g : Edges) (e : CallEdge) : CallChange × Edges :=
  match g.index e.link with
  | some i => ((g.edges[i]?.map (·.change e)).getD .unchanged,
      { g with edges := g.edges.modify i (·.take e) })
  | none => (.new, g.push e)

/-- Records a call.  Nothing is written if it tells nothing new. -/
def add (g : Edges) (e : CallEdge) : CallChange × Edges :=
  match g.read? e with
  | some change => (change, g)
  | none => g.write e

/-- The calls of routine `id`, in order. -/
def into (g : Edges) (id : Nat) : List CallEdge := (g.callers id).filterMap (g.edges[·]?)

/-- The calls that routine `id` makes, in order. -/
def outOf (g : Edges) (id : Nat) : List CallEdge := (g.callees id).filterMap (g.edges[·]?)

def size (g : Edges) : Nat := g.edges.length

/-! ### The edges as a list -/

/-- The places at which `c` is in a list. -/
def places (l : List Nat) (c : Nat) : List Nat := (l.zipIdx.filter (·.1 == c)).map (·.2)

/-- What is kept beside the edges tells where they are. -/
structure Agrees (g : Edges) : Prop where
  index : ∀ k, g.index k = (g.edges.map CallEdge.link).idxOf? k
  callers : ∀ c, g.callers c = places (g.edges.map (·.callee)) c
  callees : ∀ c, g.callees c = places (g.edges.map (·.caller)) c

variable {g : Edges} {e d : CallEdge}

theorem agrees_empty : Agrees {} := ⟨fun _ => rfl, fun _ => rfl, fun _ => rfl⟩

theorem places_append (l : List Nat) (a c : Nat) :
    places (l ++ [a]) c = if c = a then places l c ++ [l.length] else places l c := by
  rw [places, List.zipIdx_append, List.filter_append, List.map_append, ← places]
  split
  next h => simp [h]
  next h => simp [Ne.symm h]

theorem Agrees.push (h : g.Agrees) (hnew : g.index e.link = none) : (g.push e).Agrees := by
  rw [h.index, List.idxOf?_eq_none_iff] at hnew
  refine ⟨fun k => ?_, fun c => ?_, fun c => ?_⟩
  · show (if k = e.link then _ else _) = _
    rw [h.index, Edges.push, List.map_append, List.idxOf?, List.findIdx?_append, ← List.idxOf?]
    split
    next hk => simp [hk, List.idxOf?_eq_none_iff.2 hnew]
    next hk => simp [Ne.symm hk]
  · show (if c = e.callee then _ else _) = _
    rw [h.callers, Edges.push, List.map_append, List.map_singleton, places_append, List.length_map]
  · show (if c = e.caller then _ else _) = _
    rw [h.callees, Edges.push, List.map_append, List.map_singleton, places_append, List.length_map]

theorem map_modify_take {β : Type} (f : CallEdge → β) (hf : ∀ d, f (d.take e) = f d)
    (l : List CallEdge) (i : Nat) : (l.modify i (·.take e)).map f = l.map f := by
  refine List.ext_getElem? fun j => ?_
  rw [List.getElem?_map, List.getElem?_map, List.getElem?_modify]
  cases l[j]? with
  | none => rfl
  | some d => by_cases hij : i = j <;> simp [hij, hf]

theorem Agrees.add (h : g.Agrees) (e : CallEdge) : (g.add e).2.Agrees := by
  unfold Edges.add
  split
  next => exact h
  next =>
    unfold write
    split
    next i _ =>
      refine ⟨fun k => ?_, fun c => ?_, fun c => ?_⟩
      · rw [h.index, ← map_modify_take CallEdge.link (fun _ => rfl) g.edges i]
      · rw [h.callers, ← map_modify_take (·.callee) (fun _ => rfl) g.edges i]
      · rw [h.callees, ← map_modify_take (·.caller) (fun _ => rfl) g.edges i]
    next hnew => exact h.push hnew

end Edges

/-- The calls seen so far. -/
structure CallGraph extends Edges where
  agrees : toEdges.Agrees := by exact Edges.agrees_empty

namespace CallGraph

instance : Inhabited CallGraph := ⟨{}⟩

/-- Records a call. -/
def add (g : CallGraph) (e : CallEdge) : CallChange × CallGraph :=
  ((g.toEdges.add e).1, ⟨(g.toEdges.add e).2, g.agrees.add e⟩)

/-- Adds a call to a list of edges. -/
def addTo (e : CallEdge) : List CallEdge → CallChange × List CallEdge
  | [] => (.new, [e])
  | d :: rest =>
    if d.link = e.link then (d.change e, d.take e :: rest)
    else ((addTo e rest).1, d :: (addTo e rest).2)

variable {e d : CallEdge}

theorem addTo_eq (e : CallEdge) : ∀ l : List CallEdge, addTo e l =
    match (l.map CallEdge.link).idxOf? e.link with
    | none => (.new, l ++ [e])
    | some i => ((l[i]?.map (·.change e)).getD .unchanged, l.modify i (·.take e))
  | [] => rfl
  | d :: l => by
    rw [addTo, addTo_eq e l, List.map_cons, List.idxOf?_cons]
    by_cases h : d.link = e.link
    · simp [h]
    · simp only [h, if_false, beq_iff_eq]
      cases (l.map CallEdge.link).idxOf? e.link <;> simp

/-- A call that is covered changes nothing. -/
theorem take_of_covers : ∀ {old new : List TypeSet}, new.length ≤ old.length →
    ((new.zip old).all fun (n, o) => o ∪ n == o) = true →
    unionArgs old new = old ∧ argsGrow old new = false
  | old, [], _, _ => by cases old <;> simp [unionArgs, argsGrow]
  | [], n :: new, h, _ => by simp at h
  | o :: old, n :: new, h, hall => by
    simp only [List.zip_cons_cons, List.all_cons, Bool.and_eq_true, beq_iff_eq] at hall
    obtain ⟨heq, hgrow⟩ := take_of_covers (Nat.le_of_succ_le_succ h) hall.2
    simp [unionArgs, argsGrow, hall.1, heq, hgrow]

/-- **What is found without writing is what writing would give.** -/
theorem write_of_read? {g : Edges} {c : CallChange} (h : g.read? e = some c) : g.write e = (c, g) := by
  unfold Edges.read? at h
  split at h
  next hcovers =>
    cases h
    obtain ⟨d, hd, hcovers⟩ := (Option.any_eq_true _ _).1 hcovers
    obtain ⟨i, hi, hd⟩ := Option.bind_eq_some_iff.1 hd
    simp only [CallEdge.covers, Bool.and_eq_true, decide_eq_true_eq] at hcovers
    obtain ⟨htypes, hgrow⟩ := take_of_covers hcovers.1 hcovers.2
    have htake : d.take e = d := by rw [CallEdge.take, htypes]
    have hmodify : g.edges.modify i (·.take e) = g.edges := by
      refine List.ext_getElem? fun j => ?_
      rw [List.getElem?_modify]
      by_cases hij : i = j
      · simp [← hij, hd, htake]
      · simp [hij]
    rw [Edges.write, hi]
    simp [hd, hmodify, CallEdge.change, hgrow]
  next => cases h

/-- **Adding a call** is adding it to the list. -/
theorem add_eq (g : CallGraph) (e : CallEdge) :
    ((g.add e).1, (g.add e).2.edges) = addTo e g.edges := by
  have hadd : g.toEdges.add e = g.toEdges.write e := by
    unfold Edges.add
    split
    next h => rw [write_of_read? h]
    next => rfl
  show ((g.toEdges.add e).1, (g.toEdges.add e).2.edges) = _
  rw [hadd, Edges.write, addTo_eq, ← g.agrees.index]
  cases g.index e.link <;> rfl

theorem edges_add (g : CallGraph) (e : CallEdge) : (g.add e).2.edges = (addTo e g.edges).2 :=
  congrArg Prod.snd (g.add_eq e)

theorem addTo_cases (e : CallEdge) : ∀ l : List CallEdge,
    (e.link ∉ l.map CallEdge.link ∧ addTo e l = (.new, l ++ [e])) ∨
      ∃ l1 d l2, l = l1 ++ d :: l2 ∧ d.link = e.link ∧ addTo e l = (d.change e, l1 ++ d.take e :: l2)
  | [] => .inl ⟨by simp, rfl⟩
  | d :: l => by
    by_cases hlink : d.link = e.link
    · exact .inr ⟨[], d, l, rfl, hlink, by simp [addTo, hlink]⟩
    · rcases addTo_cases e l with ⟨hnew, heq⟩ | ⟨l1, d', l2, rfl, hd', heq⟩
      · exact .inl ⟨by simpa [Ne.symm hlink] using hnew, by simp [addTo, hlink, heq]⟩
      · exact .inr ⟨d :: l1, d', l2, rfl, hd', by simp [addTo, hlink, heq]⟩

/-- **What adding a call does.**  It is put last if its link is new; otherwise the edge over its link
takes its arguments in. -/
theorem add_cases (g : CallGraph) (e : CallEdge) :
    (e.link ∉ g.edges.map CallEdge.link ∧ (g.add e).1 = .new ∧ (g.add e).2.edges = g.edges ++ [e]) ∨
      ∃ l1 d l2, g.edges = l1 ++ d :: l2 ∧ d.link = e.link ∧
        (g.add e).1 = d.change e ∧ (g.add e).2.edges = l1 ++ d.take e :: l2 := by
  have hadd := g.add_eq e
  rcases addTo_cases e g.edges with ⟨hnew, heq⟩ | ⟨l1, d, l2, hg, hlink, heq⟩
  · exact .inl ⟨hnew, Prod.mk.inj (hadd.trans heq)⟩
  · exact .inr ⟨l1, d, l2, hg, hlink, Prod.mk.inj (hadd.trans heq)⟩

theorem filterMap_places (f : CallEdge → Nat) (l : List CallEdge) (c : Nat) :
    (Edges.places (l.map f) c).filterMap (l[·]?) = l.filter (f · == c) := by
  have hthere : ∀ xs : List (CallEdge × Nat), (∀ x ∈ xs, x ∈ l.zipIdx) →
      xs.filterMap (l[·.2]?) = xs.map (·.1) := fun xs hxs => by
    induction xs with
    | nil => rfl
    | cons x xs ih =>
      rw [List.filterMap_cons, List.mem_zipIdx_iff_getElem?.1 (hxs x (.head _)),
        ih fun y hy => hxs y (.tail _ hy), List.map_cons]
  calc (Edges.places (l.map f) c).filterMap (l[·]?)
      = (l.zipIdx.filter (f ·.1 == c)).filterMap (l[·.2]?) := by
        rw [Edges.places, List.zipIdx_map, List.filter_map, List.map_map, List.filterMap_map]
        rfl
    _ = (l.zipIdx.filter (f ·.1 == c)).map (·.1) := hthere _ fun _ hx => (List.mem_filter.1 hx).1
    _ = (l.zipIdx.map (·.1)).filter (f · == c) := by
        rw [List.filter_map]
        rfl
    _ = l.filter (f · == c) := by rw [show l.zipIdx.map (·.1) = l from List.zipIdx_map_fst 0 l]

theorem into_eq (g : CallGraph) (c : Nat) : g.into c = g.edges.filter (·.callee == c) := by
  rw [Edges.into, g.agrees.callers, filterMap_places]

theorem outOf_eq (g : CallGraph) (c : Nat) : g.outOf c = g.edges.filter (·.caller == c) := by
  rw [Edges.outOf, g.agrees.callees, filterMap_places]

theorem mem_into {g : CallGraph} {c : Nat} : e ∈ g.into c ↔ e ∈ g.edges ∧ e.callee = c := by
  rw [into_eq, List.mem_filter, beq_iff_eq]

theorem mem_outOf {g : CallGraph} {c : Nat} : e ∈ g.outOf c ↔ e ∈ g.edges ∧ e.caller = c := by
  rw [outOf_eq, List.mem_filter, beq_iff_eq]

end CallGraph
end ShapeFlow
