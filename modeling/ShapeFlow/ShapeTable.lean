/-
# The table of shapes

Shapes are numbered in the order they are first met; the number is the index
by which type sets know them.  The table holds at most 63 shapes.  A shape that
finds no room is answered with the any-type, which covers it.

Beside the list of shapes it is kept where each of them is, and which are arrays
and which are objects.  In a table all of this agrees.

Key definitions: `Registry.intern`, `Registry.Agrees`, `ShapeTable.arrayOf`,
`ShapeTable.element`, `ShapeTable.restrict`, `ShapeTable.isKind`.
Key theorems: `Registry.Agrees.intern`, `ShapeTable.intern_cases`.

A set may hold an index that stands for no shape yet.  Whatever has to look at
the shapes of a set answers `none` then.
-/
import ShapeFlow.Shape

namespace ShapeFlow

/-- The shapes met so far, and what is kept to find them. -/
structure Registry where
  /-- Each shape at its index. -/
  shapes : List Shape := []
  /-- The index of each shape. -/
  index : Shape → Option Nat := fun _ => none
  /-- The indices of arrays. -/
  arrays : TypeSet := .void
  /-- The indices of objects. -/
  objects : TypeSet := .void

namespace Registry

/-- The number of shapes. -/
def size (t : Registry) : Nat := t.shapes.length

/-- Gives `s` the next index. -/
def push (t : Registry) (s : Shape) : Registry where
  shapes := t.shapes ++ [s]
  index u := if u = s then some t.size else t.index u
  arrays := if s.isArray then t.arrays ∪ .single t.size else t.arrays
  objects := if s.isObject then t.objects ∪ .single t.size else t.objects

/-- The set of one shape, which gets the next index if it is new.  A full registry
answers the any-type for a new shape. -/
def intern (t : Registry) (s : Shape) : TypeSet × Registry :=
  match t.index s with
  | some i => (.single i, t)
  | none => if t.size < TypeSet.capacity then (.single t.size, t.push s) else (.any, t)

/-- The set holds the indices of the shapes that satisfy `p`. -/
structure Selects (l : List Shape) (p : Shape → Bool) (m : TypeSet) : Prop where
  plain : m.byRef = false
  mem_iff : ∀ i, i ∈ m ↔ ∃ s, l[i]? = some s ∧ p s = true

/-- The index undoes the list, and the sets of arrays and of objects are what they should be. -/
structure Agrees (t : Registry) : Prop where
  room : t.size ≤ TypeSet.capacity
  inverse : ∀ s i, t.index s = some i ↔ t.shapes[i]? = some s
  arrays : Selects t.shapes Shape.isArray t.arrays
  objects : Selects t.shapes Shape.isObject t.objects

variable {t : Registry} {s u : Shape} {i : Nat} {l : List Shape} {p : Shape → Bool} {m : TypeSet}

theorem agrees_empty : Agrees {} where
  room := Nat.zero_le _
  inverse _ _ := by simp
  arrays := ⟨rfl, by simp⟩
  objects := ⟨rfl, by simp⟩

theorem getElem?_append_iff : (l ++ [s])[i]? = some u ↔ l[i]? = some u ∨ i = l.length ∧ u = s := by
  rcases Nat.lt_trichotomy i l.length with h | rfl | h
  · simp [List.getElem?_append_left h, Nat.ne_of_lt h]
  · simp [eq_comm]
  · have hlen : (l ++ [s]).length ≤ i := by simpa using Nat.succ_le_of_lt h
    simp [List.getElem?_eq_none hlen, List.getElem?_eq_none (Nat.le_of_lt h), Nat.ne_of_gt h]

theorem Selects.push (h : Selects l p m) (hroom : l.length < TypeSet.capacity) (s : Shape) :
    Selects (l ++ [s]) p (if p s then m ∪ .single l.length else m) := by
  have hmore : ∀ i, (∃ u, (l ++ [s])[i]? = some u ∧ p u = true) ↔
      i ∈ m ∨ i = l.length ∧ p s = true := fun i => by
    simp only [getElem?_append_iff, or_and_right, exists_or, h.mem_iff, and_assoc, exists_and_left,
      exists_eq_left]
  split
  next hs =>
    refine ⟨by show (m.byRef || false) = false; rw [h.plain]; rfl, fun i => ?_⟩
    rw [hmore, TypeSet.mem_union, TypeSet.mem_single]
    exact or_congr_right ⟨fun hi => ⟨hi.1, hs⟩, fun hi => ⟨hi.1, hi.1 ▸ hroom⟩⟩
  next hs => exact ⟨h.plain, fun i => by simp [hmore, hs]⟩

theorem Agrees.push (h : t.Agrees) (hs : t.index s = none) (hroom : t.size < TypeSet.capacity) :
    (t.push s).Agrees where
  room := by simpa [Registry.push, size] using Nat.succ_le_of_lt hroom
  inverse u i := by
    show (if u = s then some t.size else t.index u) = some i ↔ (t.shapes ++ [s])[i]? = some u
    rw [getElem?_append_iff, ← h.inverse]
    split
    next hu => simp [hu, hs, size, eq_comm]
    next hu => simp [hu]
  arrays := h.arrays.push hroom s
  objects := h.objects.push hroom s

/-- **Interning** keeps all of it in agreement. -/
theorem Agrees.intern (h : t.Agrees) (s : Shape) : (t.intern s).2.Agrees := by
  unfold Registry.intern
  split
  next => exact h
  next hs =>
    split
    next hroom => exact h.push hs hroom
    next => exact h

end Registry

/-- The shapes met so far, with an index and sets that agree with them. -/
structure ShapeTable extends Registry where
  agrees : toRegistry.Agrees

namespace ShapeTable

/-- The set of one shape, which gets the next index if it is new. -/
def intern (t : ShapeTable) (s : Shape) : TypeSet × ShapeTable :=
  ((t.toRegistry.intern s).1, ⟨(t.toRegistry.intern s).2, t.agrees.intern s⟩)

/-- The table every program starts from.  The order fixes the indices of
`TypeSet.null`, `TypeSet.bool` and so on. -/
def standard : ShapeTable :=
  [.null, .bool, .int, .float, .number, .string, .array .any, .object, .closure,
    .resource].foldl (fun t s => (t.intern s).2) ⟨{}, Registry.agrees_empty⟩

instance : Inhabited ShapeTable := ⟨standard⟩

/-- The objects of class `name`. -/
def named (t : ShapeTable) (name : String) : TypeSet × ShapeTable := t.intern (.named name)

/-- All known shapes of a kind. -/
def ofKind (t : ShapeTable) : Kind → TypeSet
  | .array => t.arrays
  | .object => t.objects
  | k => k.representative

/-- Arrays of `elems`.  An array among the elements counts as an array of
unknown elements, so nesting arrays cannot use up the table. -/
def arrayOf (t : ShapeTable) (elems : TypeSet) : TypeSet × ShapeTable :=
  let arrays := t.ofKind .array
  if elems.isAny then (.array, t)
  else if elems.meets arrays then t.intern (.array (elems.plain.remove arrays ∪ .array))
  else t.intern (.array elems.plain)

/-- The shapes of a set, in the order of their indices. -/
def shapesOf (t : ShapeTable) (s : TypeSet) : Option (List Shape) :=
  s.members.mapM fun i => t.shapes[i]?

/-- What reading an element of `s` gives.  Void stays void: no value has
reached the read yet.  An empty array reads as null. -/
def element (t : ShapeTable) (s : TypeSet) : Option TypeSet :=
  if s.isAny then some .any
  else if s.isVoid then some .void
  else do
    let shapes ← t.shapesOf s
    let read := shapes.foldl (fun acc sh => acc ∪ sh.element) .void
    return if read.isVoid then .null else read

/-- The elements of the arrays of `s`; an empty array has none. -/
def elements (t : ShapeTable) (s : TypeSet) : Option TypeSet :=
  if s.isAny then some .any
  else do
    let shapes ← t.shapesOf s
    return shapes.foldl (fun acc sh => acc ∪ sh.elements) .void

/-- The shapes of `s` of a kind.  The any-type keeps all of them. -/
def restrict (t : ShapeTable) (s : TypeSet) (k : Kind) : TypeSet :=
  if s.isAny then .any else s.common (t.ofKind k)

/-- Every value of `s` is certainly of the kind.  Of void and of the any-type
nothing is certain. -/
def isKind (t : ShapeTable) (s : TypeSet) (k : Kind) : Bool :=
  !s.isVoid && !s.isAny && s ⊆ t.ofKind k

/-- Some value of `s` may be of the kind. -/
def canBe (t : ShapeTable) (s : TypeSet) (k : Kind) : Bool :=
  s.isAny || s.meets (t.ofKind k)

/-- The shape of a set of one. -/
def single? (t : ShapeTable) (s : TypeSet) : Option Shape :=
  match s.members with
  | [i] => t.shapes[i]?
  | _ => none

/-! ### Interning -/

variable {t t' : ShapeTable} {s : Shape} {i : Nat}

/-- A table is its shapes. -/
theorem ext_shapes (h : t.shapes = t'.shapes) : t = t' := by
  have hselects : ∀ {p : Shape → Bool} {m m' : TypeSet}, Registry.Selects t.shapes p m →
      Registry.Selects t'.shapes p m' → m = m' := fun hm hm' =>
    TypeSet.ext_mem (fun i => by rw [hm.mem_iff, hm'.mem_iff, h]) (hm.plain.trans hm'.plain.symm)
  have hindex : t.index = t'.index := funext fun s => Option.ext fun i => by
    rw [t.agrees.inverse, t'.agrees.inverse, h]
  have harrays := hselects t.agrees.arrays t'.agrees.arrays
  have hobjects := hselects t.agrees.objects t'.agrees.objects
  obtain ⟨⟨_, _, _, _⟩, _⟩ := t
  obtain ⟨⟨_, _, _, _⟩, _⟩ := t'
  cases h
  cases hindex
  cases harrays
  cases hobjects
  rfl

instance : DecidableEq ShapeTable := fun t t' =>
  decidable_of_iff (t.shapes = t'.shapes) ⟨ext_shapes, fun h => h ▸ rfl⟩

theorem shapes_standard : standard.shapes = [.null, .bool, .int, .float, .number, .string,
    .array .any, .object, .closure, .resource] := rfl

/-- **What interning does**: a shape that is there is found, a new one is put last, and there is
the any-type for a new one that finds no room. -/
theorem intern_cases (t : ShapeTable) (s : Shape) :
    (∃ i, t.shapes[i]? = some s ∧ t.intern s = (.single i, t)) ∨
    s ∉ t.shapes ∧ (t.size < TypeSet.capacity ∧ (t.intern s).1 = .single t.size ∧
      (t.intern s).2.shapes = t.shapes ++ [s] ∨
      t.size = TypeSet.capacity ∧ t.intern s = (.any, t)) := by
  have hsame : ∀ {u}, Registry.intern t.toRegistry s = (u, t.toRegistry) → t.intern s = (u, t) :=
    fun h => Prod.ext (show (Registry.intern _ s).1 = _ by rw [h])
      (ext_shapes (show (Registry.intern _ s).2.shapes = _ by rw [h]))
  rcases hs : t.index s with _ | i
  · refine .inr ⟨fun hmem => ?_, ?_⟩
    · obtain ⟨i, hi⟩ := List.getElem?_of_mem hmem
      rw [(t.agrees.inverse s i).2 hi] at hs
      cases hs
    · by_cases hroom : t.size < TypeSet.capacity
      · exact .inl (by simp [intern, Registry.intern, Registry.push, hs, hroom])
      · refine .inr ⟨Nat.le_antisymm t.agrees.room (Nat.le_of_not_lt hroom), hsame ?_⟩
        simp [Registry.intern, hs, hroom]
  · exact .inl ⟨i, (t.agrees.inverse s i).1 hs, hsame (by simp [Registry.intern, hs])⟩

theorem intern_of_getElem? (h : t.shapes[i]? = some s) : t.intern s = (.single i, t) := by
  rcases intern_cases t s with ⟨j, hj, heq⟩ | ⟨hnot, -⟩
  · rw [heq, Option.some.inj (((t.agrees.inverse s j).2 hj).symm.trans ((t.agrees.inverse s i).2 h))]
  · exact absurd (List.mem_of_getElem? h) hnot

end ShapeTable
end ShapeFlow
