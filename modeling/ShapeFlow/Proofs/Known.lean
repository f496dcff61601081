/-
# What a table knows

A set of types is known to a table if each of its indices stands for a shape, or
if it is the any-type.  Only known sets can be taken apart or shown.  A table
only ever gets longer, so what it knows it goes on knowing, and it never answers
a question about a known set differently.

Key definitions: `ShapeTable.Extends`, `ShapeTable.Knows`, `ShapeTable.Valid`.
Key theorems: `ShapeTable.intern_spec`, `ShapeTable.element_spec`,
`ShapeTable.updated_spec`, `ShapeTable.display_isSome`: on a valid table every
operation on known sets gives a known set and leaves a valid table.
-/
import ShapeFlow.Infer.Operator
import ShapeFlow.Lang.Expr
import ShapeFlow.Proofs.Growth
import ShapeFlow.ShapeTable.Text

namespace ShapeFlow

open List TypeSet
namespace ShapeTable

variable {s : Shape} {t t' : ShapeTable} {i : Nat}

/-- `t'` starts with the shapes of `t`. -/
def Extends (t t' : ShapeTable) : Prop := t.shapes <+: t'.shapes

/-- Each index of `s` stands for a shape, or `s` is the any-type. -/
def Knows (t : ShapeTable) (s : TypeSet) : Prop := s.isAny = true ∨ ∀ i ∈ s, i < t.size

/-- A table as the analysis builds them. -/
structure Valid (t : ShapeTable) : Prop where
  /-- The fixed indices stand for what they should. -/
  std : standard.Extends t
  /-- Arrays hold elements whose shapes were there before. -/
  older : ∀ (i : Nat) (elems : TypeSet), t.shapes[i]? = some (Shape.array elems) → elems.isAny = true ∨ ∀ j ∈ elems, j < i

theorem valid_standard : ShapeTable.standard.Valid where
  std := prefix_rfl
  older i elems h := by
    rw [shapes_standard] at h
    rcases Nat.lt_or_ge i 10 with hi | hi
    · interval_cases i <;> simp at h
      subst h
      exact .inl isAny_any
    · rw [getElem?_eq_none (by simpa using hi)] at h
      cases h

/-! ### Longer tables -/

theorem Extends.refl (t : ShapeTable) : t.Extends t := prefix_rfl

theorem Extends.trans {t'' : ShapeTable} (h : t.Extends t') (h' : t'.Extends t'') :
    t.Extends t'' := List.IsPrefix.trans h h'

theorem Extends.size_le (h : t.Extends t') : t.size ≤ t'.size := h.length_le

theorem Extends.getElem? (h : t.Extends t') (hi : i < t.size) :
    t'.shapes[i]? = t.shapes[i]? := by
  obtain ⟨rest, hrest⟩ := h
  rw [← hrest, getElem?_append_left hi]

theorem Knows.mono {s : TypeSet} (hs : t.Knows s) (h : t.Extends t') : t'.Knows s :=
  hs.imp_right fun hall i hi => Nat.lt_of_lt_of_le (hall i hi) h.size_le

/-! ### Known sets -/

section Knows

variable {t : ShapeTable} {a b : TypeSet}

theorem knows_any : t.Knows .any := .inl isAny_any

theorem knows_void : t.Knows .void := .inr fun i hi => absurd hi (not_mem_void i)

theorem Knows.union (ha : t.Knows a) (hb : t.Knows b) : t.Knows (a ∪ b) := by
  rcases ha with ha | ha
  · exact .inl (isAny_of_le (le_union_left a b) ha)
  rcases hb with hb | hb
  · exact .inl (isAny_of_le (le_union_right a b) hb)
  refine .inr fun i hi => ?_
  rcases mem_union.1 hi with hi | hi
  · exact ha i hi
  · exact hb i hi

theorem Knows.ite {p : Prop} [Decidable p] (ha : t.Knows a) (hb : t.Knows b) :
    t.Knows (if p then a else b) := by
  split
  · exact ha
  · exact hb

theorem Knows.plain (ha : t.Knows a) : t.Knows a.plain := ha

theorem Knows.withRef (ha : t.Knows a) : t.Knows a.withRef := ha

theorem Knows.remove (ha : t.Knows a) (b : TypeSet) : t.Knows (a.remove b) := by
  by_cases h : a.isAny = true
  · have : a.remove b = a := by unfold TypeSet.remove; rw [if_pos h]
    rw [this]
    exact ha
  · refine .inr fun i hi => ?_
    rcases ha with ha | ha
    · exact absurd ha h
    · exact ha i (mem_remove.1 hi).1

theorem knows_common_of_not_any (ha : t.Knows a) (h : ¬ a.isAny = true) (b : TypeSet) :
    t.Knows (a.common b) := by
  rcases ha with ha | ha
  · exact absurd ha h
  · exact .inr fun i hi => ha i (mem_common.1 hi).1

end Knows

namespace Valid

variable {t : ShapeTable} {i : Nat} {s : Shape} (h : t.Valid)

include h

theorem ten_le : 10 ≤ t.size := h.std.size_le

theorem knows_single (hi : i < 10) : t.Knows (.single i) := by
  refine .inr fun j hj => ?_
  have := (mem_single.1 hj).1
  have := h.ten_le
  omega

theorem knows_null : t.Knows .null := h.knows_single (by decide)
theorem knows_bool : t.Knows .bool := h.knows_single (by decide)
theorem knows_int : t.Knows .int := h.knows_single (by decide)
theorem knows_float : t.Knows .float := h.knows_single (by decide)
theorem knows_number : t.Knows .number := h.knows_single (by decide)
theorem knows_string : t.Knows .string := h.knows_single (by decide)
theorem knows_array : t.Knows .array := h.knows_single (by decide)
theorem knows_object : t.Knows .object := h.knows_single (by decide)
theorem knows_closure : t.Knows .closure := h.knows_single (by decide)
theorem knows_resource : t.Knows .resource := h.knows_single (by decide)

theorem knows_numbers : t.Knows .numbers :=
  (h.knows_int.union h.knows_float).union h.knows_number

theorem knows_literal (l : Literal) : t.Knows l.types := by
  cases l
  · exact h.knows_null
  · exact h.knows_bool
  · exact h.knows_int
  · exact h.knows_float
  · exact h.knows_string

theorem knows_representative (k : Kind) : t.Knows k.representative := by
  cases k
  · exact h.knows_null
  · exact h.knows_bool
  · exact h.knows_int
  · exact h.knows_float
  · exact h.knows_string
  · exact h.knows_numbers
  · exact h.knows_array
  · exact h.knows_object
  · exact h.knows_closure
  · exact h.knows_resource

theorem knows_elements {elems : TypeSet} (hi : t.shapes[i]? = some (.array elems)) :
    t.Knows elems := by
  refine (h.older i elems hi).imp_right fun hall j hj => ?_
  have hlt : i < t.size := (lt_of_getElem? hi)
  exact Nat.lt_trans (hall j hj) hlt

theorem knows_element (hi : t.shapes[i]? = some s) : t.Knows s.element := by
  cases s
  case array elems => exact h.knows_elements hi
  case string => exact h.knows_string
  all_goals exact h.knows_null

theorem knows_elementsOf (hi : t.shapes[i]? = some s) : t.Knows s.elements := by
  cases s
  case array elems => exact h.knows_elements hi
  all_goals exact knows_void

end Valid

/-! ### Making sets -/

/-- A shape that may be added: an array of known elements, or no array. -/
def Admits (t : ShapeTable) (s : Shape) : Prop := ∀ elems, s = .array elems → t.Knows elems

theorem Extends.of_append (h : t'.shapes = t.shapes ++ [s]) : t.Extends t' :=
  ⟨[s], h.symm⟩

theorem Valid.append (h : t.Valid) (hs : t.Admits s) (h' : t'.shapes = t.shapes ++ [s]) :
    t'.Valid where
  std := h.std.trans (.of_append h')
  older i elems hi := by
    rw [h', Registry.getElem?_append_iff] at hi
    rcases hi with hi | ⟨rfl, rfl⟩
    · exact h.older i elems hi
    · exact hs elems rfl

theorem intern_spec (h : t.Valid) (hs : t.Admits s) :
    (t.intern s).2.Valid ∧ t.Extends (t.intern s).2 ∧ (t.intern s).2.Knows (t.intern s).1 := by
  rcases intern_cases t s with ⟨i, hi, heq⟩ | ⟨-, ⟨-, hset, hshapes⟩ | ⟨-, heq⟩⟩
  · rw [heq]
    refine ⟨h, .refl t, .inr fun j hj => ?_⟩
    rw [(mem_single.1 hj).1]
    exact lt_of_getElem? hi
  · refine ⟨h.append hs hshapes, .of_append hshapes, .inr fun j hj => ?_⟩
    rw [hset] at hj
    rw [(mem_single.1 hj).1]
    simp [Registry.size, hshapes]
  · rw [heq]
    exact ⟨h, .refl t, knows_any⟩

theorem named_spec (h : t.Valid) (name : String) :
    (t.named name).2.Valid ∧ t.Extends (t.named name).2 ∧ (t.named name).2.Knows (t.named name).1 :=
  intern_spec h fun _ hs => by cases hs

theorem arrayOf_spec (h : t.Valid) {elems : TypeSet} (hk : t.Knows elems) :
    (t.arrayOf elems).2.Valid ∧ t.Extends (t.arrayOf elems).2 ∧
      (t.arrayOf elems).2.Knows (t.arrayOf elems).1 := by
  unfold arrayOf
  simp only
  split
  next => exact ⟨h, .refl t, h.knows_array⟩
  next =>
    split
    next =>
      apply intern_spec h
      intro e he
      cases he
      exact (hk.plain.remove _).union h.knows_array
    next =>
      apply intern_spec h
      intro e he
      cases he
      exact hk.plain

/-! ### Taking sets apart -/

theorem shapesOf_spec {s : TypeSet} (hk : ∀ i ∈ s, i < t.size) :
    ∃ l, t.shapesOf s = some l ∧ ∀ sh ∈ l, ∃ i ∈ s, t.shapes[i]? = some sh := by
  have hl : ∀ l : List Nat, (∀ i ∈ l, i ∈ s) →
      ∃ r, (l.mapM fun i => t.shapes[i]?) = some r ∧ ∀ sh ∈ r, ∃ i ∈ s, t.shapes[i]? = some sh := by
    intro l
    induction l with
    | nil => intro _; exact ⟨[], rfl, by simp⟩
    | cons i l ih =>
      intro hs
      obtain ⟨r, hr, hall⟩ := ih fun j hj => hs j (.tail _ hj)
      have hi : i ∈ s := hs i (.head _)
      obtain ⟨sh, hsh⟩ : ∃ sh, t.shapes[i]? = some sh := ⟨_, getElem?_eq_getElem (hk i hi)⟩
      refine ⟨sh :: r, by simp [mapM_cons, hsh, hr], ?_⟩
      intro x hx
      rcases mem_cons.1 hx with rfl | hx
      · exact ⟨i, hi, hsh⟩
      · exact hall x hx
  exact hl s.members fun i hi => mem_members.1 hi

theorem knows_foldl {f : Shape → TypeSet} :
    ∀ (l : List Shape) (acc : TypeSet), t.Knows acc → (∀ sh ∈ l, t.Knows (f sh)) →
      t.Knows (l.foldl (fun acc sh => acc ∪ f sh) acc)
  | [], _, hacc, _ => hacc
  | sh :: l, _, hacc, hl =>
    knows_foldl l _ (hacc.union (hl sh (.head _)))
      fun x hx => hl x (.tail _ hx)

theorem element_spec (h : t.Valid) {s : TypeSet} (hk : t.Knows s) :
    ∃ r, t.element s = some r ∧ t.Knows r := by
  unfold element
  split
  next => exact ⟨_, rfl, knows_any⟩
  next hany =>
    split
    next => exact ⟨_, rfl, knows_void⟩
    next =>
      obtain ⟨l, hl, hsh⟩ := shapesOf_spec (hk.resolve_left hany)
      rw [hl]
      refine ⟨_, rfl, h.knows_null.ite ?_⟩
      apply knows_foldl l _ knows_void
      intro sh hmem
      obtain ⟨i, -, hi⟩ := hsh sh hmem
      exact h.knows_element hi

theorem elements_spec (h : t.Valid) {s : TypeSet} (hk : t.Knows s) :
    ∃ r, t.elements s = some r ∧ t.Knows r := by
  unfold elements
  split
  next => exact ⟨_, rfl, knows_any⟩
  next hany =>
    obtain ⟨l, hl, hsh⟩ := shapesOf_spec (hk.resolve_left hany)
    rw [hl]
    refine ⟨_, rfl, ?_⟩
    apply knows_foldl l _ knows_void
    intro sh hmem
    obtain ⟨i, -, hi⟩ := hsh sh hmem
    exact h.knows_elementsOf hi

theorem knows_restrict {s : TypeSet} (hk : t.Knows s) (k : Kind) : t.Knows (t.restrict s k) := by
  unfold restrict
  split
  next => exact knows_any
  next h => exact knows_common_of_not_any hk h _

/-! ### The types operators give -/

theorem knows_arithmetic (h : t.Valid) (l r : TypeSet) :
    t.Knows (arithmetic l r) := h.knows_float.ite h.knows_numbers

theorem knows_binaryTypes (h : t.Valid) (op : BinOp) {l r : TypeSet} (hl : t.Knows l)
    (hr : t.Knows r) : t.Knows (t.binaryTypes op l r) := by
  cases op
  case add =>
    exact (hl.plain.union hr.plain).ite ((knows_arithmetic h _ _).ite
      ((h.knows_numbers.union h.knows_array).ite h.knows_numbers))
  case sub | mul | div | pow => exact (knows_arithmetic h _ _).ite h.knows_numbers
  case mod | shl | shr => exact h.knows_int
  case bitAnd | bitOr | bitXor => exact h.knows_string.ite h.knows_int
  case concat => exact h.knows_string
  case coalesce => exact (hl.plain.remove _).union hr.plain
  all_goals exact h.knows_bool

theorem knows_unaryTypes (h : t.Valid) (op : UnOp) {s : TypeSet} (hs : t.Knows s) :
    t.Knows (t.unaryTypes op s) := by
  cases op
  case not => exact h.knows_bool
  case neg | plus => exact h.knows_float.ite h.knows_numbers
  case bitNot => exact h.knows_string.ite h.knows_int
  case silence => exact hs

theorem knows_castTypes (h : t.Valid) (kind : Cast) {s : TypeSet} (hs : t.Knows s) :
    t.Knows (t.castTypes kind s) := by
  cases kind
  case int => exact h.knows_int
  case float => exact h.knows_float
  case bool => exact h.knows_bool
  case string => exact h.knows_string
  case array => exact hs.ite h.knows_array
  case object => exact hs.ite h.knows_object
  case unset => exact h.knows_null

theorem knows_stepTypes (h : t.Valid) (s : TypeSet) (safe : Bool) :
    t.Knows (stepTypes s safe) := h.knows_float.ite (h.knows_int.ite h.knows_numbers)

theorem updated_spec (h : t.Valid) {s value : TypeSet} (hs : t.Knows s) (hv : t.Knows value) :
    ∃ r t', t.updated s value = some (r, t') ∧ t'.Valid ∧ t.Extends t' ∧ t'.Knows r := by
  unfold updated
  split
  next => exact ⟨_, _, rfl, h, .refl t, knows_any⟩
  next =>
    obtain ⟨elems, he, hk⟩ := elements_spec h (knows_restrict hs .array)
    obtain ⟨hvalid, hext, hknown⟩ := arrayOf_spec h (hk.union hv)
    rw [he]
    refine ⟨_, _, rfl, hvalid, hext, ?_⟩
    exact (hknown.union (hvalid.knows_string.ite knows_void)).union
      (knows_restrict (hs.mono hext) .object)

/-! ### Showing sets -/

theorem mapM_isSome {α β : Type} {f : α → Option β} :
    ∀ {l : List α}, (∀ x ∈ l, (f x).isSome = true) → (l.mapM f).isSome = true
  | [], _ => rfl
  | x :: l, h => by
    obtain ⟨y, hy⟩ := Option.isSome_iff_exists.1 (h x (.head _))
    obtain ⟨ys, hys⟩ := Option.isSome_iff_exists.1
      (mapM_isSome (l := l) fun z hz => h z (.tail _ hz))
    rw [mapM_cons, hy]
    simp [hys]

theorem shapeName_isSome (h : t.Valid) :
    ∀ (depth i : Nat) (s : Shape), t.shapes[i]? = some s → i ≤ depth →
      (t.shapeName depth s).isSome = true := by
  intro depth
  induction depth with
  | zero =>
    intro i s hi hle
    cases s
    case array elems =>
      rw [shapeName]
      split
      · rfl
      next hany =>
        have hall := (h.older i elems hi).resolve_left hany
        rw [if_pos (isVoid_iff.2 fun j hj => by have := hall j hj; omega)]
        rfl
    all_goals rfl
  | succ depth ih =>
    intro i s hi hle
    cases s
    case array elems =>
      rw [shapeName]
      split
      · rfl
      next hany =>
        split
        · rfl
        have hall := (h.older i elems hi).resolve_left hany
        have hlt : i < t.size := (lt_of_getElem? hi)
        obtain ⟨l, hl, hsh⟩ := shapesOf_spec (t := t) (s := elems) fun j hj => by
          have := hall j hj; omega
        have hnames : (l.mapM (t.shapeName depth)).isSome = true := by
          apply mapM_isSome
          intro sh hmem
          obtain ⟨j, hj, hjs⟩ := hsh sh hmem
          have := hall j hj
          exact ih j sh hjs (by omega)
        obtain ⟨names, hnames⟩ := Option.isSome_iff_exists.1 hnames
        simp [hl, hnames]
    all_goals rfl

theorem names_isSome (h : t.Valid) {s : TypeSet} (hk : t.Knows s) : (t.names s).isSome = true := by
  unfold names
  split
  · rfl
  next hany =>
    have hall := hk.resolve_left hany
    obtain ⟨l, hl, hsh⟩ := shapesOf_spec hall
    have hnames : (l.mapM (t.shapeName t.size)).isSome = true := by
      apply mapM_isSome
      intro sh hmem
      obtain ⟨j, hj, hjs⟩ := hsh sh hmem
      exact shapeName_isSome h t.size j sh hjs (Nat.le_of_lt (hall j hj))
    obtain ⟨names, hnames⟩ := Option.isSome_iff_exists.1 hnames
    simp [hl, hnames]

theorem display_isSome (h : t.Valid) {s : TypeSet} (hk : t.Knows s) :
    (t.display s).isSome = true := by
  obtain ⟨names, hnames⟩ := Option.isSome_iff_exists.1 (names_isSome h hk)
  unfold display
  by_cases hv : s.isVoid = true
  · simp [hv]
  · simp [hv, hnames]

end ShapeTable
end ShapeFlow
