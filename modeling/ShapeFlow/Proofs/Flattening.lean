/-
# Flat arrays

An array among the elements of an array counts as an array of unknown elements.
So a table that is filled by naming classes, by making arrays of sets it has
answered with and by reading hints is flat: the elements of its arrays were there
before them, are no references, and the only array among them is the one of
unknown elements.  To show a set of such a table no more than one array has to
be opened, whose elements need no opening.

Key definitions: `ShapeTable.Session`, `ShapeTable.Flat`, `ShapeTable.Opens`.
Key theorems: `ShapeTable.lasting_flat`, `ShapeTable.Session.flat`,
`ShapeTable.session_renders`.
-/
import ShapeFlow.Proofs.Interning
import ShapeFlow.Proofs.Longer
import ShapeFlow.Proofs.Naming

namespace ShapeFlow
namespace ShapeTable

open List TypeSet

variable {t : ShapeTable} {s : Shape} {i j k : Nat} {elems types : TypeSet} {held : List TypeSet}

/-! ### Sessions -/

/-- The request is about sets that are held. -/
def Request.Within (held : List TypeSet) : Request → Prop
  | .shape _ => False
  | .named _ | .hint _ => True
  | .arrayOf elems => elems ∈ held

/-- The table `t`, in use, and the sets that have been had of it: answers of
`t` and of the tables before it, their unions, differences and restrictions, and
either of them marked as aliased. -/
inductive Session : ShapeTable → List TypeSet → Prop
  | start : Session standard ([.void, .any] ++ (range 10).map .single)
  | ask {t : ShapeTable} {held : List TypeSet} {q : Request} : Session t held → q.Within held →
    Session (t.ask q).2 ((t.ask q).1 :: held)
  | union {t : ShapeTable} {held : List TypeSet} {a b : TypeSet} : Session t held → a ∈ held →
    b ∈ held → Session t ((a ∪ b) :: held)
  | remove {t : ShapeTable} {held : List TypeSet} {a b : TypeSet} : Session t held → a ∈ held →
    b ∈ held → Session t (a.remove b :: held)
  | restrict {t : ShapeTable} {held : List TypeSet} {a : TypeSet} (k : Kind) : Session t held →
    a ∈ held → Session t (t.restrict a k :: held)
  | mark {t : ShapeTable} {held : List TypeSet} {a : TypeSet} : Session t held → a ∈ held →
    Session t (a.withRef :: held)

/-! ### Flat tables -/

/-- The elements of an array at index `i`, or of one that is to get it: older shapes, of
which only that of the arrays of unknown elements, 6, is an array. -/
structure FlatAt (t : ShapeTable) (i : Nat) (elems : TypeSet) : Prop where
  byRef : elems.byRef = false
  older : ∀ j ∈ elems, j < i
  array : ∀ j ∈ elems, ∀ inner, t.shapes[j]? = some (.array inner) → j = 6

/-- All arrays but that of unknown elements have flat elements. -/
structure Flat (t : ShapeTable) : Prop extends Valid t where
  arrays : ∀ i elems, t.shapes[i]? = some (.array elems) → i ≠ 6 → t.FlatAt i elems

theorem flat_standard : standard.Flat where
  toValid := valid_standard
  arrays i elems hi hne := by
    have hlt : i < 10 := lt_of_getElem? hi
    rw [shapes_standard] at hi
    interval_cases i <;> simp at hi hne

theorem Valid.getElem?_array (h : t.Valid) : t.shapes[6]? = some (.array .any) :=
  (h.std.getElem? (by decide)).trans rfl

theorem Valid.ne_array (h : t.Valid) (hi : t.shapes[i]? = some (.array elems))
    (hany : ¬ elems.isAny = true) : i ≠ 6 := by
  rintro rfl
  cases h.getElem?_array.symm.trans hi
  exact hany isAny_any

/-- Elements that are all older do not fill a table that has room. -/
theorem FlatAt.not_any (h : t.FlatAt i elems) (hi : i < TypeSet.capacity) : elems.isAny = false := by
  rw [← Bool.not_eq_true]
  intro hany
  exact Nat.lt_irrefl i (h.older i (isAny_iff.1 hany i hi))

theorem Flat.append {t' : ShapeTable} (h : t.Flat) (h' : t'.shapes = t.shapes ++ [s])
    (hs : ∀ elems, s = .array elems → t.FlatAt t.size elems) : t'.Flat where
  toValid := h.toValid.append (fun elems he => .inr (hs elems he).older) h'
  arrays i elems hi hne := by
    rw [h'] at hi
    have hflat : t.FlatAt i elems := by
      rcases Registry.getElem?_append_iff.1 hi with hi | ⟨rfl, he⟩
      · exact h.arrays i elems hi hne
      · exact hs elems he.symm
    have hle : i ≤ t.size := Nat.lt_succ_iff.1 (by simpa [Registry.size] using lt_of_getElem? hi)
    refine { hflat with array := fun j hj inner hinner => hflat.array j hj inner ?_ }
    rwa [h', getElem?_append_left ((hflat.older j hj).trans_le hle)] at hinner

theorem Flat.intern (h : t.Flat) (hs : ∀ elems, s = .array elems → t.FlatAt t.size elems) :
    (t.intern s).2.Flat := by
  rcases intern_cases t s with ⟨_, -, heq⟩ | ⟨-, ⟨-, -, heq⟩ | ⟨-, heq⟩⟩
  · rw [heq]
    exact h
  · exact h.append heq hs
  · rw [heq]
    exact h

theorem mem_arrays (hj : t.shapes[j]? = some (.array elems)) : j ∈ t.ofKind .array :=
  (t.agrees.arrays.mem_iff j).2 ⟨_, hj, rfl⟩

/-- **Making an array** of known elements flattens them. -/
theorem Flat.arrayOf (h : t.Flat) (hk : t.Knows elems) : (t.arrayOf elems).2.Flat := by
  unfold ShapeTable.arrayOf
  dsimp only
  split
  next => exact h
  next hany =>
    have hall := hk.resolve_left hany
    split
    next =>
      refine h.intern fun inner he => ?_
      cases he
      have hmem : ∀ j ∈ elems.plain.remove (t.ofKind .array) ∪ .array,
          j = 6 ∨ j ∈ elems ∧ j ∉ t.ofKind .array := by
        intro j hj
        rcases mem_union.1 hj with hj | hj
        · exact .inr ((mem_remove.1 hj).imp_right (·.resolve_left hany))
        · exact .inl (mem_single.1 hj).1
      refine ⟨?_, fun j hj => ?_, fun j hj inner hinner => ?_⟩
      · rw [byRef_union, byRef_remove]
        rfl
      · rcases hmem j hj with rfl | ⟨hj, -⟩
        · exact Nat.lt_of_lt_of_le (by decide) h.ten_le
        · exact hall j hj
      · exact (hmem j hj).resolve_right fun hj => hj.2 (mem_arrays hinner)
    next hmeets =>
      refine h.intern fun inner he => ?_
      cases he
      refine ⟨rfl, hall, fun j hj inner hinner => absurd ?_ hmeets⟩
      rw [meets, Bool.not_eq_true', ← Bool.not_eq_true, isVoid_iff]
      exact fun hvoid => hvoid j (mem_common.2 ⟨hj, mem_arrays hinner⟩)

theorem lasting_flat : Lasting Flat where
  valid h := h.toValid
  named name h := h.intern fun _ he => by cases he
  arrayOf h hk := h.arrayOf hk

/-- **One request** about known sets leaves a flat table, and its answer is known. -/
theorem Flat.ask (h : t.Flat) (hheld : ∀ a ∈ held, t.Knows a) {q : Request} (hq : q.Within held) :
    (t.ask q).2.Flat ∧ (t.ask q).2.Knows (t.ask q).1 := by
  cases q with
  | shape s => exact hq.elim
  | named name => exact ⟨lasting_flat.named name h, (named_spec h.toValid name).2.2⟩
  | arrayOf elems =>
    exact ⟨h.arrayOf (hheld elems hq), (arrayOf_spec h.toValid (hheld elems hq)).2.2⟩
  | hint x => exact x.types_lasting lasting_flat t h

/-- **A session** has a flat table, which knows all sets that are held. -/
theorem Session.flat (h : Session t held) : t.Flat ∧ ∀ a ∈ held, t.Knows a := by
  have hcons : ∀ {t : ShapeTable} {held : List TypeSet} {a : TypeSet},
      t.Knows a → (∀ b ∈ held, t.Knows b) → ∀ b ∈ a :: held, t.Knows b := fun ha hheld =>
    forall_mem_cons.2 ⟨ha, hheld⟩
  induction h with
  | start =>
    refine ⟨flat_standard, hcons knows_void (hcons knows_any fun a ha => ?_)⟩
    obtain ⟨i, hi, rfl⟩ := mem_map.1 ha
    exact valid_standard.knows_single (mem_range.1 hi)
  | @ask t held q _ hq ih =>
    obtain ⟨hflat, hknown⟩ := ih.1.ask ih.2 hq
    exact ⟨hflat, hcons hknown fun b hb => (ih.2 b hb).mono (interned_ask t q).extends⟩
  | union _ ha hb ih => exact ⟨ih.1, hcons ((ih.2 _ ha).union (ih.2 _ hb)) ih.2⟩
  | remove _ ha _ ih => exact ⟨ih.1, hcons ((ih.2 _ ha).remove _) ih.2⟩
  | restrict k _ ha ih => exact ⟨ih.1, hcons (knows_restrict (ih.2 _ ha) k) ih.2⟩
  | mark _ ha ih => exact ⟨ih.1, hcons (ih.2 _ ha).withRef ih.2⟩

/-! ### Showing sets -/

/-- Showing shape `i` opens it and comes to shape `j`. -/
def Opens (t : ShapeTable) (i j : Nat) : Prop :=
  ∃ elems, t.shapes[i]? = some (.array elems) ∧ elems.isAny = false ∧ j ∈ elems

theorem Flat.not_opens (h : t.Flat) (hij : t.Opens i j) : ¬ t.Opens j k := by
  obtain ⟨elems, hi, hany, hj⟩ := hij
  rintro ⟨inner, hinner, hinnerAny, -⟩
  obtain rfl := (h.arrays i elems hi (h.ne_array hi (by simp [hany]))).array j hj inner hinner
  cases h.getElem?_array.symm.trans hinner
  cases hinnerAny

theorem Flat.nameAt_zero (h : t.Flat) (hflat : t.FlatAt i elems) (hi : i ≤ t.size) (hj : j ∈ elems) :
    (t.nameAt 0 j).isSome = true := by
  obtain ⟨sh, hsh⟩ : ∃ sh, t.shapes[j]? = some sh :=
    ⟨_, getElem?_eq_getElem ((hflat.older j hj).trans_le hi)⟩
  rw [nameAt, hsh, Option.bind_some]
  cases sh with
  | array inner =>
    obtain rfl := hflat.array j hj inner hsh
    cases h.getElem?_array.symm.trans hsh
    rw [shapeName_any isAny_any]
    rfl
  | _ => rfl

/-- **One level** is enough to name a shape of a flat table. -/
theorem Flat.nameAt_one (h : t.Flat) (hi : i < t.size) : (t.nameAt 1 i).isSome = true := by
  obtain ⟨sh, hsh⟩ : ∃ sh, t.shapes[i]? = some sh := ⟨_, getElem?_eq_getElem hi⟩
  rw [nameAt, hsh, Option.bind_some]
  cases sh with
  | array elems =>
    by_cases hany : elems.isAny = true
    · rw [shapeName_any hany]
      rfl
    by_cases hvoid : elems.isVoid = true
    · rw [shapeName_void hany hvoid]
      rfl
    have hflat := h.arrays i elems hsh (h.ne_array hsh hany)
    rw [shapeName_array hany hvoid, Option.isSome_map, namesAt, Option.isSome_map]
    exact mapM_isSome fun j hj => h.nameAt_zero hflat hi.le (mem_members.1 hj)
  | _ => rfl

theorem Flat.namesAt_eq (h : t.Flat) (hk : ∀ i ∈ types, i < t.size) (hany : ¬ types.isAny = true) :
    ∃ names, t.names types = some names ∧ ∀ d, 1 ≤ d → t.namesAt d types = some names := by
  have hsome : (t.namesAt 1 types).isSome = true := by
    rw [namesAt, Option.isSome_map]
    exact mapM_isSome fun i hi => h.nameAt_one (hk i (mem_members.1 hi))
  obtain ⟨names, hnames⟩ := Option.isSome_iff_exists.1 hsome
  have hall : ∀ d, 1 ≤ d → t.namesAt d types = some names := fun d hd =>
    namesAt_of_imp (.refl t) (shapeName_mono (.refl t) hd) hnames
  refine ⟨names, ?_, hall⟩
  rw [names_of_not_any hany]
  exact hall t.size ((by decide : 1 ≤ 10).trans h.ten_le)

/-- **Arrays stay flat, and every set can be shown.**  In the course of a session all
arrays but that of unknown elements hold sets that are not the any-type, not aliased and
made of older shapes, among which that one is the only array.  So no array is opened
inside another, and each set that is held has its name, which no more than one level of
arrays is needed for. -/
theorem session_renders (h : Session t held) :
    t.shapes[6]? = some (.array .any) ∧
    (∀ i elems, t.shapes[i]? = some (.array elems) → i ≠ 6 →
      elems.isAny = false ∧ elems.byRef = false ∧ ∀ j ∈ elems, j < i ∧
        ((∃ inner, t.shapes[j]? = some (.array inner)) → j = 6)) ∧
    (∀ i j k, t.Opens i j → ¬ t.Opens j k) ∧
    ∀ a ∈ held, (t.display a).isSome = true ∧ (a.isAny = false → (∀ i ∈ a, i < t.size) ∧
      ∃ names, t.names a = some names ∧ ∀ d, 1 ≤ d → t.namesAt d a = some names) := by
  obtain ⟨hflat, hknown⟩ := h.flat
  refine ⟨hflat.getElem?_array, fun i elems hi hne => ?_, fun i j k => hflat.not_opens, fun a ha => ?_⟩
  · have helems := hflat.arrays i elems hi hne
    have hroom : i < TypeSet.capacity := (lt_of_getElem? hi).trans_le t.agrees.room
    exact ⟨helems.not_any hroom, helems.byRef, fun j hj =>
      ⟨helems.older j hj, fun ⟨inner, hinner⟩ => helems.array j hj inner hinner⟩⟩
  · refine ⟨display_isSome hflat.toValid (hknown a ha), fun hany => ?_⟩
    have hall := (hknown a ha).resolve_left (by simp [hany])
    exact ⟨hall, hflat.namesAt_eq hall (by simp [hany])⟩

/-- An array of objects and of arrays of integers, which may be aliased. -/
theorem session_renders_nested : ∃ t held, Session t held ∧ .single 12 ∈ held ∧
    t.shapes[12]? = some (.array (.single 6 ∪ .single 11)) ∧
    t.display (.single 12) = some "array<A|array>" ∧ t.Opens 12 6 ∧ (∀ k, ¬ t.Opens 6 k) ∧
    ∃ names, t.names (.single 12) = some names ∧ ∀ d, 1 ≤ d → t.namesAt d (.single 12) = some names := by
  have harray := Session.start.ask (q := .arrayOf .int) (show _ ∈ _ by decide)
  have hclass := harray.ask (q := .hint (.nullable (.named "A"))) trivial
  have hboth := (hclass.union (a := .single 10) (.tail _ (.head _)) (.head _)).mark (.head _)
  have hnested := (hboth.remove (b := .null) (.head _) (by decide +kernel)).ask (q := .arrayOf _) (.head _)
  obtain ⟨-, -, hopens, hshown⟩ := session_renders hnested
  refine ⟨_, _, hnested, by decide +kernel, by decide +kernel, by decide +kernel, ?opens,
    fun k => hopens 12 6 k ?opens, ((hshown (.single 12) ?_).2 (by decide)).2⟩
  · exact ⟨.single 6 ∪ .single 11, by decide +kernel, by decide, by decide⟩
  · decide +kernel

end ShapeTable
end ShapeFlow
