/-
# Names do not depend on indices

A name is read off the shapes that a set stands for.  So it stays the same while the table grows,
and a table that met the same shapes in another order, so that they have other indices, gives the
same names to corresponding sets.  Where no two shapes share a name, the names of a set tell which
shapes it holds.

Key definitions: `TypeSet.rename`, `ShapeTable.Renames`, `ShapeTable.TellsApart`.
Key theorems: `ShapeTable.names_mono`, `ShapeTable.Renames.names_rename`,
`ShapeTable.TellsApart.bits_eq`.
-/
import ShapeFlow.Proofs.Known
import ShapeFlow.Proofs.Sorting

namespace ShapeFlow

open List TypeSet

/-! ### Partial maps over lists -/

section MapM

variable {α β γ : Type} {f : α → Option β}

theorem mapM_eq_some_iff : ∀ {l : List α} {ys : List β},
    l.mapM f = some ys ↔ l.map f = ys.map some
  | [], ys => by cases ys <;> simp
  | x :: l, [] => by
    cases hx : f x <;> cases hl : l.mapM f <;> simp [mapM_cons, hx, hl]
  | x :: l, y :: ys => by
    rw [map_cons, map_cons, cons.injEq, ← mapM_eq_some_iff, mapM_cons]
    cases f x <;> cases l.mapM f <;> simp

theorem mapM_bind {g : β → Option γ} (l : List α) :
    ((l.mapM f).bind fun ys => ys.mapM g) = l.mapM fun x => (f x).bind g := by
  induction l with
  | nil => rfl
  | cons x l ih =>
    rw [mapM_cons, mapM_cons, ← ih]
    cases f x <;> cases hl : l.mapM f <;> simp [mapM_cons]

variable {l : List α} {ys : List β} {g : α → Option β}

theorem mapM_of_imp (hfg : ∀ x ∈ l, ∀ y, f x = some y → g x = some y) (h : l.mapM f = some ys) :
    l.mapM g = some ys := by
  rw [mapM_eq_some_iff] at h ⊢
  rw [← h]
  refine map_congr_left fun x hx => ?_
  have hmem : f x ∈ ys.map some := h ▸ mem_map_of_mem hx
  obtain ⟨y, -, hy⟩ := mem_map.1 hmem
  rw [← hy, hfg x hx y hy.symm]

theorem mapM_congr (h : ∀ x ∈ l, f x = g x) : l.mapM f = l.mapM g := by
  refine Option.ext fun ys => ?_
  rw [mapM_eq_some_iff, mapM_eq_some_iff, map_congr_left h]

theorem mem_of_mapM (h : l.mapM f = some ys) {y : β} : y ∈ ys ↔ ∃ x ∈ l, f x = some y := by
  rw [mapM_eq_some_iff] at h
  rw [← mem_map, h]
  simp

theorem sort_mapM_congr [Ord β] [Std.TransOrd β] [Std.LawfulEqOrd β] {l' : List α} (h : l.Perm l') :
    (l.mapM f).map Sorted.sort = (l'.mapM f).map Sorted.sort := by
  have hcons : ∀ (x : α) (l : List α), ((x :: l).mapM f).map Sorted.sort =
      (f x).bind fun y => ((l.mapM f).map Sorted.sort).map (Sorted.insert y) := by
    intro x l
    rw [mapM_cons]
    cases f x <;> cases l.mapM f <;> simp [Sorted.sort]
  induction h with
  | nil => rfl
  | cons x _ ih => rw [hcons, hcons, ih]
  | swap x y l =>
    simp only [mapM_cons]
    cases f x <;> cases f y <;> cases l.mapM f <;> simp
    exact Sorted.sort_congr (.swap ..)
  | trans _ _ ih ih' => exact ih.trans ih'

end MapM

namespace ShapeTable

variable {l : List String}

/-! ### Names by index -/

/-- The name of the shape of index `i`, down to `depth` levels of arrays. -/
def nameAt (t : ShapeTable) (depth i : Nat) : Option String := t.shapes[i]?.bind (t.shapeName depth)

/-- The names of the shapes of a set, in order, down to `depth` levels of arrays. -/
def namesAt (t : ShapeTable) (depth : Nat) (s : TypeSet) : Option (List String) :=
  (s.members.mapM (t.nameAt depth)).map Sorted.sort

variable {t t' : ShapeTable} {s elems : TypeSet} {depth depth' : Nat}

theorem namesAt_eq : t.namesAt depth s =
    ((t.shapesOf s).bind fun l => l.mapM (t.shapeName depth)).map Sorted.sort := by
  rw [shapesOf, mapM_bind]
  rfl

theorem names_of_not_any (h : ¬ s.isAny = true) : t.names s = t.namesAt t.size s := by
  rw [names, if_neg h, namesAt_eq]
  cases t.shapesOf s <;> simp [Option.map_eq_bind]

theorem shapeName_any (hany : elems.isAny = true) :
    t.shapeName depth (.array elems) = some "array" := by
  cases depth <;> rw [shapeName, if_pos hany]

theorem shapeName_void (hany : ¬ elems.isAny = true) (hvoid : elems.isVoid = true) :
    t.shapeName depth (.array elems) = some "array<void>" := by
  cases depth <;> rw [shapeName, if_neg hany, if_pos hvoid]

theorem shapeName_zero (hany : ¬ elems.isAny = true) (hvoid : ¬ elems.isVoid = true) :
    t.shapeName 0 (.array elems) = none := by
  rw [shapeName, if_neg hany, if_neg hvoid]

theorem shapeName_array (hany : ¬ elems.isAny = true) (hvoid : ¬ elems.isVoid = true) :
    t.shapeName (depth + 1) (.array elems) =
      (t.namesAt depth elems).map fun names => "array<" ++ "|".intercalate names ++ ">" := by
  rw [shapeName, if_neg hany, if_neg hvoid, namesAt_eq]
  cases t.shapesOf elems with
  | none => rfl
  | some l => cases hl : l.mapM (t.shapeName depth) <;> simp [hl]

/-! ### Growing tables -/

theorem nameAt_of_imp (h : t.Extends t')
    (hname : ∀ sh n, t.shapeName depth sh = some n → t'.shapeName depth' sh = some n)
    {i : Nat} {n : String} (hi : t.nameAt depth i = some n) : t'.nameAt depth' i = some n := by
  obtain ⟨sh, hsh, hn⟩ := Option.bind_eq_some_iff.1 hi
  have hlt : i < t.size := (lt_of_getElem? hsh)
  rw [nameAt, h.getElem? hlt, hsh]
  exact hname sh n hn

theorem namesAt_of_imp (h : t.Extends t')
    (hname : ∀ sh n, t.shapeName depth sh = some n → t'.shapeName depth' sh = some n)
    (hl : t.namesAt depth s = some l) : t'.namesAt depth' s = some l := by
  obtain ⟨ns, hns, rfl⟩ := Option.map_eq_some_iff.1 hl
  have hns' := mapM_of_imp (fun _ _ _ hn => nameAt_of_imp h hname hn) hns
  rw [namesAt, hns', Option.map_some]

/-- A longer table, and more levels, change no name. -/
theorem shapeName_mono (h : t.Extends t') : ∀ {depth depth' : Nat}, depth ≤ depth' →
    ∀ (sh : Shape) (n : String), t.shapeName depth sh = some n → t'.shapeName depth' sh = some n := by
  intro depth
  induction depth with
  | zero =>
    intro depth' _ sh n hn
    cases sh
    case array elems =>
      by_cases hany : elems.isAny = true
      · rwa [shapeName_any hany] at hn ⊢
      by_cases hvoid : elems.isVoid = true
      · rwa [shapeName_void hany hvoid] at hn ⊢
      · rw [shapeName_zero hany hvoid] at hn
        cases hn
    all_goals simpa only [shapeName] using hn
  | succ depth ih =>
    intro depth' hle sh n hn
    obtain ⟨k, rfl⟩ := Nat.exists_eq_add_of_lt hle
    cases sh
    case array elems =>
      by_cases hany : elems.isAny = true
      · rwa [shapeName_any hany] at hn ⊢
      by_cases hvoid : elems.isVoid = true
      · rwa [shapeName_void hany hvoid] at hn ⊢
      · rw [shapeName_array hany hvoid] at hn ⊢
        obtain ⟨l, hl, rfl⟩ := Option.map_eq_some_iff.1 hn
        rw [namesAt_of_imp h (ih (Nat.le_add_right ..)) hl, Option.map_some]
    all_goals simpa only [shapeName] using hn

/-- **A growing table** never renames a set. -/
theorem names_mono (h : t.Extends t') (hl : t.names s = some l) : t'.names s = some l := by
  by_cases hany : s.isAny = true
  · rw [names, if_pos hany] at hl ⊢
    exact hl
  · rw [names_of_not_any hany] at hl ⊢
    exact namesAt_of_imp h (shapeName_mono h h.size_le) hl

end ShapeTable

/-! ### Other indices -/

/-- The set with index `σ i` in the place of `i`.  The any-type stays. -/
def TypeSet.rename (σ : Nat → Nat) (s : TypeSet) : TypeSet :=
  if s.isAny then s
  else { TypeSet.ofPred fun j => s.members.any (σ · == j) with byRef := s.byRef }

/-- The shape with index `σ i` in the place of `i`. -/
def Shape.rename (σ : Nat → Nat) : Shape → Shape
  | array elems => array (elems.rename σ)
  | sh => sh

namespace TypeSet

variable {σ : Nat → Nat} {s : TypeSet}

theorem rename_of_any (h : s.isAny = true) : s.rename σ = s := if_pos h

theorem mem_rename (h : ¬ s.isAny = true) {j : Nat} :
    j ∈ s.rename σ ↔ j < capacity ∧ ∃ i ∈ s, σ i = j := by
  rw [rename, if_neg h]
  show j ∈ ofPred _ ↔ _
  simp

@[simp] theorem byRef_rename (σ : Nat → Nat) (s : TypeSet) : (s.rename σ).byRef = s.byRef := by
  unfold rename
  split <;> rfl

theorem nodup_members (s : TypeSet) : s.members.Nodup := nodup_range.filter _

end TypeSet

namespace ShapeTable

variable {l : List String} {t : ShapeTable}

/-- `t'` has the shapes of `t` in another order: the shape of index `i` has index `σ i` there. -/
structure Renames (σ : Nat → Nat) (t t' : ShapeTable) : Prop where
  bij : Set.BijOn σ (Set.Iio t.size) (Set.Iio t'.size)
  shapes : ∀ i sh, t.shapes[i]? = some sh → t'.shapes[σ i]? = some (sh.rename σ)

namespace Renames

variable {σ : Nat → Nat} {t t' : ShapeTable} {s : TypeSet} {depth : Nat}

theorem size_eq (h : Renames σ t t') : t'.size = t.size := by
  have hcard := h.bij.injOn.ncard_image
  rw [h.bij.image_eq] at hcard
  simpa [Set.ncard_eq_toFinset_card'] using hcard

theorem mem_rename (h : Renames σ t t')
    (hk : ∀ i ∈ s, i < t.size) (hany : ¬ s.isAny = true) {j : Nat} :
    j ∈ s.rename σ ↔ ∃ i ∈ s, σ i = j := by
  rw [TypeSet.mem_rename hany]
  refine ⟨And.right, fun hj => ⟨?_, hj⟩⟩
  obtain ⟨i, hi, rfl⟩ := hj
  exact Nat.lt_of_lt_of_le (h.bij.mapsTo (hk i hi)) t'.agrees.room

/-- The any-type holds indices past the end of the table, or all of the table. -/
theorem isAny_rename (h : Renames σ t t') (hk : t.Knows s) :
    (s.rename σ).isAny = true ↔ s.isAny = true := by
  refine ⟨fun hr => ?_, fun hany => by rwa [rename_of_any hany]⟩
  by_contra hany
  have hlt := hk.resolve_left hany
  have hmem : ∀ j < capacity, ∃ i ∈ s, σ i = j := fun j hj =>
    (h.mem_rename hlt hany).1 (isAny_iff.1 hr j hj)
  refine hany (isAny_iff.2 fun i hi => ?_)
  obtain ⟨k, hk, hki⟩ := hmem i hi
  -- all indices are images of members, so none of them is past the end
  have hall : i < t.size := by
    have := h.bij.mapsTo (hlt k hk)
    rw [hki] at this
    exact h.size_eq ▸ this
  obtain ⟨j, hj, hij⟩ := hmem (σ i) (Nat.lt_of_lt_of_le (h.bij.mapsTo hall) t'.agrees.room)
  exact h.bij.injOn (hlt j hj) hall hij ▸ hj

theorem isVoid_rename (h : Renames σ t t')
    (hk : ∀ i ∈ s, i < t.size) (hany : ¬ s.isAny = true) :
    (s.rename σ).isVoid = true ↔ s.isVoid = true := by
  rw [isVoid_iff, isVoid_iff]
  refine ⟨fun hv i hi => hv (σ i) ((h.mem_rename hk hany).2 ⟨i, hi, rfl⟩), fun hv j hj => ?_⟩
  obtain ⟨i, hi, -⟩ := (h.mem_rename hk hany).1 hj
  exact hv i hi

theorem perm_members (h : Renames σ t t')
    (hk : ∀ i ∈ s, i < t.size) (hany : ¬ s.isAny = true) :
    (s.rename σ).members.Perm (s.members.map σ) := by
  have hnodup : (s.members.map σ).Nodup := s.nodup_members.map_on fun i hi j hj hij =>
    h.bij.injOn (hk i (mem_members.1 hi)) (hk j (mem_members.1 hj)) hij
  refine (perm_ext_iff_of_nodup (nodup_members _) hnodup).2 fun j => ?_
  rw [mem_members, h.mem_rename hk hany]
  simp

theorem namesAt_rename (h : Renames σ t t')
    (hk : ∀ i ∈ s, i < t.size) (hany : ¬ s.isAny = true)
    (hname : ∀ i < t.size, t'.nameAt depth (σ i) = t.nameAt depth i) :
    t'.namesAt depth (s.rename σ) = t.namesAt depth s := by
  have hcongr : (s.members.map σ).mapM (t'.nameAt depth) = s.members.mapM (t.nameAt depth) := by
    rw [mapM_map]
    exact mapM_congr fun i hi => hname i (hk i (mem_members.1 hi))
  rw [namesAt, sort_mapM_congr (h.perm_members hk hany), hcongr, namesAt]

theorem shapeName_rename (h : Renames σ t t')
    (hname : ∀ d < depth, ∀ i < t.size, t'.nameAt d (σ i) = t.nameAt d i)
    {sh : Shape} (hsh : t.Admits sh) : t'.shapeName depth (sh.rename σ) = t.shapeName depth sh := by
  cases sh
  case array elems =>
    have hk := hsh elems rfl
    rw [Shape.rename]
    by_cases hany : elems.isAny = true
    · rw [shapeName_any hany, shapeName_any ((h.isAny_rename hk).2 hany)]
    have hlt := hk.resolve_left hany
    have hany' := mt (h.isAny_rename hk).1 hany
    by_cases hvoid : elems.isVoid = true
    · rw [shapeName_void hany hvoid,
        shapeName_void hany' ((h.isVoid_rename hlt hany).2 hvoid)]
    have hvoid' := mt (h.isVoid_rename hlt hany).1 hvoid
    cases depth with
    | zero => rw [shapeName_zero hany hvoid, shapeName_zero hany' hvoid']
    | succ d =>
      rw [shapeName_array hany hvoid, shapeName_array hany' hvoid',
        h.namesAt_rename hlt hany (hname d (Nat.lt_succ_self d))]
  all_goals simp only [Shape.rename, shapeName]

theorem nameAt_rename (h : Renames σ t t') (ht : t.Valid)
    (depth : Nat) : ∀ i < t.size, t'.nameAt depth (σ i) = t.nameAt depth i := by
  induction depth using Nat.strong_induction_on with
  | h depth ih =>
    intro i hi
    have hsh := getElem?_eq_getElem hi
    have hadmits : t.Admits (t.shapes.get ⟨i, hi⟩) := fun elems helems =>
      ht.knows_elements (hsh.trans (congrArg some helems))
    rw [nameAt, nameAt, h.shapes i _ hsh, hsh]
    exact h.shapeName_rename ih hadmits

/-- **The same shapes in another order** have the same names. -/
theorem names_rename (h : Renames σ t t') (ht : t.Valid)
    (hk : t.Knows s) : t'.names (s.rename σ) = t.names s := by
  by_cases hany : s.isAny = true
  · rw [names, names, if_pos hany, if_pos ((h.isAny_rename hk).2 hany)]
  · rw [names_of_not_any hany, names_of_not_any (mt (h.isAny_rename hk).1 hany), h.size_eq]
    exact h.namesAt_rename (hk.resolve_left hany) hany (h.nameAt_rename ht _)

end Renames

/-! ### Names that tell shapes apart -/

/-- No two shapes have the same name, and none is named as the any-type is. -/
structure TellsApart (t : ShapeTable) : Prop where
  apart : ∀ i j n, t.nameAt t.size i = some n → t.nameAt t.size j = some n → i = j
  notMixed : ∀ i, t.nameAt t.size i ≠ some "mixed"

theorem mem_names {s : TypeSet} (hany : ¬ s.isAny = true) (hl : t.names s = some l) {n : String} :
    n ∈ l ↔ ∃ i ∈ s, t.nameAt t.size i = some n := by
  rw [names_of_not_any hany] at hl
  obtain ⟨ns, hns, rfl⟩ := Option.map_eq_some_iff.1 hl
  rw [(Sorted.perm_sort ns).mem_iff, mem_of_mapM hns]
  simp

theorem nameAt_isSome {s : TypeSet} (hany : ¬ s.isAny = true) (hl : t.names s = some l) {i : Nat}
    (hi : i ∈ s) : ∃ n, t.nameAt t.size i = some n := by
  rw [names_of_not_any hany] at hl
  obtain ⟨ns, hns, -⟩ := Option.map_eq_some_iff.1 hl
  have hmem := mem_map_of_mem (f := t.nameAt t.size) (mem_members.2 hi)
  rw [mapM_eq_some_iff.1 hns] at hmem
  obtain ⟨n, -, hn⟩ := mem_map.1 hmem
  exact ⟨n, hn.symm⟩

namespace TellsApart

variable {t : ShapeTable} {a b : TypeSet} {l : List String}

theorem isAny_of_names (h : t.TellsApart) (ha : t.names a = some l) (hb : t.names b = some l)
    (hany : a.isAny = true) : b.isAny = true := by
  by_contra hb'
  rw [names, if_pos hany] at ha
  cases ha
  obtain ⟨i, -, hi⟩ := (mem_names hb' hb).1 (mem_singleton_self "mixed")
  exact h.notMixed i hi

theorem mem_of_names (h : t.TellsApart) (ha : t.names a = some l) (hb : t.names b = some l)
    {i : Nat} (hi : i ∈ a) : i ∈ b := by
  by_cases hany : b.isAny = true
  · exact isAny_iff.1 hany i (lt_of_mem hi)
  have hany' : ¬ a.isAny = true := mt (h.isAny_of_names ha hb) hany
  obtain ⟨n, hn⟩ := nameAt_isSome hany' ha hi
  obtain ⟨j, hj, hjn⟩ := (mem_names hany hb).1 ((mem_names hany' ha).2 ⟨i, hi, hn⟩)
  exact h.apart i j n hn hjn ▸ hj

/-- **Equal names** mean the same shapes. -/
theorem bits_eq (h : t.TellsApart) (ha : t.names a = some l) (hb : t.names b = some l) :
    a.bits = b.bits := by
  apply BitVec.eq_of_getLsbD_eq
  intro i _
  exact Bool.eq_iff_iff.2 ⟨h.mem_of_names ha hb, h.mem_of_names hb ha⟩

end TellsApart
end ShapeTable
end ShapeFlow
