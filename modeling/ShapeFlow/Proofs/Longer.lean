/-
# Longer tables answer the same

A table only ever gets longer.  Whatever is asked about a set that the shorter
table knows gets the same answer from the longer one, and a shape that the shorter
one has just been given keeps its index.  So a walk that is repeated later, with a
table that has grown meanwhile, finds the types it found before.

Key theorems: `ShapeTable.Extends.isKind`, `ShapeTable.Extends.element`,
`ShapeTable.intern_again`, `ShapeTable.updated_again`.
-/
import ShapeFlow.Proofs.Known

namespace ShapeFlow

open TypeSet

theorem TypeSet.byRef_remove (s r : TypeSet) : (s.remove r).byRef = s.byRef := by
  unfold remove
  split <;> rfl

namespace ShapeTable

variable {t t' : ShapeTable} {s r l : TypeSet} {i : Nat} {sh : Shape}

/-! ### Kinds -/

theorem Extends.mem_ofKind (h : t.Extends t') (k : Kind) (hi : i < t.size) :
    i ∈ t'.ofKind k ↔ i ∈ t.ofKind k := by
  cases k
  case array => rw [ofKind, ofKind, t'.agrees.arrays.mem_iff, t.agrees.arrays.mem_iff, h.getElem? hi]
  case object =>
    rw [ofKind, ofKind, t'.agrees.objects.mem_iff, t.agrees.objects.mem_iff, h.getElem? hi]
  all_goals exact Iff.rfl

theorem Extends.common_ofKind (h : t.Extends t') (hs : ∀ i ∈ s, i < t.size) (k : Kind) :
    s.common (t'.ofKind k) = s.common (t.ofKind k) := by
  refine ext_mem (fun i => ?_) rfl
  rw [mem_common, mem_common]
  exact and_congr_right fun hi => h.mem_ofKind k (hs i hi)

theorem Extends.restrict (h : t.Extends t') (hs : t.Knows s) (k : Kind) :
    t'.restrict s k = t.restrict s k := by
  unfold ShapeTable.restrict
  split
  · rfl
  next hany => exact h.common_ofKind (hs.resolve_left hany) k

theorem Extends.remove_ofKind (h : t.Extends t') (hs : t.Knows s) (k : Kind) :
    s.remove (t'.ofKind k) = s.remove (t.ofKind k) := by
  refine ext_mem (fun i => ?_) ((s.byRef_remove _).trans (s.byRef_remove _).symm)
  rw [mem_remove, mem_remove]
  refine and_congr_right fun hi => ?_
  rcases hs with hany | hs
  · simp [hany]
  · rw [h.mem_ofKind k (hs i hi)]

theorem Extends.isKind (h : t.Extends t') (hs : t.Knows s) (k : Kind) :
    t'.isKind s k = t.isKind s k := by
  unfold ShapeTable.isKind
  rcases hs with hany | hs
  · simp [hany]
  · have hsub : s ⊆ t'.ofKind k ↔ s ⊆ t.ofKind k := by
      rw [subset_iff, subset_iff]
      exact forall₂_congr fun i hi => h.mem_ofKind k (hs i hi)
    simp only [hsub]

theorem Extends.canBe (h : t.Extends t') (hs : t.Knows s) (k : Kind) :
    t'.canBe s k = t.canBe s k := by
  unfold ShapeTable.canBe
  rcases hs with hany | hs
  · simp [hany]
  · rw [meets, meets, h.common_ofKind hs k]

/-! ### Elements -/

theorem Extends.shapesOf (h : t.Extends t') (hs : ∀ i ∈ s, i < t.size) :
    t'.shapesOf s = t.shapesOf s := by
  unfold ShapeTable.shapesOf
  have hall : ∀ l : List Nat, (∀ i ∈ l, i ∈ s) →
      (l.mapM fun i => t'.shapes[i]?) = l.mapM fun i => t.shapes[i]? := by
    intro l hl
    induction l with
    | nil => rfl
    | cons i l ih =>
      rw [List.mapM_cons, List.mapM_cons, ih fun j hj => hl j (.tail _ hj),
        h.getElem? (hs i (hl i (.head _)))]
  exact hall s.members fun i hi => mem_members.1 hi

theorem Extends.element (h : t.Extends t') (hs : t.Knows s) : t'.element s = t.element s := by
  unfold ShapeTable.element
  rcases hs with hany | hs
  · simp [hany]
  · rw [h.shapesOf hs]

theorem Extends.elements (h : t.Extends t') (hs : t.Knows s) : t'.elements s = t.elements s := by
  unfold ShapeTable.elements
  rcases hs with hany | hs
  · simp [hany]
  · rw [h.shapesOf hs]

/-! ### The types operators give -/

theorem Extends.bothKind (h : t.Extends t') (hl : t.Knows l) (hr : t.Knows r) (k : Kind) :
    t'.bothKind l r k = t.bothKind l r k := by
  rw [ShapeTable.bothKind, ShapeTable.bothKind, h.isKind hl k, h.isKind hr k]

theorem Extends.binaryTypes (h : t.Extends t') (op : BinOp) (hl : t.Knows l) (hr : t.Knows r) :
    t'.binaryTypes op l r = t.binaryTypes op l r := by
  unfold ShapeTable.binaryTypes
  simp only [h.bothKind hl.plain hr.plain]

theorem Extends.unaryTypes (h : t.Extends t') (op : UnOp) (hs : t.Knows s) :
    t'.unaryTypes op s = t.unaryTypes op s := by
  unfold ShapeTable.unaryTypes
  simp only [h.isKind hs]

theorem Extends.castTypes (h : t.Extends t') (kind : Cast) (hs : t.Knows s) :
    t'.castTypes kind s = t.castTypes kind s := by
  unfold ShapeTable.castTypes
  simp only [h.isKind hs]

/-! ### Shapes made before -/

theorem Extends.of_getElem? (h : t.Extends t') (hi : t.shapes[i]? = some sh) :
    t'.shapes[i]? = some sh := (h.getElem? (lt_of_getElem? hi)).trans hi

theorem Extends.eq_of_full (h : t.Extends t') (ht : t.size = TypeSet.capacity) : t' = t :=
  ext_shapes (List.IsPrefix.eq_of_length_le h (ht.symm ▸ t'.agrees.room :)).symm

theorem intern_again (h : (t.intern sh).2.Extends t') : t'.intern sh = ((t.intern sh).1, t') := by
  rcases intern_cases t sh with ⟨i, hi, heq⟩ | ⟨-, ⟨-, hset, hshapes⟩ | ⟨hfull, heq⟩⟩
  · rw [heq] at h ⊢
    exact intern_of_getElem? (h.of_getElem? hi)
  · rw [hset]
    exact intern_of_getElem? (h.of_getElem? (by simp [hshapes, Registry.size]))
  · rw [heq] at h ⊢
    rw [h.eq_of_full hfull, heq]

theorem arrayOf_again {elems : TypeSet} (helems : t.Knows elems)
    (hext : t.Extends (t.arrayOf elems).2) (h : (t.arrayOf elems).2.Extends t') :
    t'.arrayOf elems = ((t.arrayOf elems).1, t') := by
  have hlong : t.Extends t' := hext.trans h
  by_cases hany : elems.isAny = true
  · simp only [arrayOf, hany, if_true]
  · have hk := helems.resolve_left hany
    have hmeets : elems.meets (t'.ofKind .array) = elems.meets (t.ofKind .array) := by
      rw [meets, meets, hlong.common_ofKind hk .array]
    by_cases hm : elems.meets (t.ofKind .array) = true
    · simp only [arrayOf, hany, hmeets, hm, if_true, Bool.false_eq_true, if_false,
        hlong.remove_ofKind helems.plain .array] at h ⊢
      exact intern_again h
    · simp only [arrayOf, hany, hmeets, hm, Bool.false_eq_true, if_false] at h ⊢
      exact intern_again h

theorem updated_again {value : TypeSet} {t1 : ShapeTable} (ht : t.Valid) (hs : t.Knows s)
    (hv : t.Knows value) (hr : t.updated s value = some (r, t1)) (h : t1.Extends t') :
    t'.updated s value = some (r, t') := by
  by_cases hany : s.isAny = true
  · simp only [updated, hany, if_true, Option.some.injEq, Prod.mk.injEq] at hr ⊢
    exact ⟨hr.1, trivial⟩
  · obtain ⟨elems, helems, hknown⟩ := elements_spec ht (knows_restrict hs .array)
    obtain ⟨-, hext, -⟩ := arrayOf_spec ht (hknown.union hv)
    simp only [updated, hany, Bool.false_eq_true, if_false, helems, Option.bind_eq_bind,
      Option.bind_some, Option.pure_def, Option.some.injEq, Prod.mk.injEq] at hr
    obtain ⟨rfl, rfl⟩ := hr
    have hlong := hext.trans h
    have hs1 := hs.mono hext
    have helems' : t'.elements (t'.restrict s .array) = some elems := by
      rw [hlong.restrict hs, hlong.elements (knows_restrict hs .array), helems]
    simp only [updated, hany, Bool.false_eq_true, if_false, helems', Option.bind_eq_bind,
      Option.bind_some, Option.pure_def, arrayOf_again (hknown.union hv) hext h]
    rw [h.canBe hs1, h.restrict hs1]

end ShapeTable
end ShapeFlow
