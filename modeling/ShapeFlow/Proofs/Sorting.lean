/-
# Lists in order

A sorted list has one form: it is determined by its elements, so it does not matter in which
order they come in, nor, where each is kept once, how often.

Key definitions: `Sorted.Ascending`, `Sorted.Increasing`.
Key theorems: `Sorted.sort_congr`, `Sorted.Increasing.insertNew`, `Sorted.Increasing.ext`.
-/
import Mathlib
import ShapeFlow.Sorted

namespace ShapeFlow

open List
namespace Sorted

open Std

variable {α : Type} [Ord α] {a b : α} {l l' : List α}

/-- No element is above a later one. -/
def Ascending (l : List α) : Prop := l.Pairwise fun a b => (compare a b).isLE = true

/-- Every element is below the later ones. -/
def Increasing (l : List α) : Prop := l.Pairwise fun a b => compare a b = .lt

/-! ### Sorting -/

theorem insert_eq_orderedInsert (a : α) : ∀ l : List α,
    insert a l = l.orderedInsert (fun a b => (compare a b).isLE = true) a
  | [] => rfl
  | b :: l => by rw [insert, orderedInsert_cons, insert_eq_orderedInsert a l]

theorem sort_eq_insertionSort (l : List α) :
    sort l = l.insertionSort fun a b => (compare a b).isLE = true :=
  congrArg (l.foldr · []) (funext₂ insert_eq_orderedInsert)

theorem perm_sort (l : List α) : (sort l).Perm l := by
  rw [sort_eq_insertionSort]
  exact perm_insertionSort _ l

section Trans

variable [TransOrd α]

theorem ascending_sort (l : List α) : Ascending (sort l) := by
  have htotal : Std.Total fun a b : α => (compare a b).isLE = true :=
    ⟨fun a b => by
      rw [show compare b a = (compare a b).swap from OrientedCmp.eq_swap]
      cases compare a b <;> simp⟩
  have htrans : IsTrans α fun a b => (compare a b).isLE = true := ⟨fun _ _ _ => TransCmp.isLE_trans⟩
  rw [sort_eq_insertionSort]
  exact pairwise_insertionSort _ l

/-- **Sorting** forgets the order. -/
theorem sort_congr [LawfulEqOrd α] (h : l.Perm l') : sort l = sort l' := by
  have hantisymm : ∀ a b : α, a ∈ sort l → b ∈ sort l' → (compare a b).isLE = true →
      (compare b a).isLE = true → a = b :=
    fun a b _ _ hab hba => LawfulEqOrd.eq_of_compare (OrientedCmp.isLE_antisymm hab hba)
  exact List.Perm.eq_of_pairwise hantisymm (ascending_sort l) (ascending_sort l')
    ((perm_sort l).trans (h.trans (perm_sort l').symm))

/-! ### One of each -/

theorem Increasing.insertNew (h : Increasing l) (a : α) : Increasing (Sorted.insertNew a l) := by
  induction l with
  | nil => exact pairwise_singleton _ a
  | cons b l ih =>
    obtain ⟨hb, hl⟩ := pairwise_cons.1 h
    unfold Sorted.insertNew
    split
    next hab =>
      refine pairwise_cons.2 ⟨fun c hc => ?_, h⟩
      rcases mem_cons.1 hc with rfl | hc
      · exact hab
      · exact TransCmp.lt_trans hab (hb c hc)
    · exact h
    next hab =>
      refine pairwise_cons.2 ⟨fun c hc => ?_, ih hl⟩
      rcases mem_insertNew hc with rfl | hc
      · exact OrientedCmp.gt_iff_lt.1 hab
      · exact hb c hc

theorem insertNew_of_mem (h : Increasing l) (ha : a ∈ l) : insertNew a l = l := by
  induction l with
  | nil => cases ha
  | cons b l ih =>
    obtain ⟨hb, hl⟩ := pairwise_cons.1 h
    unfold insertNew
    rcases mem_cons.1 ha with rfl | ha
    · rw [show compare a a = .eq from ReflCmp.compare_self]
    · rw [OrientedCmp.gt_iff_lt.2 (hb a ha)]
      exact congrArg (b :: ·) (ih hl ha)

theorem Increasing.nodup (h : Increasing l) : l.Nodup :=
  h.imp fun {a b} hab heq => by
    rw [heq, show compare b b = .eq from ReflCmp.compare_self] at hab
    cases hab

/-- **A list in order** is determined by its elements. -/
theorem Increasing.ext (h : Increasing l) (h' : Increasing l') (hmem : ∀ a, a ∈ l ↔ a ∈ l') :
    l = l' := by
  have hantisymm : ∀ a b : α, a ∈ l → b ∈ l' → compare a b = .lt → compare b a = .lt → a = b :=
    fun a b _ _ hab hba => absurd hba (OrientedCmp.not_lt_of_lt hab)
  exact List.Perm.eq_of_pairwise hantisymm h h' ((perm_ext_iff_of_nodup h.nodup h'.nodup).2 hmem)

end Trans

section Lawful

variable [LawfulEqOrd α]

theorem mem_insertNew_iff : ∀ {l : List α}, b ∈ insertNew a l ↔ b = a ∨ b ∈ l
  | [] => by simp [insertNew]
  | c :: l => by
    unfold insertNew
    split
    · exact mem_cons
    next heq =>
      obtain rfl := LawfulEqOrd.eq_of_compare heq
      simp
    · rw [mem_cons, mem_insertNew_iff, mem_cons]
      exact or_left_comm

theorem length_insertNew : ∀ {l : List α}, a ∉ l → (insertNew a l).length = l.length + 1
  | [], _ => rfl
  | b :: l, h => by
    obtain ⟨hab, hl⟩ := not_or.1 (mt mem_cons.2 h)
    unfold insertNew
    split
    · rfl
    next heq => exact absurd (LawfulEqOrd.eq_of_compare heq) hab
    · rw [length_cons, length_insertNew hl, length_cons]

end Lawful

end Sorted
end ShapeFlow
