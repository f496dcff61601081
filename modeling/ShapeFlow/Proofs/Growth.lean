/-
# How sets grow

Everything the analysis knows is kept in sets that only grow: sets of types and
sets of variables.  `TypeSet` is ordered by `a ≤ b`, every shape and the mark of
`a` are in `b`, and union is its least upper bound.  The weight of a set counts
what is in it; it is bounded, and a set that grew weighs more, which is what
bounds the number of steps of the analysis.

Key definitions: `TypeSet.weight`, `VarSet.weight`.
Key theorems: `TypeSet.union_le`, `TypeSet.eq_of_weight_le`, `VarSet.eq_of_weight_le`.
-/
import Mathlib
import ShapeFlow.TypeSet
import ShapeFlow.VarSet

namespace ShapeFlow

open List

variable {β : Type}

theorem forall₂_trans {R : β → β → Prop} (hR : ∀ a b c, R a b → R b c → R a c) :
    ∀ {l k j : List β}, List.Forall₂ R l k → List.Forall₂ R k j → List.Forall₂ R l j
  | _, _, _, .nil, .nil => .nil
  | _, _, _, .cons h t, .cons h' t' => .cons (hR _ _ _ h h') (forall₂_trans hR t t')

theorem lt_of_getElem? {l : List β} {i : Nat} {b : β} (h : l[i]? = some b) :
    i < l.length := (List.getElem?_eq_some_iff.1 h).1

/-! ### Counting -/

theorem countP_eq_of_le {p q : Nat → Bool} {l : List Nat}
    (hpq : ∀ i ∈ l, p i = true → q i = true) (hle : l.countP q ≤ l.countP p) :
    ∀ i ∈ l, p i = q i := by
  induction l with
  | nil => intro i hi; simp at hi
  | cons a l ih =>
    have htail : l.countP p ≤ l.countP q :=
      countP_mono_left fun i hi => hpq i (.tail _ hi)
    have hhead := hpq a (.head _)
    simp only [countP_cons] at hle
    have hpa : p a = q a := by
      cases hp : p a <;> cases hq : q a <;> simp_all; omega
    have hrest := ih (fun i hi => hpq i (.tail _ hi)) (by rw [hpa] at hle; omega)
    intro i hi
    rcases mem_cons.1 hi with rfl | hi
    · exact hpa
    · exact hrest i hi

namespace TypeSet

/-! ### The order -/

variable {a b c s : TypeSet}

@[simp] theorem byRef_union (a b : TypeSet) : (a ∪ b).byRef = (a.byRef || b.byRef) := rfl

@[simp] theorem byRef_plain (a : TypeSet) : a.plain.byRef = false := rfl

/-- What is in `a`, the mark too, is in `b`. -/
instance : LE TypeSet := ⟨fun a b => (∀ i, i ∈ a → i ∈ b) ∧ (a.byRef = true → b.byRef = true)⟩

theorem le_refl (a : TypeSet) : a ≤ a := ⟨fun _ h => h, fun h => h⟩

theorem le_trans (h : a ≤ b) (h' : b ≤ c) : a ≤ c :=
  ⟨fun i hi => h'.1 i (h.1 i hi), fun hr => h'.2 (h.2 hr)⟩

theorem le_antisymm (h : a ≤ b) (h' : b ≤ a) : a = b :=
  ext_mem (fun i => ⟨h.1 i, h'.1 i⟩) (Bool.eq_iff_iff.2 ⟨h.2, h'.2⟩)

theorem le_union_left (a b : TypeSet) : a ≤ a ∪ b :=
  ⟨fun i hi => mem_union.2 (.inl hi), fun hr => by simp [hr]⟩

theorem le_union_right (a b : TypeSet) : b ≤ a ∪ b :=
  ⟨fun i hi => mem_union.2 (.inr hi), fun hr => by simp [hr]⟩

theorem union_le (ha : a ≤ c) (hb : b ≤ c) : a ∪ b ≤ c := by
  refine ⟨fun i hi => ?_, fun hr => ?_⟩
  · rcases mem_union.1 hi with hi | hi
    · exact ha.1 i hi
    · exact hb.1 i hi
  · rw [byRef_union, Bool.or_eq_true] at hr
    exact hr.elim ha.2 hb.2

theorem union_eq_left (h : b ≤ a) : a ∪ b = a :=
  le_antisymm (union_le (le_refl a) h) (le_union_left a b)

theorem null_le_iff : null ≤ a ↔ 0 ∈ a := by
  refine ⟨fun h => h.1 0 (mem_single.2 ⟨rfl, by decide⟩), fun h => ⟨fun i hi => ?_, fun h => by cases h⟩⟩
  rw [(mem_single.1 hi).1]
  exact h

theorem plain_le (a : TypeSet) : a.plain ≤ a := ⟨fun _ h => h, fun h => by simp at h⟩

theorem subset_of_le (h : a ≤ b) : a ⊆ b := subset_iff.2 h.1

theorem subset_trans (h : a ⊆ b) (h' : b ⊆ c) : a ⊆ c :=
  subset_iff.2 fun i hi => subset_iff.1 h' i (subset_iff.1 h i hi)

theorem isAny_iff : s.isAny = true ↔ ∀ i < capacity, i ∈ s := by
  unfold isAny
  rw [beq_iff_eq]
  constructor
  · intro h i hi
    rw [mem_def, h, BitVec.getLsbD_allOnes]
    exact decide_eq_true hi
  · intro h
    apply BitVec.eq_of_getLsbD_eq
    intro i hi
    rw [BitVec.getLsbD_allOnes, decide_eq_true hi]
    exact h i hi

theorem isVoid_iff : s.isVoid = true ↔ ∀ i, i ∉ s := by
  unfold isVoid
  rw [beq_iff_eq]
  constructor
  · intro h i hi
    rw [mem_def, h] at hi
    simp at hi
  · intro h
    apply BitVec.eq_of_getLsbD_eq
    intro i _
    have := h i
    rw [mem_def] at this
    simpa using this

theorem isAny_of_le (h : a ≤ b) (ha : a.isAny = true) : b.isAny = true :=
  isAny_iff.2 fun i hi => h.1 i (isAny_iff.1 ha i hi)

@[simp] theorem isAny_plain (s : TypeSet) : s.plain.isAny = s.isAny := rfl

@[simp] theorem isAny_any : any.isAny = true := by decide

theorem any_subset_iff : any ⊆ s ↔ s.isAny = true := by
  rw [subset_iff, isAny_iff]
  constructor
  · intro h i hi
    exact h i (isAny_iff.1 isAny_any i hi)
  · intro h i hi
    rw [mem_def] at hi
    exact h i (BitVec.lt_of_getLsbD hi)

/-! ### The weight -/

/-- How much there is in a set: its shapes, and the mark. -/
def weight (s : TypeSet) : Nat :=
  (List.range capacity).countP (fun i => decide (i ∈ s)) + s.byRef.toNat

theorem weight_le (s : TypeSet) : s.weight ≤ 64 := by
  unfold weight
  have hshapes : (range capacity).countP (fun i => decide (i ∈ s)) ≤ 63 := by
    simpa [capacity] using countP_le_length (p := fun i => decide (i ∈ s)) (l := range capacity)
  have hmark := Bool.toNat_le s.byRef
  omega

theorem toNat_mono {p q : Bool} (h : p = true → q = true) : p.toNat ≤ q.toNat := by
  cases p <;> cases q <;> simp_all

theorem weight_mono (h : a ≤ b) : a.weight ≤ b.weight := by
  unfold weight
  apply Nat.add_le_add
  · apply countP_mono_left
    intro i _ hi
    exact decide_eq_true (h.1 i (of_decide_eq_true hi))
  · exact toNat_mono h.2

theorem eq_of_weight_le (h : a ≤ b) (hw : b.weight ≤ a.weight) : a = b := by
  unfold weight at hw
  have hshapes : (range capacity).countP (fun i => decide (i ∈ a)) ≤
      (range capacity).countP (fun i => decide (i ∈ b)) :=
    countP_mono_left fun i _ hi => decide_eq_true (h.1 i (of_decide_eq_true hi))
  have hmark : a.byRef.toNat ≤ b.byRef.toNat := toNat_mono h.2
  have heq := countP_eq_of_le (p := fun i => decide (i ∈ a)) (q := fun i => decide (i ∈ b))
    (l := range capacity) (fun i _ hi => decide_eq_true (h.1 i (of_decide_eq_true hi)))
    (by omega)
  apply ext_mem
  · intro i
    refine ⟨h.1 i, fun hi => ?_⟩
    have := heq i (mem_range.2 (lt_of_mem hi))
    simp only [hi, decide_true, decide_eq_true_eq] at this
    exact this
  · have : a.byRef.toNat = b.byRef.toNat := by omega
    cases hp : a.byRef <;> cases hq : b.byRef <;> simp_all

/-- What a union adds makes it heavier. -/
theorem weight_lt_union (h : a ∪ b ≠ a) : a.weight < (a ∪ b).weight := by
  by_contra hle
  exact h (eq_of_weight_le (le_union_left a b) (by omega)).symm

end TypeSet

namespace VarSet

variable {a b : VarSet}

theorem ext_contains (h : ∀ i < width, a.contains i = b.contains i) : a = b := by
  obtain ⟨x⟩ := a
  obtain ⟨y⟩ := b
  have hxy : x = y := by
    apply BitVec.eq_of_getLsbD_eq
    intro i hi
    have ht : tracked i = true := decide_eq_true hi
    have := h i hi
    rwa [contains_eq _ ht, contains_eq _ ht] at this
  rw [hxy]

/-- How many tracked variables there are in a set. -/
def weight (s : VarSet) : Nat := (List.range width).countP s.contains

theorem weight_le (s : VarSet) : s.weight ≤ 64 := by
  simpa [weight, width] using countP_le_length (p := s.contains) (l := range width)

theorem weight_mono (h : ∀ i, a.contains i = true → b.contains i = true) : a.weight ≤ b.weight :=
  countP_mono_left fun i _ => h i

theorem eq_of_weight_le (h : ∀ i, a.contains i = true → b.contains i = true)
    (hw : b.weight ≤ a.weight) : a = b :=
  ext_contains fun i hi =>
    countP_eq_of_le (fun j _ => h j) hw i (mem_range.2 hi)

end VarSet
end ShapeFlow
