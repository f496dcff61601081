/-
# Operands and their combinations

What a binary operator gives for two sets of types should cover what it gives for
each shape of the one with each shape of the other.  It does, but for the
operators that treat two values of one kind in a way of their own: adding arrays
gives an array, and a bitwise operator on strings gives a string, and both are
found only if nothing but arrays, or nothing but strings, can occur.  An addition
with an operand of unknown types makes up for that; the others do not.

Key definitions: `ShapeTable.IsAt`, `ShapeTable.Covers`, `ShapeTable.Overlooks`.
Key theorems: `ShapeTable.Faithful.bothKind_iff`, `ShapeTable.covers_add`,
`ShapeTable.covers_binaryTypes_iff`.
-/
import ShapeFlow.Proofs.Interning

namespace ShapeFlow

open TypeSet

theorem Kind.not_null_and_bool (k : Kind) : ¬ (k.holds .null = true ∧ k.holds .bool = true) := by
  cases k <;> decide

theorem Shape.not_array_and_numeric (s : Shape) :
    ¬ (Kind.array.holds s = true ∧ Kind.numeric.holds s = true) := by
  cases s <;> simp [Kind.holds, Shape.isArray]

namespace TypeSet

variable {i : Nat}

theorem not_isAny_single (a : Nat) : (single a).isAny = false := by
  rw [← Bool.not_eq_true, isAny_iff]
  intro h
  have h0 := (mem_single.1 (h 0 (by decide))).1
  have h1 := (mem_single.1 (h 1 (by decide))).1
  omega

theorem mem_numbers : i ∈ numbers ↔ i = 2 ∨ i = 3 ∨ i = 4 := by
  have hcap : capacity = 63 := rfl
  simp only [numbers, int, float, number, mem_union, mem_single]
  omega

end TypeSet

namespace ShapeTable

variable {t : ShapeTable} {k : Kind} {op : BinOp} {l r : TypeSet} {a b i : Nat}

/-! ### Covering -/

/-- Index `i` stands for a shape of the kind. -/
def IsAt (t : ShapeTable) (k : Kind) (i : Nat) : Prop :=
  ∃ s, t.shapes[i]? = some s ∧ k.holds s = true

/-- The set has the shape of index `i`, or something in its place: everything, arrays of
unknown elements if it is an array, objects of unknown class if it is one of a class. -/
def Covers (t : ShapeTable) (m : TypeSet) (i : Nat) : Prop :=
  i ∈ m ∨ m.isAny = true ∨ t.IsAt .array i ∧ TypeSet.array ⊆ m ∨
    (∃ name, t.shapes[i]? = some (.named name)) ∧ TypeSet.object ⊆ m

/-- The shapes of index `a` and `b` are of a kind that the operator treats in a way of its own,
the operands may be of another kind, and nothing makes up for it. -/
def Overlooks (t : ShapeTable) (op : BinOp) (l r : TypeSet) (a b : Nat) : Prop :=
  match op with
  | .add => t.IsAt .array a ∧ t.IsAt .array b ∧ l.isAny = false ∧ r.isAny = false ∧
      ∃ j, (j ∈ l ∨ j ∈ r) ∧ ¬ t.IsAt .array j
  | .bitAnd | .bitOr | .bitXor => t.IsAt .string a ∧ t.IsAt .string b ∧
      ∃ j, (j ∈ l ∨ j ∈ r) ∧ ¬ t.IsAt .string j
  | _ => False

theorem Covers.of_mem {m : TypeSet} (h : i ∈ m) : t.Covers m i := .inl h

/-! ### Kinds of operands -/

namespace Faithful

theorem isKind_iff_forall (h : t.Faithful) (ha : a ∈ l) :
    t.isKind l k = true ↔ ∀ j ∈ l, t.IsAt k j := by
  rw [h.isKind_iff]
  refine ⟨fun hl => hl.2.2, fun hl => ⟨⟨a, ha⟩, ?_, hl⟩⟩
  -- null and bool are of no common kind
  rw [← Bool.not_eq_true]
  intro hany
  obtain ⟨s, hs, hnull⟩ := hl 0 (isAny_iff.1 hany 0 (by decide))
  obtain ⟨u, hu, hbool⟩ := hl 1 (isAny_iff.1 hany 1 (by decide))
  obtain rfl := Option.some.inj (hs.symm.trans (h.getElem?_standard (i := 0) rfl))
  obtain rfl := Option.some.inj (hu.symm.trans (h.getElem?_standard (i := 1) rfl))
  exact Kind.not_null_and_bool k ⟨hnull, hbool⟩

theorem bothKind_iff (h : t.Faithful) (ha : a ∈ l) (hb : b ∈ r) :
    t.bothKind l r k = true ↔ ∀ j, j ∈ l ∨ j ∈ r → t.IsAt k j := by
  rw [bothKind, Bool.and_eq_true, h.isKind_iff_forall ha, h.isKind_iff_forall hb]
  exact ⟨fun hk j hj => hj.elim (hk.1 j) (hk.2 j),
    fun hk => ⟨fun j hj => hk j (.inl hj), fun j hj => hk j (.inr hj)⟩⟩

theorem bothKind_single (h : t.Faithful) (ha : a ∈ l) (hb : b ∈ r) :
    t.bothKind (.single a) (.single b) k = true ↔ t.IsAt k a ∧ t.IsAt k b := by
  have ha' : a ∈ single a := mem_single.2 ⟨rfl, lt_of_mem ha⟩
  have hb' : b ∈ single b := mem_single.2 ⟨rfl, lt_of_mem hb⟩
  rw [h.bothKind_iff ha' hb']
  refine ⟨fun hk => ⟨hk a (.inl ha'), hk b (.inr hb')⟩, ?_⟩
  rintro ⟨hka, hkb⟩ j (hj | hj)
  · exact (mem_single.1 hj).1 ▸ hka
  · exact (mem_single.1 hj).1 ▸ hkb

theorem bothKind_mem (h : t.Faithful) (ha : a ∈ l) (hb : b ∈ r) (hk : t.bothKind l r k = true) :
    t.bothKind (.single a) (.single b) k = true := by
  have hall := (h.bothKind_iff ha hb).1 hk
  exact (h.bothKind_single ha hb).2 ⟨hall a (.inl ha), hall b (.inr hb)⟩

end Faithful

/-- An index stands for one shape, so for no two kinds that have none in common. -/
theorem IsAt.not_numeric (hi : t.IsAt .array i) : ¬ t.IsAt .numeric i := by
  rintro ⟨s, hs, hnumeric⟩
  obtain ⟨u, hu, harray⟩ := hi
  obtain rfl := Option.mem_unique hs hu
  exact Shape.not_array_and_numeric s ⟨harray, hnumeric⟩

theorem IsAt.not_named (hi : t.IsAt .array i) {name : String} : t.shapes[i]? ≠ some (.named name) := by
  rintro hname
  obtain ⟨s, hs, harray⟩ := hi
  obtain rfl := Option.mem_unique hs hname
  cases harray

/-! ### Arithmetic -/

theorem mem_numbers_of_arithmetic (hi : i ∈ arithmetic l r) : i ∈ TypeSet.numbers := by
  unfold arithmetic at hi
  split at hi
  · exact mem_numbers.2 (.inr (.inl (mem_single.1 hi).1))
  · exact hi

/-- If only floats can come out, one of the operands is a float in each combination. -/
theorem mem_arithmetic (ha : a ∈ l) (hb : b ∈ r) (hi : i ∈ arithmetic (.single a) (.single b)) :
    i ∈ arithmetic l r := by
  have hnumbers := mem_numbers_of_arithmetic hi
  unfold arithmetic at hi ⊢
  split
  next hfloat =>
    rw [if_pos] at hi
    · exact hi
    · rw [Bool.or_eq_true, beq_iff_eq, beq_iff_eq] at hfloat ⊢
      rcases hfloat with rfl | rfl
      · exact .inl (by rw [(mem_single.1 ha).1]; rfl)
      · exact .inr (by rw [(mem_single.1 hb).1]; rfl)
  next => exact hnumbers

theorem mem_arithmetic_or_numbers (h : t.Faithful) (ha : a ∈ l) (hb : b ∈ r)
    (hi : i ∈ if t.bothKind (.single a) (.single b) .numeric = true
      then arithmetic (.single a) (.single b) else .numbers) :
    i ∈ if t.bothKind l r .numeric = true then arithmetic l r else .numbers := by
  split
  next hboth =>
    rw [if_pos (h.bothKind_mem ha hb hboth)] at hi
    exact mem_arithmetic ha hb hi
  next =>
    split at hi
    · exact mem_numbers_of_arithmetic hi
    · exact hi

/-! ### The operators -/

theorem binaryTypes_add (t : ShapeTable) (l r : TypeSet) : t.binaryTypes .add l r =
    if t.bothKind l r .array = true then l.plain ∪ r.plain
    else if t.bothKind l r .numeric = true then arithmetic l.plain r.plain
    else if (l.isAny || r.isAny) = true then .numbers ∪ .array
    else .numbers := rfl

theorem not_covers_numbers (h : t.Faithful) (hi : t.IsAt .array i) : ¬ t.Covers .numbers i := by
  rintro (hmem | hany | ⟨-, harray⟩ | ⟨⟨name, hname⟩, -⟩)
  · exact hi.not_numeric (h.mem_ofKind.1 hmem)
  · cases hany
  · exact absurd harray (by decide)
  · exact hi.not_named hname

theorem covers_add_of_arrays (h : t.Faithful) (ha : a ∈ l) (hb : b ∈ r) (haa : t.IsAt .array a)
    (hab : t.IsAt .array b) (hi : i = a ∨ i = b) :
    t.Covers (t.binaryTypes .add l r) i ↔ ¬ t.Overlooks .add l r a b := by
  have hia : t.IsAt .array i := by
    rcases hi with rfl | rfl
    · exact haa
    · exact hab
  have hnumeric : ¬ t.bothKind l r .numeric = true := fun hk =>
    haa.not_numeric ((h.bothKind_iff ha hb).1 hk a (.inl ha))
  rw [binaryTypes_add]
  by_cases hall : t.bothKind l r .array = true
  · rw [if_pos hall]
    refine iff_of_true (Covers.of_mem ?_) ?_
    · rcases hi with rfl | rfl
      · exact mem_union.2 (.inl ha)
      · exact mem_union.2 (.inr hb)
    · rintro ⟨-, -, -, -, j, hj, hnot⟩
      exact hnot ((h.bothKind_iff ha hb).1 hall j hj)
  · rw [if_neg hall, if_neg hnumeric]
    split
    next hany =>
      refine iff_of_true (.inr (.inr (.inl ⟨hia, by decide⟩))) ?_
      rintro ⟨-, -, hl, hr, -⟩
      rw [hl, hr] at hany
      cases hany
    next hany =>
      refine iff_of_false (not_covers_numbers h hia) (not_not.2 ?_)
      rw [Bool.or_eq_true, not_or, Bool.not_eq_true, Bool.not_eq_true] at hany
      rw [h.bothKind_iff ha hb] at hall
      push Not at hall
      exact ⟨haa, hab, hany.1, hany.2, hall⟩

theorem mem_add_of_not_arrays (h : t.Faithful) (ha : a ∈ l) (hb : b ∈ r)
    (hnot : ¬ (t.IsAt .array a ∧ t.IsAt .array b))
    (hi : i ∈ t.binaryTypes .add (.single a) (.single b)) : i ∈ t.binaryTypes .add l r := by
  have hsingles : ¬ t.bothKind (.single a) (.single b) .array = true :=
    mt (h.bothKind_single ha hb).1 hnot
  rw [binaryTypes_add, if_neg hsingles, not_isAny_single, not_isAny_single] at hi
  have hmem := mem_arithmetic_or_numbers (l := l.plain) (r := r.plain) h ha hb hi
  rw [binaryTypes_add, if_neg fun hall => hsingles (h.bothKind_mem ha hb hall)]
  split
  next hboth => rwa [if_pos (show t.bothKind l.plain r.plain .numeric = true from hboth)] at hmem
  next hboth =>
    rw [if_neg (show ¬ t.bothKind l.plain r.plain .numeric = true from hboth)] at hmem
    split
    · exact mem_union.2 (.inl hmem)
    · exact hmem

theorem covers_add (h : t.Faithful) (ha : a ∈ l) (hb : b ∈ r)
    (hi : i ∈ t.binaryTypes .add (.single a) (.single b)) :
    t.Covers (t.binaryTypes .add l r) i ↔ ¬ t.Overlooks .add l r a b := by
  by_cases harrays : t.IsAt .array a ∧ t.IsAt .array b
  · refine covers_add_of_arrays h ha hb harrays.1 harrays.2 ?_
    rw [binaryTypes_add, if_pos ((h.bothKind_single ha hb).2 harrays)] at hi
    exact (mem_union.1 hi).imp (fun hm => (mem_single.1 hm).1)
      fun hm => (mem_single.1 hm).1
  · exact iff_of_true (Covers.of_mem (mem_add_of_not_arrays h ha hb harrays hi))
      fun hover => harrays ⟨hover.1, hover.2.1⟩

theorem covers_bitwise (h : t.Faithful) (ha : a ∈ l) (hb : b ∈ r)
    (hi : i ∈ if t.bothKind (.single a) (.single b) .string = true then TypeSet.string else .int) :
    t.Covers (if t.bothKind l r .string = true then .string else .int) i ↔
      ¬ (t.IsAt .string a ∧ t.IsAt .string b ∧ ∃ j, (j ∈ l ∨ j ∈ r) ∧ ¬ t.IsAt .string j) := by
  by_cases hall : t.bothKind l r .string = true
  · rw [if_pos (h.bothKind_mem ha hb hall)] at hi
    rw [if_pos hall]
    refine iff_of_true (Covers.of_mem hi) ?_
    rintro ⟨-, -, j, hj, hnot⟩
    exact hnot ((h.bothKind_iff ha hb).1 hall j hj)
  · rw [if_neg hall]
    by_cases hboth : t.bothKind (.single a) (.single b) .string = true
    · rw [if_pos hboth] at hi
      obtain ⟨hsa, hsb⟩ := (h.bothKind_single ha hb).1 hboth
      rw [h.bothKind_iff ha hb] at hall
      push Not at hall
      refine iff_of_false ?_ (not_not.2 ⟨hsa, hsb, hall⟩)
      obtain rfl : i = 5 := (mem_single.1 hi).1
      rintro (hmem | hany | ⟨-, harray⟩ | ⟨-, hobject⟩)
      · exact absurd hmem (by decide)
      · cases hany
      · exact absurd harray (by decide)
      · exact absurd hobject (by decide)
    · rw [if_neg hboth] at hi
      exact iff_of_true (Covers.of_mem hi)
        fun hs => hboth ((h.bothKind_single ha hb).2 ⟨hs.1, hs.2.1⟩)

theorem mem_coalesce (ha : a ∈ l) (hb : b ∈ r)
    (hi : i ∈ t.binaryTypes .coalesce (.single a) (.single b)) : i ∈ t.binaryTypes .coalesce l r := by
  rcases mem_union.1 hi with hmem | hmem
  · obtain ⟨hia, hnull⟩ := mem_remove.1 hmem
    obtain rfl := (mem_single.1 hia).1
    rw [isAny_plain, not_isAny_single] at hnull
    have hnot : i ∉ null := hnull.resolve_left Bool.false_ne_true
    exact mem_union.2 (.inl (mem_remove.2 ⟨ha, .inr hnot⟩))
  · obtain rfl := (mem_single.1 hmem).1
    exact mem_union.2 (.inr hb)

theorem Faithful.covers_iff (h : t.Faithful) (op : BinOp) (ha : a ∈ l) (hb : b ∈ r)
    (hi : i ∈ t.binaryTypes op (.single a) (.single b)) :
    t.Covers (t.binaryTypes op l r) i ↔ ¬ t.Overlooks op l r a b := by
  cases op with
  | add => exact covers_add h ha hb hi
  | bitAnd | bitOr | bitXor => exact covers_bitwise h ha hb hi
  | sub | mul | div | pow =>
    exact iff_of_true
      (Covers.of_mem (mem_arithmetic_or_numbers (l := l.plain) (r := r.plain) h ha hb hi)) not_false
  | coalesce => exact iff_of_true (Covers.of_mem (mem_coalesce ha hb hi)) not_false
  | _ => exact iff_of_true (Covers.of_mem hi) not_false

/-- **Each combination of operands is covered**, but for two arrays that are added and two
strings under a bitwise operator, where the operands may be something else.  A sum with an
operand of unknown types covers arrays all the same. -/
theorem covers_binaryTypes_iff (qs : List Request) (op : BinOp) {l r : TypeSet} {a b i : Nat}
    (ha : a ∈ l) (hb : b ∈ r)
    (hi : i ∈ (standard.askAll qs).binaryTypes op (.single a) (.single b)) :
    (standard.askAll qs).Covers ((standard.askAll qs).binaryTypes op l r) i ↔
      ¬ (standard.askAll qs).Overlooks op l r a b :=
  (faithful_askAll qs).covers_iff op ha hb hi

/-- Arrays of integers, which the table comes to know at index 10, added to any array: covered
if nothing is known of the operand they come from, not if it may be an integer. -/
theorem sum_of_arrays_covered :
    (standard.askAll [.arrayOf .int]).shapes = standard.shapes ++ [.array .int] ∧
    10 ∈ (standard.askAll [.arrayOf .int]).binaryTypes .add (.single 10) (.single 6) ∧
    (standard.askAll [.arrayOf .int]).Covers
      ((standard.askAll [.arrayOf .int]).binaryTypes .add .any .array) 10 ∧
    ¬ (standard.askAll [.arrayOf .int]).Covers
      ((standard.askAll [.arrayOf .int]).binaryTypes .add (.int ∪ .single 10) .array) 10 := by
  have htable : (standard.askAll [.arrayOf .int]).shapes = standard.shapes ++ [.array .int] := by
    decide +kernel
  have hi : 10 ∈ (standard.askAll [.arrayOf .int]).binaryTypes .add (.single 10) (.single 6) := by
    decide +kernel
  refine ⟨htable, hi, ?_, ?_⟩
  · refine (covers_binaryTypes_iff _ .add (by decide) (by decide) hi).2 ?_
    rintro ⟨-, -, hany, -⟩
    cases hany
  · refine mt (covers_binaryTypes_iff _ .add (by decide) (by decide) hi).1 (not_not.2 ?_)
    refine ⟨⟨_, by rw [htable]; rfl, rfl⟩, ⟨_, by rw [htable]; rfl, rfl⟩, by decide, by decide, 2,
      Or.inl (by decide), ?_⟩
    rintro ⟨s, hs, harray⟩
    rw [htable] at hs
    cases hs
    cases harray

end ShapeTable
end ShapeFlow
