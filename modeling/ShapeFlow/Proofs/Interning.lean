/-
# Interning

Shapes are interned one by one, by name, as arrays of something, or by reading a
hint; in the end each of these is a number of single internings, so what one
interning keeps all of them keep.  A table made this way is a dictionary: no shape
has two indices, an index is never given away twice, and which indices stand for
shapes of a kind can be told without looking at the shapes.

Key definitions: `Kind.holds`, `ShapeTable.Request`, `ShapeTable.askAll`,
`ShapeTable.Interned`, `ShapeTable.Faithful`, `ShapeTable.Dictionary`.
Key theorems: `ShapeTable.interned_ask`, `ShapeTable.Faithful.mem_ofKind`,
`ShapeTable.dictionary_askAll`.
-/
import ShapeFlow.Hint
import ShapeFlow.Proofs.Known

namespace ShapeFlow

open List TypeSet

/-- The shapes of a kind. -/
def Kind.holds : Kind → Shape → Bool
  | null, .null | bool, .bool | int, .int | float, .float | string, .string => true
  | numeric, .int | numeric, .float | numeric, .number => true
  | array, s => s.isArray
  | object, s => s.isObject
  | closure, .closure | resource, .resource => true
  | _, _ => false

namespace ShapeTable

variable {t t' : ShapeTable} {s : Shape} {i : Nat}

/-! ### Requests -/

/-- What can be asked of a table. -/
inductive Request where
  | shape (s : Shape)
  | named (name : String)
  | arrayOf (elems : TypeSet)
  | hint (h : Hint)

/-- The answer, and the table after it. -/
def ask (t : ShapeTable) : Request → TypeSet × ShapeTable
  | .shape s => t.intern s
  | .named name => t.named name
  | .arrayOf elems => t.arrayOf elems
  | .hint h => h.types.run t

/-- The table after a number of requests. -/
def askAll (t : ShapeTable) (qs : List Request) : ShapeTable := qs.foldl (fun t q => (t.ask q).2) t

theorem extends_intern (t : ShapeTable) (s : Shape) : t.Extends (t.intern s).2 := by
  rcases intern_cases t s with ⟨_, -, h⟩ | ⟨-, ⟨-, -, h⟩ | ⟨-, h⟩⟩
  · exact h ▸ .refl t
  · exact .of_append h
  · exact h ▸ .refl t

/-! ### Any number of internings -/

/-- `t'` comes from `t` by interning shapes. -/
def Interned : ShapeTable → ShapeTable → Prop :=
  Relation.ReflTransGen fun t t' => ∃ s, t' = (t.intern s).2

theorem Interned.refl (t : ShapeTable) : Interned t t := Relation.ReflTransGen.refl

theorem interned_intern (t : ShapeTable) (s : Shape) : Interned t (t.intern s).2 :=
  .single ⟨s, rfl⟩

theorem Interned.extends (h : Interned t t') : t.Extends t' := by
  induction h with
  | refl => exact .refl t
  | tail _ hstep ih =>
    obtain ⟨s, rfl⟩ := hstep
    exact ih.trans (extends_intern _ s)

theorem interned_arrayOf (t : ShapeTable) (elems : TypeSet) : Interned t (t.arrayOf elems).2 := by
  unfold arrayOf
  dsimp only
  split
  · exact .refl t
  · split <;> exact interned_intern t _

theorem extends_arrayOf (t : ShapeTable) (elems : TypeSet) : t.Extends (t.arrayOf elems).2 :=
  (interned_arrayOf t elems).extends

end ShapeTable

open ShapeTable

mutual

theorem Hint.interned_types : ∀ (h : Hint) (t : ShapeTable), Interned t (h.types.run t).2
  | .mixed, t | .null, t | .bool, t | .int, t | .float, t | .string, t | .array, t | .object, t
  | .callable, t => by
    all_goals
      rw [Hint.types]
      exact .refl t
  | .arrayOf elem, t => by
    rw [Hint.types]
    exact (Hint.interned_types elem t).trans (interned_arrayOf _ _)
  | .named name, t => by
    rw [Hint.types]
    exact interned_intern t (.named name)
  | .nullable inner, t => by
    rw [Hint.types]
    exact Hint.interned_types inner t
  | .union parts, t => by
    rw [Hint.types]
    exact Hint.interned_typesOfAny parts t

theorem Hint.interned_typesOfAny : ∀ (hs : List Hint) (t : ShapeTable),
    Interned t ((Hint.typesOfAny hs).run t).2
  | [], t => by
    rw [Hint.typesOfAny]
    exact .refl t
  | h :: hs, t => by
    rw [Hint.typesOfAny]
    exact (Hint.interned_types h t).trans (Hint.interned_typesOfAny hs _)

end

/-- What holds of a valid table goes on to hold when a class is named, and when an array
of known elements is made. -/
structure ShapeTable.Lasting (I : ShapeTable → Prop) : Prop where
  valid : ∀ {t}, I t → t.Valid
  named : ∀ {t} (name : String), I t → I (t.named name).2
  arrayOf : ∀ {t} {elems : TypeSet}, I t → t.Knows elems → I (t.arrayOf elems).2

theorem ShapeTable.lasting_valid : Lasting Valid where
  valid h := h
  named name h := (named_spec h name).1
  arrayOf h hk := (arrayOf_spec h hk).1

mutual

/-- What lasts is still there after a hint has been read, which gives a known set. -/
theorem Hint.types_lasting {I : ShapeTable → Prop} (hI : Lasting I) :
    ∀ (h : Hint) (t : ShapeTable), I t →
      I (h.types.run t).2 ∧ (h.types.run t).2.Knows (h.types.run t).1
  | .mixed, t, ht => by
    rw [Hint.types]
    exact ⟨ht, knows_any⟩
  | .null, t, ht | .bool, t, ht | .int, t, ht | .float, t, ht | .string, t, ht | .array, t, ht
  | .object, t, ht => by
    all_goals
      rw [Hint.types]
      exact ⟨ht, (hI.valid ht).knows_single (by decide)⟩
  | .callable, t, ht => by
    rw [Hint.types]
    have hvalid := hI.valid ht
    exact ⟨ht, (hvalid.knows_closure.union hvalid.knows_string).union hvalid.knows_array⟩
  | .arrayOf elem, t, ht => by
    rw [Hint.types]
    obtain ⟨hi, hk⟩ := elem.types_lasting hI t ht
    exact ⟨hI.arrayOf hi hk, (arrayOf_spec (hI.valid hi) hk).2.2⟩
  | .named name, t, ht => by
    rw [Hint.types]
    exact ⟨hI.named name ht, (named_spec (hI.valid ht) name).2.2⟩
  | .nullable inner, t, ht => by
    rw [Hint.types]
    obtain ⟨hi, hk⟩ := inner.types_lasting hI t ht
    exact ⟨hi, hk.union (hI.valid hi).knows_null⟩
  | .union parts, t, ht => by
    rw [Hint.types]
    exact Hint.typesOfAny_lasting hI parts t ht

theorem Hint.typesOfAny_lasting {I : ShapeTable → Prop} (hI : Lasting I) :
    ∀ (hs : List Hint) (t : ShapeTable), I t →
      I ((Hint.typesOfAny hs).run t).2 ∧
        ((Hint.typesOfAny hs).run t).2.Knows ((Hint.typesOfAny hs).run t).1
  | [], t, ht => by
    rw [Hint.typesOfAny]
    exact ⟨ht, knows_void⟩
  | h :: hs, t, ht => by
    rw [Hint.typesOfAny]
    obtain ⟨hi, hk⟩ := h.types_lasting hI t ht
    obtain ⟨hi', hk'⟩ := Hint.typesOfAny_lasting hI hs _ hi
    exact ⟨hi', (hk.mono (Hint.interned_typesOfAny hs _).extends).union hk'⟩

end

namespace ShapeTable

variable {t t' : ShapeTable} {s : Shape} {i : Nat}

/-- **Every request** comes down to internings. -/
theorem interned_ask (t : ShapeTable) : ∀ q : Request, Interned t (t.ask q).2
  | .shape s => interned_intern t s
  | .named name => interned_intern t (.named name)
  | .arrayOf elems => interned_arrayOf t elems
  | .hint h => h.interned_types t

theorem interned_askAll : ∀ (qs : List Request) (t : ShapeTable), Interned t (t.askAll qs)
  | [], t => .refl t
  | q :: qs, t => (interned_ask t q).trans (interned_askAll qs (t.ask q).2)

/-! ### Faithful tables -/

/-- A table that starts with the standard shapes. -/
def Faithful (t : ShapeTable) : Prop := standard.Extends t

theorem Faithful.interned (h : t.Faithful) (ht : Interned t t') : t'.Faithful := h.trans ht.extends

theorem index_unique {j : Nat} (hi : t.shapes[i]? = some s) : t.shapes[j]? = some s ↔ j = i := by
  rw [← t.agrees.inverse, (t.agrees.inverse s i).2 hi, Option.some.injEq, eq_comm]

theorem distinct (t : ShapeTable) : t.shapes.Nodup := by
  refine nodup_iff_getElem?_ne_getElem?.2 fun i j hij hj heq => ?_
  exact Nat.ne_of_gt hij ((index_unique (heq.trans (getElem?_eq_getElem hj))).1 (getElem?_eq_getElem hj))

namespace Faithful

variable {k : Kind} {j : Nat} {m : TypeSet}

/-! ### Kinds -/

theorem getElem?_standard (h : t.Faithful) (hi : standard.shapes[i]? = some s) :
    t.shapes[i]? = some s :=
  (Extends.getElem? h (lt_of_getElem? hi)).trans hi

theorem mem_single_iff (h : t.Faithful) (hj : standard.shapes[j]? = some s) :
    i ∈ TypeSet.single j ↔ t.shapes[i]? = some s := by
  rw [mem_single, index_unique (h.getElem?_standard hj)]
  have hlt : j < 10 := (lt_of_getElem? hj)
  have hcap : capacity = 63 := rfl
  exact ⟨And.left, fun heq => ⟨heq, by omega⟩⟩

/-- **The indices of a kind** are those of the shapes of that kind. -/
theorem mem_ofKind (h : t.Faithful) :
    i ∈ t.ofKind k ↔ ∃ s, t.shapes[i]? = some s ∧ k.holds s = true := by
  -- for a kind with one shape, it is at its standard index
  have hone : ∀ {j : Nat} {u : Shape}, standard.shapes[j]? = some u →
      (∀ s, k.holds s = true ↔ s = u) → (i ∈ single j ↔
        ∃ s, t.shapes[i]? = some s ∧ k.holds s = true) := by
    intro j u hj hk
    simp only [h.mem_single_iff hj, hk, exists_eq_right]
  cases k with
  | null => exact hone (j := 0) rfl fun s => by cases s <;> simp [Kind.holds]
  | bool => exact hone (j := 1) rfl fun s => by cases s <;> simp [Kind.holds]
  | int => exact hone (j := 2) rfl fun s => by cases s <;> simp [Kind.holds]
  | float => exact hone (j := 3) rfl fun s => by cases s <;> simp [Kind.holds]
  | string => exact hone (j := 5) rfl fun s => by cases s <;> simp [Kind.holds]
  | closure => exact hone (j := 8) rfl fun s => by cases s <;> simp [Kind.holds]
  | resource => exact hone (j := 9) rfl fun s => by cases s <;> simp [Kind.holds]
  | array => exact t.agrees.arrays.mem_iff i
  | object => exact t.agrees.objects.mem_iff i
  | numeric =>
    have hholds : ∀ s, Kind.numeric.holds s = true ↔ s = .int ∨ s = .float ∨ s = .number :=
      fun s => by cases s <;> simp [Kind.holds]
    change i ∈ single 2 ∪ .single 3 ∪ .single 4 ↔ _
    rw [mem_union, mem_union, h.mem_single_iff (j := 2) (s := .int) rfl,
      h.mem_single_iff (j := 3) (s := .float) rfl, h.mem_single_iff (j := 4) (s := .number) rfl]
    simp only [hholds, and_or_left, exists_or, exists_eq_right, or_assoc]

theorem mem_restrict (h : t.Faithful) : i ∈ t.restrict m k ↔
    i ∈ m ∧ (m.isAny = true ∨ ∃ s, t.shapes[i]? = some s ∧ k.holds s = true) := by
  unfold restrict
  split
  next hany =>
    rw [mem_any]
    exact ⟨fun hi => ⟨isAny_iff.1 hany i hi, .inl hany⟩, fun hi => lt_of_mem hi.1⟩
  next hany => rw [mem_common, h.mem_ofKind, or_iff_right hany]

theorem isKind_iff (h : t.Faithful) : t.isKind m k = true ↔
    (∃ i, i ∈ m) ∧ m.isAny = false ∧
      ∀ i ∈ m, ∃ s, t.shapes[i]? = some s ∧ k.holds s = true := by
  have hvoid : (!m.isVoid) = true ↔ ∃ i, i ∈ m := by
    rw [Bool.not_eq_true', ← Bool.not_eq_true, isVoid_iff]
    exact not_forall_not
  simp only [isKind, Bool.and_eq_true, hvoid, Bool.not_eq_true', decide_eq_true_eq,
    subset_iff, h.mem_ofKind, and_assoc]

theorem canBe_iff (h : t.Faithful) : t.canBe m k = true ↔
    m.isAny = true ∨ ∃ i ∈ m, ∃ s, t.shapes[i]? = some s ∧ k.holds s = true := by
  have hmeets : m.meets (t.ofKind k) = true ↔ ∃ i ∈ m, i ∈ t.ofKind k := by
    rw [meets, Bool.not_eq_true', ← Bool.not_eq_true, isVoid_iff, not_forall_not]
    simp only [mem_common]
  simp only [canBe, Bool.or_eq_true, hmeets, h.mem_ofKind]

end Faithful

/-- **What one interning adds** to the kinds: a new shape adds its own index to those it is of. -/
theorem Faithful.mem_ofKind_intern (h : t.Faithful) (s : Shape) (k : Kind) (i : Nat) :
    i ∈ (t.intern s).2.ofKind k ↔ i ∈ t.ofKind k ∨
      i = t.size ∧ s ∉ t.shapes ∧ t.size < TypeSet.capacity ∧ k.holds s = true := by
  rw [(h.interned (interned_intern t s)).mem_ofKind, h.mem_ofKind]
  rcases intern_cases t s with ⟨j, hj, heq⟩ | ⟨hs, ⟨hroom, -, heq⟩ | ⟨hfull, heq⟩⟩
  · simp [heq, mem_of_getElem? hj]
  · simp only [heq, Registry.getElem?_append_iff, or_and_right, exists_or, and_assoc, exists_and_left,
      exists_eq_left, hs, hroom, not_false_eq_true, true_and]
    rfl
  · simp [heq, hfull]

/-! ### Dictionaries -/

/-- A finite table that can be read both ways, and in which a kind is a set of indices. -/
structure Dictionary (t : ShapeTable) : Prop where
  distinct : t.shapes.Nodup
  room : t.size ≤ 63
  /-- Looking up a shape and looking up an index undo each other. -/
  inverse : ∀ s i, t.index s = some i ↔ t.shapes[i]? = some s
  found : ∀ s i, t.shapes[i]? = some s → t.intern s = (.single i, t)
  fresh : ∀ s, s ∉ t.shapes → t.size < 63 →
    (t.intern s).1 = .single t.size ∧ (t.intern s).2.toRegistry = t.push s
  full : ∀ s, s ∉ t.shapes → t.size = 63 → t.intern s = (.any, t)
  arrays : ∀ i, i ∈ t.arrays ↔ ∃ elems, t.shapes[i]? = some (.array elems)
  objects : ∀ i, i ∈ t.objects ↔ t.shapes[i]? = some .object ∨
    (∃ name, t.shapes[i]? = some (.named name)) ∨ t.shapes[i]? = some .closure
  ofKind : t.ofKind .array = t.arrays ∧ t.ofKind .object = t.objects
  /-- The kinds can be kept up to date from one interning to the next. -/
  kept : ∀ s k i, i ∈ (t.intern s).2.ofKind k ↔ i ∈ t.ofKind k ∨
    i = t.size ∧ s ∉ t.shapes ∧ t.size < 63 ∧ k.holds s = true
  restrict : ∀ m k i, i ∈ t.restrict m k ↔
    i ∈ m ∧ (m.isAny = true ∨ ∃ s, t.shapes[i]? = some s ∧ k.holds s = true)
  isKind : ∀ m k, t.isKind m k = true ↔ (∃ i, i ∈ m) ∧ m.isAny = false ∧
    ∀ i ∈ m, ∃ s, t.shapes[i]? = some s ∧ k.holds s = true
  canBe : ∀ m k, t.canBe m k = true ↔
    m.isAny = true ∨ ∃ i ∈ m, ∃ s, t.shapes[i]? = some s ∧ k.holds s = true

theorem Faithful.dictionary (h : t.Faithful) : t.Dictionary where
  distinct := t.distinct
  room := t.agrees.room
  inverse := t.agrees.inverse
  found _ _ hi := intern_of_getElem? hi
  fresh s hs hroom := by
    have hnone : t.index s = none := Option.eq_none_iff_forall_ne_some.2 fun i hi =>
      hs (mem_of_getElem? ((t.agrees.inverse s i).1 hi))
    have hpush : Registry.intern t.toRegistry s = (.single t.size, t.push s) := by
      rw [Registry.intern, hnone]
      exact if_pos hroom
    exact ⟨congrArg Prod.fst hpush, congrArg Prod.snd hpush⟩
  full s hs hfull := by
    rcases intern_cases t s with ⟨i, hi, -⟩ | ⟨-, ⟨hroom, -⟩ | ⟨-, heq⟩⟩
    · exact absurd (mem_of_getElem? hi) hs
    · exact absurd hfull (Nat.ne_of_lt hroom)
    · exact heq
  arrays i := by
    rw [t.agrees.arrays.mem_iff]
    constructor
    · rintro ⟨s, hi, hs⟩
      cases s with
      | array elems => exact ⟨elems, hi⟩
      | _ => cases hs
    · rintro ⟨elems, hi⟩
      exact ⟨_, hi, rfl⟩
  objects i := by
    rw [t.agrees.objects.mem_iff]
    constructor
    · rintro ⟨s, hi, hs⟩
      cases s with
      | object => exact .inl hi
      | named name => exact .inr (.inl ⟨name, hi⟩)
      | closure => exact .inr (.inr hi)
      | _ => cases hs
    · rintro (hi | ⟨name, hi⟩ | hi) <;> exact ⟨_, hi, rfl⟩
  ofKind := ⟨rfl, rfl⟩
  kept := h.mem_ofKind_intern
  restrict _ _ _ := h.mem_restrict
  isKind _ _ := h.isKind_iff
  canBe _ _ := h.canBe_iff

theorem faithful_askAll (qs : List Request) : (standard.askAll qs).Faithful :=
  (interned_askAll qs standard).extends

/-- **Interning is faithful.**  After any requests to a new table it is a dictionary, and after
any further requests each of its shapes is answered with the index it has now. -/
theorem dictionary_askAll (qs : List Request) : (standard.askAll qs).Dictionary ∧
    ∀ (more : List Request) (s : Shape) (i : Nat), (standard.askAll qs).shapes[i]? = some s →
      (standard.askAll (qs ++ more)).shapes[i]? = some s ∧
      (standard.askAll (qs ++ more)).intern s = (.single i, standard.askAll (qs ++ more)) := by
  refine ⟨(faithful_askAll qs).dictionary, fun more s i hi => ?_⟩
  have hsplit : standard.askAll (qs ++ more) = (standard.askAll qs).askAll more := List.foldl_append
  have hext : (standard.askAll qs).Extends (standard.askAll (qs ++ more)) :=
    hsplit ▸ (interned_askAll more _).extends
  have hlater : (standard.askAll (qs ++ more)).shapes[i]? = some s :=
    (hext.getElem? (List.getElem?_eq_some_iff.1 hi).1).trans hi
  exact ⟨hlater, intern_of_getElem? hlater⟩

theorem dictionary_named : (standard.askAll [.arrayOf .int, .named "A"]).Dictionary ∧
    (standard.askAll [.arrayOf .int, .named "A"]).shapes[11]? = some (.named "A") ∧
    (standard.askAll [.arrayOf .int, .named "A", .hint (.nullable (.named "B"))]).intern (.named "A") =
      (.single 11, standard.askAll [.arrayOf .int, .named "A", .hint (.nullable (.named "B"))]) := by
  have hthere : (standard.askAll [.arrayOf .int, .named "A"]).shapes[11]? = some (.named "A") := by
    decide +kernel
  obtain ⟨hdictionary, hkept⟩ := dictionary_askAll [.arrayOf .int, .named "A"]
  exact ⟨hdictionary, hthere, (hkept [.hint (.nullable (.named "B"))] _ _ hthere).2⟩

end ShapeTable
end ShapeFlow
