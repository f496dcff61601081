/-
# Type sets

What a value may be is a set of shapes.  A shape is known here by its index
alone (`ShapeFlow/ShapeTable.lean` says which shape an index stands for), and
there are at most 63 of them, so a set is 63 bits.  All of them is the any-type,
none of them is void.  Beside the shapes a set carries one mark: whether the
value may be reached through a reference.

Key definitions: `TypeSet`, its union, `TypeSet.remove`, `TypeSet.members`.
Key theorems: `mem_union`, `mem_remove`, `subset_iff`: each operation through
membership.
-/
namespace ShapeFlow

/-- The shapes a value may have, by index, and whether it may be aliased. -/
structure TypeSet where
  bits : BitVec 63
  byRef : Bool := false
deriving DecidableEq, Inhabited

namespace TypeSet

/-- How many shapes a set can tell apart. -/
def capacity : Nat := 63

/-- No shape at all: nothing is known to reach the value yet. -/
def void : TypeSet := ⟨0, false⟩

/-- Every shape: nothing is known about the value. -/
def any : TypeSet := ⟨BitVec.allOnes 63, false⟩

/-- The shape of index `i` alone. -/
def single (i : Nat) : TypeSet := ⟨BitVec.twoPow 63 i, false⟩

instance : EmptyCollection TypeSet := ⟨void⟩

/-- Shape `i` is one of the shapes of the set. -/
instance : Membership Nat TypeSet := ⟨fun s i => s.bits.getLsbD i = true⟩

instance (i : Nat) (s : TypeSet) : Decidable (i ∈ s) :=
  inferInstanceAs (Decidable (s.bits.getLsbD i = true))

/-- Shapes of either side; aliased if one side is. -/
instance : Union TypeSet := ⟨fun a b => ⟨a.bits ||| b.bits, a.byRef || b.byRef⟩⟩

/-- Every shape of the left is a shape of the right.  References do not count. -/
instance : HasSubset TypeSet := ⟨fun a b => a.bits &&& ~~~b.bits = 0⟩

instance (a b : TypeSet) : Decidable (a ⊆ b) :=
  inferInstanceAs (Decidable (a.bits &&& ~~~b.bits = 0))

def isVoid (s : TypeSet) : Bool := s.bits == 0

def isAny (s : TypeSet) : Bool := s.bits == BitVec.allOnes 63

/-- The same shapes, marked as aliased. -/
def withRef (s : TypeSet) : TypeSet := { s with byRef := true }

/-- The same shapes, without the mark. -/
def plain (s : TypeSet) : TypeSet := { s with byRef := false }

/-- The shapes of `s` that are not in `t`.  The any-type stays: what is left of
it has no finite description. -/
def remove (s t : TypeSet) : TypeSet :=
  if s.isAny then s else { s with bits := s.bits &&& ~~~t.bits }

/-- The shapes common to both, without the mark. -/
def common (s t : TypeSet) : TypeSet := ⟨s.bits &&& t.bits, false⟩

/-- Some shape is common to both. -/
def meets (s t : TypeSet) : Bool := !(s.common t).isVoid

/-- The indices of the shapes, in increasing order. -/
def members (s : TypeSet) : List Nat := (List.range capacity).filter (· ∈ s)

/-- Exactly one shape. -/
def isSingle (s : TypeSet) : Bool := s.members.length == 1

/-- The indices below `n` that satisfy `p`. -/
def below (p : Nat → Bool) : Nat → TypeSet
  | 0 => void
  | n + 1 => if p n then below p n ∪ single n else below p n

/-- The indices that satisfy `p`, as far as a set can hold them. -/
def ofPred (p : Nat → Bool) : TypeSet := below p capacity

/-- The set as one 64-bit word, the mark on top. -/
def word (s : TypeSet) : Nat := (BitVec.ofBool s.byRef ++ s.bits).toNat

/-- The set a 64-bit word stands for. -/
def ofWord (n : Nat) : TypeSet := ⟨BitVec.ofNat 63 n, n.testBit 63⟩

/-- By word. -/
instance : Ord TypeSet := ⟨fun a b => compare a.word b.word⟩

/-! ### The shapes every table starts with -/

def null : TypeSet := single 0
def bool : TypeSet := single 1
def int : TypeSet := single 2
def float : TypeSet := single 3
/-- An integer that may have been promoted on overflow. -/
def number : TypeSet := single 4
def string : TypeSet := single 5
/-- An array of unknown elements. -/
def array : TypeSet := single 6
/-- An object of unknown class. -/
def object : TypeSet := single 7
def closure : TypeSet := single 8
def resource : TypeSet := single 9

/-- What arithmetic that may overflow gives. -/
def numbers : TypeSet := int ∪ float ∪ number

/-! ### The operations through membership -/

variable {i : Nat} {s a b : TypeSet} {p : Nat → Bool}

theorem mem_def : i ∈ s ↔ s.bits.getLsbD i = true := Iff.rfl

@[simp] theorem not_mem_void (i : Nat) : i ∉ void := by simp [mem_def, void]

@[simp] theorem mem_any (i : Nat) : i ∈ any ↔ i < capacity := by
  simp only [mem_def, any, BitVec.getLsbD_allOnes, capacity, decide_eq_true_eq]

@[simp] theorem mem_single {j : Nat} : i ∈ single j ↔ i = j ∧ i < capacity := by
  simp only [mem_def, single, capacity, BitVec.getLsbD_twoPow, Bool.and_eq_true, decide_eq_true_eq]
  omega

@[simp] theorem mem_union : i ∈ a ∪ b ↔ i ∈ a ∨ i ∈ b := by
  show (a.bits ||| b.bits).getLsbD i = true ↔ _
  simp [mem_def]

@[simp] theorem mem_plain : i ∈ s.plain ↔ i ∈ s := Iff.rfl

theorem lt_of_mem (h : i ∈ s) : i < capacity :=
  Nat.lt_of_not_le fun hle => by simp [mem_def, BitVec.getLsbD_of_ge s.bits i hle] at h

@[simp] theorem mem_common : i ∈ a.common b ↔ i ∈ a ∧ i ∈ b := by
  simp [mem_def, common]

theorem mem_remove {t : TypeSet} :
    i ∈ s.remove t ↔ i ∈ s ∧ (s.isAny = true ∨ i ∉ t) := by
  unfold remove
  split
  next h => simp [h]
  next h =>
    by_cases hs : i ∈ s
    · have hi : i < 63 := lt_of_mem hs
      simp only [mem_def] at hs ⊢
      simp [hs, hi, h]
    · simp only [mem_def] at hs ⊢
      simp [hs]

@[simp] theorem mem_members : i ∈ s.members ↔ i ∈ s := by
  simp only [members, List.mem_filter, List.mem_range, decide_eq_true_eq]
  exact ⟨And.right, fun h => ⟨lt_of_mem h, h⟩⟩

theorem mem_below {n : Nat} :
    i ∈ below p n ↔ i < n ∧ i < capacity ∧ p i = true := by
  induction n with
  | zero => simp [below]
  | succ n ih =>
    unfold below
    split
    next h =>
      rw [mem_union, ih, mem_single]
      by_cases hi : i = n
      · simp [hi, h]
      · have : i < n + 1 ↔ i < n := by omega
        simp [hi, this]
    next h =>
      rw [ih]
      by_cases hi : i = n
      · simp [hi, h]
      · have : i < n + 1 ↔ i < n := by omega
        simp [this]

@[simp] theorem mem_ofPred :
    i ∈ ofPred p ↔ i < capacity ∧ p i = true := by
  rw [ofPred, mem_below]
  exact ⟨And.right, fun h => ⟨h.1, h⟩⟩

theorem ext_mem (h : ∀ i, i ∈ a ↔ i ∈ b) (href : a.byRef = b.byRef) : a = b := by
  obtain ⟨x, p⟩ := a
  obtain ⟨y, q⟩ := b
  have hxy : x = y := by
    apply BitVec.eq_of_getLsbD_eq
    intro i _
    have := h i
    simp only [mem_def] at this
    exact Bool.eq_iff_iff.2 this
  simp only at href
  rw [hxy, href]

theorem subset_iff : a ⊆ b ↔ ∀ i, i ∈ a → i ∈ b := by
  show a.bits &&& ~~~b.bits = 0 ↔ _
  constructor
  · intro h i ha
    have hi : i < 63 := lt_of_mem ha
    have := congrArg (·.getLsbD i) h
    simp only [mem_def] at ha ⊢
    simpa [ha, hi] using this
  · intro h
    apply BitVec.eq_of_getLsbD_eq
    intro i hi
    by_cases ha : i ∈ a
    · have hb := h i ha
      simp only [mem_def] at hb
      simp [hb]
    · simp only [mem_def] at ha
      simp [ha]

end TypeSet
end ShapeFlow
