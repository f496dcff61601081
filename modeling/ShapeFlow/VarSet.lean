/-
# Sets of variables

Most routines have few variables, so a set of them is 64 bits.  A variable of
index 64 or more is not tracked: it is a member of every set and cannot be
removed.  The questions asked of these sets (may it be used, may it be
initialized) are safe to answer with yes.
-/
namespace ShapeFlow

/-- A set of variables, exact below index 64. -/
structure VarSet where
  bits : BitVec 64
deriving DecidableEq, Inhabited

namespace VarSet

/-- How many variables a set keeps track of. -/
def width : Nat := 64

/-- Membership of `i` is kept exactly. -/
def tracked (i : Nat) : Bool := i < width

/-- No tracked variable. -/
def empty : VarSet := ⟨0⟩

/-- Every variable. -/
def all : VarSet := ⟨BitVec.allOnes 64⟩

/-- Untracked variables are always members. -/
def contains (s : VarSet) (i : Nat) : Bool := !tracked i || s.bits.getLsbD i

def insert (s : VarSet) (i : Nat) : VarSet :=
  if tracked i then ⟨s.bits ||| BitVec.twoPow 64 i⟩ else s

/-- Untracked variables stay members. -/
def erase (s : VarSet) (i : Nat) : VarSet :=
  if tracked i then ⟨s.bits &&& ~~~BitVec.twoPow 64 i⟩ else s

instance : Union VarSet := ⟨fun a b => ⟨a.bits ||| b.bits⟩⟩

instance : Inter VarSet := ⟨fun a b => ⟨a.bits &&& b.bits⟩⟩

instance : HasSubset VarSet := ⟨fun a b => a.bits &&& ~~~b.bits = 0⟩

instance (a b : VarSet) : Decidable (a ⊆ b) :=
  inferInstanceAs (Decidable (a.bits &&& ~~~b.bits = 0))

def isEmpty (s : VarSet) : Bool := s.bits == 0

/-- The tracked members in increasing order. -/
def members (s : VarSet) : List Nat := (List.range width).filter (s.bits.getLsbD ·)

/-- The set of the given variables. -/
def ofList (l : List Nat) : VarSet := l.foldl insert empty

/-- The members in brackets, or `<ALL>`. -/
def render (s : VarSet) : String :=
  if s = all then "<ALL>" else "[" ++ ", ".intercalate (s.members.map Nat.repr) ++ "]"

/-! ### The operations through membership -/

theorem contains_of_not_tracked (s : VarSet) {i : Nat} (h : tracked i = false) :
    s.contains i = true := by
  simp [contains, h]

theorem contains_eq (s : VarSet) {i : Nat} (h : tracked i = true) :
    s.contains i = s.bits.getLsbD i := by
  simp [contains, h]

theorem contains_union (a b : VarSet) (i : Nat) :
    (a ∪ b).contains i = (a.contains i || b.contains i) := by
  cases h : tracked i
  · simp [contains_of_not_tracked _ h]
  · simp only [contains_eq _ h]; exact BitVec.getLsbD_or

theorem contains_inter (a b : VarSet) (i : Nat) :
    (a ∩ b).contains i = (a.contains i && b.contains i) := by
  cases h : tracked i
  · simp [contains_of_not_tracked _ h]
  · simp only [contains_eq _ h]; exact BitVec.getLsbD_and

theorem contains_insert (s : VarSet) (i j : Nat) :
    (s.insert i).contains j = (s.contains j || i == j) := by
  cases hj : tracked j
  · simp [contains_of_not_tracked _ hj]
  · simp only [contains_eq _ hj, insert]
    split
    next hi =>
      have hj : j < 64 := of_decide_eq_true hj
      by_cases hij : i = j
      · simp [hj, hij]
      · simp [BitVec.getLsbD_twoPow, hij]
    next hi =>
      have hij : i ≠ j := fun h => hi (h ▸ hj)
      simp [hij]

theorem contains_erase (s : VarSet) (i j : Nat) :
    (s.erase i).contains j = (s.contains j && (!tracked j || i != j)) := by
  cases hj : tracked j
  · simp [contains_of_not_tracked _ hj]
  · simp only [contains_eq _ hj, erase]
    split
    next hi =>
      have hj : j < 64 := of_decide_eq_true hj
      by_cases hij : i = j
      · simp [hj, hij]
      · simp [hj, hij, Ne.symm hij]
    next hi =>
      have hij : i ≠ j := fun h => hi (h ▸ hj)
      simp [hij]

end VarSet
end ShapeFlow
