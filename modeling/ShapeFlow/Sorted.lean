/-
# Sorted lists

Whatever the library reports in order (names of shapes, range notes, proposed
tuples, diagnostics) it keeps in a list sorted by `compare`.  `insert` keeps
repetitions, `insertNew` keeps one of each.
-/
namespace ShapeFlow
namespace Sorted

variable {α : Type} [Ord α]

/-- Puts `a` before the first element that is not below it. -/
def insert (a : α) : List α → List α
  | [] => [a]
  | b :: l => if (compare a b).isLE then a :: b :: l else b :: insert a l

/-- The elements of `l` in order. -/
def sort (l : List α) : List α := l.foldr insert []

/-- Puts `a` in its place unless an equal element stands there. -/
def insertNew (a : α) : List α → List α
  | [] => [a]
  | b :: l =>
    match compare a b with
    | .lt => a :: b :: l
    | .eq => b :: l
    | .gt => b :: insertNew a l

/-- The elements of `l` in order, one of each. -/
def sortNew (l : List α) : List α := l.foldr insertNew []

theorem mem_insertNew {a b : α} : ∀ {l : List α}, b ∈ insertNew a l → b = a ∨ b ∈ l
  | [], h => by simpa [insertNew] using h
  | c :: l, h => by
    unfold insertNew at h
    split at h
    · simpa using h
    · exact Or.inr h
    · rcases List.mem_cons.1 h with rfl | h
      · exact Or.inr List.mem_cons_self
      · exact (mem_insertNew h).imp_right (List.mem_cons_of_mem c)

end Sorted
end ShapeFlow
