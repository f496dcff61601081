/-
# Proposals have one order

The tuples proposed for a routine are kept in the order of their names, and of their bits where the
names are equal.  What is kept is determined by the tuples alone: not by the order in which they
came, nor by how often, nor by what the table met meanwhile.  Even the bits do not matter where
names tell shapes apart: a table that met the same shapes in another order lists the corresponding
tuples in the corresponding order.

Key definitions: `Candidates.insertEach`, `Candidates.Proposed`, `Candidates.Collects`.
Key theorems: `Candidates.collects_insertEach`, `Candidates.Collects.eq_of_shared`,
`Candidates.Collects.entries_rename`, `Candidates.insertEach_canonical`.
-/
import ShapeFlow.Proofs.Naming
import ShapeFlow.Proofs.Specializing

namespace ShapeFlow

open Std ShapeTable List TypeSet

/-! ### The order of sets and candidates -/

namespace TypeSet

theorem word_eq (s : TypeSet) : s.word = 2 ^ 63 * s.byRef.toNat + s.bits.toNat := by
  rw [word, BitVec.toNat_append, ← Nat.shiftLeft_add_eq_or_of_lt s.bits.isLt, Nat.shiftLeft_eq,
    BitVec.toNat_ofBool, Nat.mul_comm]

theorem word_injective : Function.Injective word := by
  rintro ⟨x, p⟩ ⟨y, q⟩ h
  rw [word_eq, word_eq] at h
  have hx : x.toNat < 2 ^ 63 := x.isLt
  have hy : y.toNat < 2 ^ 63 := y.isLt
  have hpq : p = q := by cases p <;> cases q <;> simp at h ⊢ <;> omega
  have hxy : x = y := BitVec.eq_of_toNat_eq (by rw [hpq] at h; exact Nat.add_left_cancel h)
  rw [hpq, hxy]

instance : TransOrd TypeSet := inferInstanceAs (TransCmp (compareOn word))

instance : LawfulEqOrd TypeSet where
  eq_of_compare h := word_injective (LawfulEqOrd.eq_of_compare h)

theorem compare_of_bits {a b a' b' : TypeSet} (h : a.bits = b.bits) (h' : a'.bits = b'.bits)
    (ha : a'.byRef = a.byRef) (hb : b'.byRef = b.byRef) : compare a' b' = compare a b := by
  show compare a'.word b'.word = compare a.word b.word
  simp only [word_eq, h, h', ha, hb, Nat.compare_eq_ite_lt, Nat.add_lt_add_iff_right]

theorem bits_rename (σ : Nat → Nat) {a b : TypeSet} (h : a.bits = b.bits) :
    (a.rename σ).bits = (b.rename σ).bits := by
  obtain ⟨x, p⟩ := a
  obtain ⟨y, q⟩ := b
  obtain rfl : x = y := h
  unfold rename
  split <;> rename_i hany
  · rw [if_pos (show isAny ⟨x, q⟩ = true from hany)]
  · rw [if_neg (show ¬ isAny ⟨x, q⟩ = true from hany)]
    rfl

end TypeSet

/-- The tuple with index `σ i` in the place of `i`. -/
def Tuple.rename (σ : Nat → Nat) (tuple : Tuple) : Tuple := tuple.map (·.rename σ)

theorem Tuple.compare_eq : ∀ a b : Tuple,
    compare a b = compare (a.map TypeSet.word) (b.map TypeSet.word)
  | [], [] => rfl
  | [], _ :: _ => rfl
  | _ :: _, [] => rfl
  | s :: a, s' :: b => by
    rw [List.map_cons, List.map_cons, List.compare_cons_cons, List.compare_cons_cons,
      Tuple.compare_eq a b]
    rfl

theorem Tuple.compare_rename {t : ShapeTable} (h : t.TellsApart) (σ : Nat → Nat) :
    ∀ {a b : Tuple} {names : List (List String)}, a.map t.names = names.map some →
      b.map t.names = names.map some → compare (a.rename σ) (b.rename σ) = compare a b
  | [], [], _, _, _ => rfl
  | [], _ :: _, [], _, hb => by cases hb
  | _ :: _, _, [], ha, _ => by cases ha
  | _ :: _, [], _ :: _, _, hb => by cases hb
  | s :: a, s' :: b, l :: names, ha, hb => by
    obtain ⟨hs, ha⟩ := List.cons.inj ha
    obtain ⟨hs', hb⟩ := cons.inj hb
    have hbits := h.bits_eq hs hs'
    have hhead : compare (s.rename σ) (s'.rename σ) = compare s s' :=
      compare_of_bits hbits (bits_rename σ hbits) (byRef_rename σ s)
        (byRef_rename σ s')
    have htail := Tuple.compare_rename h σ ha hb
    simp only [Tuple.rename, map_cons] at htail ⊢
    rw [List.compare_cons_cons, List.compare_cons_cons, hhead, htail]

namespace Candidate

instance : TransOrd Candidate :=
  inferInstanceAs (TransCmp (compareLex (compareOn Candidate.names) (compareOn Candidate.tuple)))

instance : LawfulEqOrd Candidate where
  eq_of_compare {a b} h := by
    obtain ⟨hnames, htuple⟩ := Ordering.then_eq_eq.1 h
    obtain ⟨names, tuple⟩ := a
    obtain ⟨names', tuple'⟩ := b
    rw [Candidate.mk.injEq]
    exact ⟨LawfulEqOrd.eq_of_compare hnames, LawfulEqOrd.eq_of_compare htuple⟩

theorem compare_eq_lt_iff {a b : Candidate} : compare a b = .lt ↔
    compare a.names b.names = .lt ∨
      a.names = b.names ∧ compare (a.tuple.map TypeSet.word) (b.tuple.map TypeSet.word) = .lt := by
  show (compare a.names b.names).then (compare a.tuple b.tuple) = .lt ↔ _
  rw [Ordering.then_eq_lt, LawfulEqOrd.compare_eq_iff_eq, Tuple.compare_eq]

/-- The candidate with index `σ i` in the place of `i`. -/
def rename (σ : Nat → Nat) (e : Candidate) : Candidate := ⟨e.names, e.tuple.rename σ⟩

theorem compare_rename {t : ShapeTable} (h : t.TellsApart) (σ : Nat → Nat) {e e' : Candidate}
    (he : e.tuple.mapM t.names = some e.names) (he' : e'.tuple.mapM t.names = some e'.names) :
    compare (e.rename σ) (e'.rename σ) = compare e e' := by
  show (compare e.names e'.names).then (compare (e.tuple.rename σ) (e'.tuple.rename σ)) =
    (compare e.names e'.names).then (compare e.tuple e'.tuple)
  cases hnames : compare e.names e'.names with
  | lt => rfl
  | gt => rfl
  | eq =>
    rw [← LawfulEqOrd.eq_of_compare hnames] at he'
    rw [Tuple.compare_rename h σ (mapM_eq_some_iff.1 he) (mapM_eq_some_iff.1 he')]

end Candidate

/-! ### Names of tuples -/

section Names

variable {t t' : ShapeTable} {tuple : Tuple}

theorem KnowsTuple.names (h : KnowsTuple t tuple) (ht : t.Valid) :
    ∃ names, tuple.mapM t.names = some names :=
  Option.isSome_iff_exists.1 (mapM_isSome fun s hs => names_isSome ht (h s hs))

theorem tuple_names_mono (h : t.Extends t') {names : List (List String)}
    (hnames : tuple.mapM t.names = some names) : tuple.mapM t'.names = some names :=
  mapM_of_imp (fun _ _ _ hl => names_mono h hl) hnames

theorem KnowsTuple.names_eq (h : KnowsTuple t tuple) (ht : t.Valid) (hext : t.Extends t') :
    tuple.mapM t'.names = tuple.mapM t.names := by
  obtain ⟨names, hnames⟩ := h.names ht
  rw [hnames, tuple_names_mono hext hnames]

theorem KnowsTuple.names_rename (h : KnowsTuple t tuple) {σ : Nat → Nat} (hσ : Renames σ t t')
    (ht : t.Valid) : (tuple.rename σ).mapM t'.names = tuple.mapM t.names := by
  rw [Tuple.rename, mapM_map]
  exact mapM_congr fun s hs => hσ.names_rename ht (h s hs)

end Names

namespace Candidates

variable {e : Candidate} {σ : Nat → Nat}

/-! ### One tuple after another -/

/-- Puts in tuples one after another, each with the table of its moment. -/
def insertEach (c : Candidates) (steps : List (ShapeTable × Tuple)) : Option Candidates :=
  steps.foldlM (fun c x => (c.insert x.1 x.2).map (·.2)) c

/-- The table only grew from step to step, and it knew each tuple at its step. -/
structure Proposed (steps : List (ShapeTable × Tuple)) : Prop where
  grows : steps.Pairwise fun x y => x.1.Extends y.1
  valid : ∀ x ∈ steps, x.1.Valid
  known : ∀ x ∈ steps, KnowsTuple x.1 x.2

/-- The set holds, in order, the tuples of the steps with the names they had. -/
structure Collects (c : Candidates) (steps : List (ShapeTable × Tuple)) : Prop where
  increasing : Sorted.Increasing c.entries
  mem_iff : ∀ e, e ∈ c.entries ↔ ∃ x ∈ steps, x.2 = e.tuple ∧ x.2.mapM x.1.names = some e.names

variable {c c' : Candidates} {steps steps' : List (ShapeTable × Tuple)} {t t' : ShapeTable}
  {tuple : Tuple}

theorem collects_empty : empty.Collects [] where
  increasing := .nil
  mem_iff e := by simp [empty]

theorem mem_toList : tuple ∈ c.toList ↔ ∃ e ∈ c.entries, e.tuple = tuple := mem_map

theorem insert_eq {names : List (List String)} (h : tuple.mapM t.names = some names) :
    c.insert t tuple = some ((Sorted.insertNew ⟨names, tuple⟩ c.entries).length != c.size,
      ⟨Sorted.insertNew ⟨names, tuple⟩ c.entries⟩) := by
  rw [insert, h]
  rfl

/-- **One tuple** is put in its place, unless it stands there with its names. -/
theorem Collects.insert (hc : c.Collects steps) {names : List (List String)}
    (h : tuple.mapM t.names = some names) :
    ∃ new c', c.insert t tuple = some (new, c') ∧ c'.Collects (steps ++ [(t, tuple)]) ∧
      (new = true ↔ ⟨names, tuple⟩ ∉ c.entries) := by
  refine ⟨_, _, insert_eq h, ⟨hc.increasing.insertNew _, fun e => ?_⟩, ?_⟩
  · rw [Sorted.mem_insertNew_iff, hc.mem_iff]
    constructor
    · rintro (rfl | ⟨x, hx, he⟩)
      · exact ⟨(t, tuple), by simp, rfl, h⟩
      · exact ⟨x, mem_append_left _ hx, he⟩
    · rintro ⟨x, hx, htuple, hnames⟩
      rcases mem_append.1 hx with hx | hx
      · exact .inr ⟨x, hx, htuple, hnames⟩
      · obtain rfl := mem_singleton.1 hx
        rw [h] at hnames
        obtain ⟨names', tuple'⟩ := e
        simp only [Option.some.injEq] at htuple hnames
        exact .inl (by rw [htuple, hnames])
  · rw [bne_iff_ne, size]
    refine ⟨fun hne hmem => hne (by rw [Sorted.insertNew_of_mem hc.increasing hmem]),
      fun hmem => ?_⟩
    rw [Sorted.length_insertNew hmem]
    exact Nat.succ_ne_self _

/-- **All of them**: a run collects what it is given. -/
theorem collects_insertEach (hsteps : ∀ x ∈ steps, ∃ names, x.2.mapM x.1.names = some names) :
    ∀ {c : Candidates} {before : List (ShapeTable × Tuple)}, c.Collects before →
      ∃ c', c.insertEach steps = some c' ∧ c'.Collects (before ++ steps) := by
  induction steps with
  | nil => exact fun {c before} hc => ⟨c, rfl, by rwa [append_nil]⟩
  | cons x steps ih =>
    intro c before hc
    obtain ⟨names, hnames⟩ := hsteps x (.head _)
    obtain ⟨new, c1, hrun1, hc1, -⟩ := hc.insert hnames
    obtain ⟨c', hrun, hc'⟩ := ih (fun y hy => hsteps y (.tail _ hy)) hc1
    refine ⟨c', ?_, by rwa [append_assoc] at hc'⟩
    rw [insertEach, foldlM_cons, hrun1]
    exact hrun

/-! ### What a history determines -/

theorem Proposed.of_append (h : Proposed (steps ++ steps')) : Proposed steps where
  grows := (pairwise_append.1 h.grows).1
  valid x hx := h.valid x (mem_append_left _ hx)
  known x hx := h.known x (mem_append_left _ hx)

theorem Proposed.names (h : Proposed steps) {x : ShapeTable × Tuple} (hx : x ∈ steps) :
    ∃ names, x.2.mapM x.1.names = some names :=
  (h.known x hx).names (h.valid x hx)

theorem Proposed.collected (h : Proposed steps) :
    ∃ c, empty.insertEach steps = some c ∧ c.Collects steps :=
  collects_insertEach (fun _ hx => h.names hx) collects_empty

theorem Collects.mem_toList_iff (hc : c.Collects steps) (h : Proposed steps) :
    tuple ∈ c.toList ↔ tuple ∈ steps.map (·.2) := by
  rw [mem_toList, mem_map]
  constructor
  · rintro ⟨e, he, rfl⟩
    obtain ⟨x, hx, htuple, -⟩ := (hc.mem_iff e).1 he
    exact ⟨x, hx, htuple⟩
  · rintro ⟨x, hx, rfl⟩
    obtain ⟨names, hnames⟩ := h.names hx
    exact ⟨⟨names, x.2⟩, (hc.mem_iff _).2 ⟨x, hx, rfl, hnames⟩, rfl⟩

/-- A later table gives all tuples the names they were put in with. -/
theorem Collects.mem_entries_iff (hc : c.Collects steps) (h : Proposed steps)
    (ht : ∀ x ∈ steps, x.1.Extends t) :
    e ∈ c.entries ↔ e.tuple ∈ steps.map (·.2) ∧ e.tuple.mapM t.names = some e.names := by
  rw [hc.mem_iff, mem_map]
  constructor
  · rintro ⟨x, hx, htuple, hnames⟩
    rw [← htuple]
    exact ⟨⟨x, hx, rfl⟩, tuple_names_mono (ht x hx) hnames⟩
  · rintro ⟨⟨x, hx, htuple⟩, hnames⟩
    rw [← htuple, (h.known x hx).names_eq (h.valid x hx) (ht x hx)] at hnames
    exact ⟨x, hx, htuple, hnames⟩

/-- **The answer** tells whether the tuple is new. -/
theorem Collects.insert_new_iff (hc : c.Collects steps) (h : Proposed (steps ++ [(t, tuple)])) :
    ∃ new c', c.insert t tuple = some (new, c') ∧ c'.Collects (steps ++ [(t, tuple)]) ∧
      (new = true ↔ tuple ∉ c.toList) := by
  have hlast : (t, tuple) ∈ steps ++ [(t, tuple)] := by simp
  obtain ⟨names, hnames⟩ := h.names hlast
  obtain ⟨new, c', hrun, hc', hnew⟩ := hc.insert hnames
  have hsteps := h.of_append
  have ht : ∀ x ∈ steps, x.1.Extends t := fun x hx =>
    (pairwise_append.1 h.grows).2.2 x hx (t, tuple) (.head _)
  refine ⟨new, c', hrun, hc', hnew.trans (not_congr ?_)⟩
  rw [hc.mem_entries_iff hsteps ht, hc.mem_toList_iff hsteps]
  exact and_iff_left hnames

/-- The two tables came from one that knew the tuple. -/
def Shared (t t' : ShapeTable) (tuple : Tuple) : Prop :=
  ∃ u : ShapeTable, u.Valid ∧ KnowsTuple u tuple ∧ u.Extends t ∧ u.Extends t'

theorem Shared.names_eq (h : Shared t t' tuple) : tuple.mapM t.names = tuple.mapM t'.names := by
  obtain ⟨u, hu, hknows, ht, ht'⟩ := h
  rw [hknows.names_eq hu ht, hknows.names_eq hu ht']

theorem Collects.mem_of_shared (hc : c.Collects steps) (hc' : c'.Collects steps')
    (hmem : ∀ tuple ∈ steps.map (·.2), tuple ∈ steps'.map (·.2))
    (hshared : ∀ x ∈ steps, ∀ y ∈ steps', x.2 = y.2 → Shared x.1 y.1 x.2) (he : e ∈ c.entries) :
    e ∈ c'.entries := by
  obtain ⟨x, hx, htuple, hnames⟩ := (hc.mem_iff e).1 he
  obtain ⟨y, hy, hyx⟩ := mem_map.1 (hmem x.2 (mem_map_of_mem hx))
  refine (hc'.mem_iff e).2 ⟨y, hy, hyx.trans htuple, ?_⟩
  rw [hyx, ← (hshared x hx y hy hyx.symm).names_eq, hnames]

/-- **The same tuples** make the same set. -/
theorem Collects.eq_of_shared (hc : c.Collects steps) (hc' : c'.Collects steps')
    (hmem : ∀ tuple, tuple ∈ steps.map (·.2) ↔ tuple ∈ steps'.map (·.2))
    (hshared : ∀ x ∈ steps, ∀ y ∈ steps', x.2 = y.2 → Shared x.1 y.1 x.2) : c' = c := by
  have hentries : c'.entries = c.entries := hc'.increasing.ext hc.increasing fun e => by
    refine ⟨hc'.mem_of_shared hc (fun tuple => (hmem tuple).2) fun y hy x hx hyx => ?_,
      hc.mem_of_shared hc' (fun tuple => (hmem tuple).1) hshared⟩
    obtain ⟨u, hu, hknows, hux, huy⟩ := hshared x hx y hy hyx.symm
    exact ⟨u, hu, hyx ▸ hknows, huy, hux⟩
  exact congrArg Candidates.mk hentries

/-- **The same shapes in another order** make the corresponding set, in the same order. -/
theorem Collects.entries_rename (hc : c.Collects steps) (hc' : c'.Collects steps')
    (h : Proposed steps) (h' : Proposed steps') (ht : t.Valid)
    (hext : ∀ x ∈ steps, x.1.Extends t) (hext' : ∀ x ∈ steps', x.1.Extends t')
    (happart : t.TellsApart) (hσ : Renames σ t t')
    (hmem : ∀ tuple, tuple ∈ steps'.map (·.2) ↔ tuple ∈ (steps.map (·.2)).map (Tuple.rename σ)) :
    c'.entries = c.entries.map (Candidate.rename σ) := by
  have hnames : ∀ e ∈ c.entries, e.tuple.mapM t.names = some e.names := fun e he =>
    ((hc.mem_entries_iff h hext).1 he).2
  have hknows : ∀ tuple ∈ steps.map (·.2), KnowsTuple t tuple := by
    intro tuple htuple
    obtain ⟨x, hx, rfl⟩ := mem_map.1 htuple
    exact (h.known x hx).mono (hext x hx)
  have hincreasing : Sorted.Increasing (c.entries.map (Candidate.rename σ)) := by
    refine pairwise_map.2 (hc.increasing.imp_of_mem fun {e e'} he he' hlt => ?_)
    rw [Candidate.compare_rename happart σ (hnames e he) (hnames e' he'), hlt]
  refine hc'.increasing.ext hincreasing fun e => ?_
  rw [hc'.mem_entries_iff h' hext', hmem, mem_map, mem_map]
  constructor
  · rintro ⟨⟨tuple, htuple, heq⟩, he⟩
    rw [← heq, (hknows tuple htuple).names_rename hσ ht] at he
    refine ⟨⟨e.names, tuple⟩, (hc.mem_entries_iff h hext).2 ⟨htuple, he⟩, ?_⟩
    obtain ⟨names, tuple'⟩ := e
    exact congrArg (Candidate.mk names) heq
  · rintro ⟨e, he, rfl⟩
    obtain ⟨htuple, he⟩ := (hc.mem_entries_iff h hext).1 he
    refine ⟨⟨e.tuple, htuple, rfl⟩, ?_⟩
    exact ((hknows e.tuple htuple).names_rename hσ ht).trans he

theorem toList_map_rename (h : c'.entries = c.entries.map (Candidate.rename σ)) :
    c'.toList = c.toList.map (Tuple.rename σ) := by
  rw [toList, toList, h, map_map, map_map]
  rfl

theorem insertEach_append_singleton (h : c.insertEach steps = some c') :
    c.insertEach (steps ++ [(t, tuple)]) = (c'.insert t tuple).map (·.2) := by
  rw [insertEach, foldlM_append, ← insertEach, h]
  simp [foldlM_cons]

/-- **Proposals have one order.**  Whatever tuples are put in, one after another while the table
grows, the set is in strict order of names and words, with the names that any later table gives; it
holds just these tuples, and the next answer tells whether its tuple is among them.  Any other way
of putting in the same tuples gives the same set.  If the shapes of the table have different names,
then a table with the same shapes in another order lists the corresponding tuples in the same
order. -/
theorem insertEach_canonical {steps : List (ShapeTable × Tuple)} (h : Proposed steps) :
    ∃ c, empty.insertEach steps = some c ∧
      (c.entries.Pairwise fun a b => compare a.names b.names = .lt ∨
        a.names = b.names ∧ compare (a.tuple.map TypeSet.word) (b.tuple.map TypeSet.word) = .lt) ∧
      (∀ t : ShapeTable, (∀ x ∈ steps, x.1.Extends t) →
        ∀ e ∈ c.entries, e.tuple.mapM t.names = some e.names) ∧
      (∀ tuple, tuple ∈ c.toList ↔ tuple ∈ steps.map (·.2)) ∧
      (∀ t tuple, Proposed (steps ++ [(t, tuple)]) → ∃ new c', c.insert t tuple = some (new, c') ∧
        empty.insertEach (steps ++ [(t, tuple)]) = some c' ∧ (new = true ↔ tuple ∉ c.toList)) ∧
      (∀ steps', Proposed steps' →
        (∀ tuple, tuple ∈ steps.map (·.2) ↔ tuple ∈ steps'.map (·.2)) →
        (∀ x ∈ steps, ∀ y ∈ steps', x.2 = y.2 → Shared x.1 y.1 x.2) →
        empty.insertEach steps' = some c) ∧
      (∀ (σ : Nat → Nat) (t t' : ShapeTable) (steps' : List (ShapeTable × Tuple)),
        Proposed steps' → t.Valid → t'.Valid → t.TellsApart → Renames σ t t' →
        (∀ x ∈ steps, x.1.Extends t) → (∀ x ∈ steps', x.1.Extends t') →
        (∀ tuple, tuple ∈ steps'.map (·.2) ↔ tuple ∈ (steps.map (·.2)).map (Tuple.rename σ)) →
        ∃ c', empty.insertEach steps' = some c' ∧ c'.toList = c.toList.map (Tuple.rename σ)) := by
  obtain ⟨c, hrun, hc⟩ := h.collected
  refine ⟨c, hrun, hc.increasing.imp Candidate.compare_eq_lt_iff.1, ?_, fun tuple =>
    hc.mem_toList_iff h, ?_, ?_, ?_⟩
  · exact fun t ht e he => ((hc.mem_entries_iff h ht).1 he).2
  · intro t tuple hnext
    obtain ⟨new, c', hinsert, -, hnew⟩ := hc.insert_new_iff hnext
    refine ⟨new, c', hinsert, ?_, hnew⟩
    rw [insertEach_append_singleton hrun, hinsert]
    rfl
  · intro steps' h' hmem hshared
    obtain ⟨c', hrun', hc'⟩ := h'.collected
    rw [hrun', hc.eq_of_shared hc' hmem hshared]
  · intro σ t t' steps' h' ht ht' happart hσ hext hext' hmem
    obtain ⟨c', hrun', hc'⟩ := h'.collected
    exact ⟨c', hrun', toList_map_rename
      (hc.entries_rename hc' h h' ht hext hext' happart hσ hmem)⟩

/-! ### Two orders of meeting -/

/-- Classes `B` and `A` are met, then arrays of `A` or integers. -/
def classesFirst : ShapeTable :=
  (((standard.named "B").2.named "A").2.arrayOf (.single 11 ∪ .int)).2

/-- Class `B` is met last. -/
def arraysFirst : ShapeTable :=
  (((standard.named "A").2.arrayOf (.single 10 ∪ .int)).2.named "B").2

/-- From the indices of `classesFirst` to those of `arraysFirst`. -/
def reordering (i : Nat) : Nat :=
  if i = 10 then 12 else if i = 11 then 10 else if i = 12 then 11 else i

theorem knows_of_members {s : TypeSet} (h : ∀ i ∈ s.members, i < t.size) : t.Knows s :=
  .inr fun i hi => h i (mem_members.2 hi)

theorem valid_classesFirst : classesFirst.Valid :=
  (arrayOf_spec (named_spec (named_spec valid_standard "B").1 "A").1
    (knows_of_members (by decide +kernel))).1

theorem valid_arraysFirst : arraysFirst.Valid :=
  (named_spec (arrayOf_spec (named_spec valid_standard "A").1
    (knows_of_members (by decide +kernel))).1 "B").1

theorem nameAt_lt_size {depth i : Nat} {n : String} (h : t.nameAt depth i = some n) : i < t.size := by
  obtain ⟨sh, hsh, -⟩ := Option.bind_eq_some_iff.1 h
  exact lt_of_getElem? hsh

theorem tellsApart_classesFirst : classesFirst.TellsApart where
  apart i j n hi hj := by
    have hall : ∀ i < classesFirst.size, ∀ j < classesFirst.size, classesFirst.nameAt
        classesFirst.size i = classesFirst.nameAt classesFirst.size j → i = j := by decide +kernel
    exact hall i (nameAt_lt_size hi) j (nameAt_lt_size hj) (hi.trans hj.symm)
  notMixed i hi := by
    have hall : ∀ i < classesFirst.size, classesFirst.nameAt classesFirst.size i ≠ some "mixed" := by
      decide +kernel
    exact hall i (nameAt_lt_size hi) hi

theorem renames_reordering : Renames reordering classesFirst arraysFirst where
  bij := by
    have hsize : classesFirst.size = 13 ∧ arraysFirst.size = 13 := by decide +kernel
    have hall : (∀ i < 13, reordering i < 13 ∧ ∀ j < 13, reordering i = reordering j → i = j) ∧
        ∀ j < 13, ∃ i < 13, reordering i = j := by decide
    rw [hsize.1, hsize.2]
    exact ⟨fun i hi => (hall.1 i hi).1, fun i hi j hj => (hall.1 i hi).2 j hj, hall.2⟩
  shapes i sh hi := by
    have hall : ∀ i < classesFirst.size, arraysFirst.shapes[reordering i]? =
        classesFirst.shapes[i]?.map (Shape.rename reordering) := by decide +kernel
    rw [hall i (lt_of_getElem? hi), hi]
    rfl

/-- The tuples are all put in with one table. -/
def stepsAt (t : ShapeTable) (tuples : List Tuple) : List (ShapeTable × Tuple) := tuples.map (t, ·)

variable {tuples : List Tuple}

theorem extends_stepsAt : ∀ x ∈ stepsAt t tuples, x.1.Extends t := by
  intro x hx
  obtain ⟨_, -, rfl⟩ := mem_map.1 hx
  exact .refl t

theorem proposed_stepsAt (tuples : List Tuple) (ht : t.Valid)
    (h : ∀ tuple ∈ tuples, ∀ s ∈ tuple, ∀ i ∈ s.members, i < t.size) :
    Proposed (stepsAt t tuples) where
  grows := pairwise_map.2 (pairwise_of_forall fun _ _ => .refl t)
  valid x hx := by
    obtain ⟨_, -, rfl⟩ := mem_map.1 hx
    exact ht
  known x hx := by
    obtain ⟨tuple, htuple, rfl⟩ := mem_map.1 hx
    exact fun s hs => knows_of_members (h tuple htuple s hs)

theorem mem_map_stepsAt : tuple ∈ (stepsAt t tuples).map (·.2) ↔ tuple ∈ tuples := by
  simp [stepsAt]

/-- `A` comes before `B` and both before the array, whatever their indices. -/
theorem reordered_canonical : classesFirst.TellsApart ∧ Renames reordering classesFirst arraysFirst ∧
    ∃ c, empty.insertEach (stepsAt classesFirst [[.single 10], [.single 12], [.single 11]]) = some c ∧
      c.toList = [[.single 11], [.single 10], [.single 12]] ∧
      empty.insertEach (stepsAt classesFirst
        [[.single 11], [.single 12], [.single 11], [.single 10]]) = some c ∧
      (∃ c', c.insert classesFirst [.single 10] = some (false, c')) ∧
      ∃ c', empty.insertEach (stepsAt arraysFirst [[.single 11], [.single 10], [.single 12]]) =
        some c' ∧ c'.toList = [[.single 10], [.single 12], [.single 11]] := by
  have hproposed : Proposed (stepsAt classesFirst [[.single 10], [.single 12], [.single 11]]) :=
    proposed_stepsAt _ valid_classesFirst (by decide +kernel)
  obtain ⟨c, hrun, -, -, -, hnext, hsame, hother⟩ := insertEach_canonical hproposed
  have hlist : c.toList = [[.single 11], [.single 10], [.single 12]] := by
    have h : (empty.insertEach (stepsAt classesFirst [[.single 10], [.single 12], [.single 11]])).map
        (·.toList) = some [[.single 11], [.single 10], [.single 12]] := by decide +kernel
    rw [hrun] at h
    exact Option.some.inj h
  refine ⟨tellsApart_classesFirst, renames_reordering, c, hrun, hlist, ?_, ?_, ?_⟩
  · refine hsame _ (proposed_stepsAt _ valid_classesFirst (by decide +kernel)) (fun tuple => ?_) ?_
    · simp only [mem_map_stepsAt, mem_cons, not_mem_nil, or_false]
      tauto
    · intro x hx y hy _
      exact ⟨_, hproposed.valid x hx, hproposed.known x hx, .refl _,
        (mem_map.1 hx).elim fun _ h => h.2 ▸ (mem_map.1 hy).elim fun _ h => h.2 ▸ .refl _⟩
  · obtain ⟨new, c', hinsert, -, hnew⟩ := hnext classesFirst [.single 10]
      (proposed_stepsAt [[.single 10], [.single 12], [.single 11], [.single 10]]
        valid_classesFirst (by decide +kernel))
    have hfalse : new = false := by
      rw [← Bool.not_eq_true, hnew, hlist]
      decide +kernel
    exact ⟨c', hfalse ▸ hinsert⟩
  · obtain ⟨c', hrun', hlist'⟩ := hother reordering classesFirst arraysFirst _
      (proposed_stepsAt [[.single 11], [.single 10], [.single 12]] valid_arraysFirst
        (by decide +kernel)) valid_classesFirst valid_arraysFirst tellsApart_classesFirst
      renames_reordering extends_stepsAt extends_stepsAt (fun tuple => by
        rw [mem_map_stepsAt, show ((stepsAt classesFirst [[.single 10], [.single 12],
          [.single 11]]).map (·.2)).map (Tuple.rename reordering) =
          [[.single 12], [.single 11], [.single 10]] by decide +kernel]
        simp only [mem_cons, not_mem_nil, or_false]
        tauto)
    refine ⟨c', hrun', ?_⟩
    rw [hlist', hlist]
    decide +kernel

end Candidates
end ShapeFlow
