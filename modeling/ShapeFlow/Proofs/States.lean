/-
# How flow states grow

Flow states over the variables of one scope are ordered: a state is below
another if the other allows whatever it allows.  Its types are among those of
the other, its variables are initialized no less certainly, and its notes
include those of the other.  `join` is the least upper bound.  Along the order
a state gets heavier, and `State.growth` bounds how heavy, so no state grows
forever.

Key definitions: `State.Fits`, the order, `State.weight`.
Key theorems: `State.join_spec`, `State.agrees_iff`, `State.eq_of_weight_le`,
`State.weight_le_growth`, `Scope.use_eq`.
-/
import ShapeFlow.Infer.Drain
import ShapeFlow.Proofs.Known

namespace ShapeFlow

open List TypeSet
namespace Flow

/-! ### Notes in order -/

namespace Note

/-- The place of a note in the order of notes. -/
def key (n : Note) : Nat := 2 * n.var + n.limit.ctorIdx

theorem ctorIdx_lt (k : Limit) : k.ctorIdx < 2 := by
  cases k <;> decide

theorem compare_eq (a b : Note) : compare a b = compare a.key b.key := by
  obtain ⟨x, p⟩ := a
  obtain ⟨y, q⟩ := b
  have hp := ctorIdx_lt p
  have hq := ctorIdx_lt q
  show (compare x y).then ((compare p.ctorIdx q.ctorIdx).then .eq) =
    compare (2 * x + p.ctorIdx) (2 * y + q.ctorIdx)
  rw [Ordering.then_eq]
  rcases Nat.lt_trichotomy x y with h | rfl | h
  · have hk : 2 * x + p.ctorIdx < 2 * y + q.ctorIdx := by omega
    rw [Nat.compare_eq_lt.2 h, Nat.compare_eq_lt.2 hk]
    rfl
  · rw [Nat.compare_eq_eq.2 rfl, Ordering.eq_then]
    rcases Nat.lt_trichotomy p.ctorIdx q.ctorIdx with h | h | h
    · rw [Nat.compare_eq_lt.2 h, Nat.compare_eq_lt.2 (by omega)]
    · rw [Nat.compare_eq_eq.2 h, Nat.compare_eq_eq.2 (by omega)]
    · rw [Nat.compare_eq_gt.2 h, Nat.compare_eq_gt.2 (by omega)]
  · have hk : 2 * y + q.ctorIdx < 2 * x + p.ctorIdx := by omega
    rw [Nat.compare_eq_gt.2 h, Nat.compare_eq_gt.2 hk]
    rfl

theorem key_injective {a b : Note} (h : a.key = b.key) : a = b := by
  obtain ⟨x, p⟩ := a
  obtain ⟨y, q⟩ := b
  have hp := ctorIdx_lt p
  have hq := ctorIdx_lt q
  simp only [key] at h
  have hxy : x = y := by omega
  have hpq : p.ctorIdx = q.ctorIdx := by omega
  rw [hxy]
  cases p <;> cases q <;> first | rfl | exact absurd hpq (by decide)

/-- Notes in order, without repetitions. -/
abbrev Ordered (l : List Note) : Prop := l.Pairwise fun a b => a.key < b.key

variable {l : List Note}

theorem Ordered.insertNew (h : Ordered l) (n : Note) :
    Ordered (Sorted.insertNew n l) := by
  induction l with
  | nil => exact pairwise_singleton _ _
  | cons b l ih =>
    obtain ⟨hb, hl⟩ := pairwise_cons.1 h
    rw [Sorted.insertNew, compare_eq]
    split
    next hlt =>
      rw [Nat.compare_eq_lt] at hlt
      refine pairwise_cons.2 ⟨fun x hx => ?_, h⟩
      rcases mem_cons.1 hx with rfl | hx
      · exact hlt
      · exact Nat.lt_trans hlt (hb x hx)
    next => exact h
    next hgt =>
      rw [Nat.compare_eq_gt] at hgt
      refine pairwise_cons.2 ⟨fun x hx => ?_, ih hl⟩
      rcases Sorted.mem_insertNew hx with rfl | hx
      · exact hgt
      · exact hb x hx

theorem Ordered.nodup (h : Ordered l) : l.Nodup :=
  h.imp fun {a b} hab hne => by subst hne; exact absurd hab (Nat.lt_irrefl _)

theorem Ordered.eq_of_subset {l' : List Note} (h : Ordered l) (h' : Ordered l') (hs : l ⊆ l')
    (hle : l'.length ≤ l.length) : l = l' := by
  have hperm : l.Perm l' := (h.nodup.subperm hs).perm_of_length_le hle
  have hlt : ∀ a b : Note, a ∈ l → b ∈ l' → a.key < b.key → b.key < a.key → a = b :=
    fun a b _ _ hab hba => by omega
  exact hperm.eq_of_pairwise hlt h h'

theorem Ordered.length_le (h : Ordered l) {n : Nat} (hn : ∀ x ∈ l, x.var < n) :
    l.length ≤ 2 * n := by
  have hnodup : (l.map key).Nodup := by
    rw [nodup_map_iff_inj_on h.nodup]
    exact fun a _ b _ hab => key_injective hab
  have hsub : l.map key ⊆ range (2 * n) := by
    intro k hk
    obtain ⟨x, hx, rfl⟩ := mem_map.1 hk
    have := hn x hx
    have := ctorIdx_lt x.limit
    rw [mem_range, key]
    omega
  simpa using (hnodup.subperm hsub).length_le

end Note

namespace State

variable {i id n : Nat} {s a b c : State}

/-! ### Slots -/

theorem getD_put : ∀ (l : List TypeSet) (i j : Nat) (t : TypeSet),
    (put l i t).getD j .any = if i = j then t else l.getD j .any
  | [], 0, 0, _ | [], 0, _ + 1, _ | [], _ + 1, 0, _ | _ :: _, 0, 0, _ | _ :: _, 0, _ + 1, _
  | _ :: _, _ + 1, 0, _ => by simp [put]
  | [], i + 1, j + 1, t => by
    have := getD_put [] i j t
    simpa [put] using this
  | _ :: l, i + 1, j + 1, t => by
    have := getD_put l i j t
    simpa [put] using this

theorem length_put : ∀ (l : List TypeSet) (i : Nat) (t : TypeSet),
    (put l i t).length = max l.length (i + 1)
  | [], 0, _ => rfl
  | [], i + 1, t => by simp [put, length_put [] i t]
  | _ :: l, 0, _ => by simp [put]
  | _ :: l, i + 1, t => by simp [put, length_put l i t]

theorem mem_put {x t : TypeSet} : ∀ {l : List TypeSet} {i : Nat}, x ∈ put l i t →
    x ∈ l ∨ x = t ∨ x = .any
  | [], 0, h => by simp_all [put]
  | [], i + 1, h => by
    rcases mem_cons.1 h with rfl | h
    · exact .inr (.inr rfl)
    · exact mem_put h
  | a :: l, 0, h => by
    rcases mem_cons.1 h with rfl | h
    · exact .inr (.inl rfl)
    · exact .inl (.tail _ h)
  | a :: l, i + 1, h => by
    rcases mem_cons.1 h with rfl | h
    · exact .inl (.head _)
    · exact (mem_put h).imp_left (mem_cons_of_mem a)

theorem slot_assign (s : State) (i j : Nat) (t : TypeSet) :
    (s.assign i t).slot j = if i = j then t else s.slot j := getD_put s.slots i j t

theorem slot_unset (s : State) (i j : Nat) :
    (s.unset i).slot j = if i = j then .void else s.slot j := getD_put s.slots i j .void

theorem slot_of_le (h : s.slots.length ≤ i) : s.slot i = .any := by
  simp [slot, h]

theorem ext_slots (hscope : a.scope = b.scope) (hlen : a.slots.length = b.slots.length)
    (hslot : ∀ i, a.slot i = b.slot i) (hpos : a.possibly = b.possibly)
    (hcer : a.certainly = b.certainly) (hnotes : a.notes = b.notes) : a = b := by
  have hslots : a.slots = b.slots := by
    apply ext_getElem hlen
    intro i hi hi'
    have := hslot i
    simpa [slot, getD_eq_getElem?_getD, hi, hi'] using this
  obtain ⟨_, _, _, _, _⟩ := a
  obtain ⟨_, _, _, _, _⟩ := b
  simp_all

/-! ### States of one scope -/

/-- A state that fits scope `id` of `n` variables. -/
structure Fits (id n : Nat) (s : State) : Prop where
  scope : s.scope = id
  size : s.slots.length = n
  ordered : Note.Ordered s.notes
  inside : ∀ x ∈ s.notes, x.var < n
  /-- A variable in doubt may be null. -/
  doubt : ∀ i, s.inDoubt i = true → 0 ∈ s.slot i

theorem inDoubt_iff :
    s.inDoubt i = true ↔ s.possibly.contains i = true ∧ s.certainly.contains i = false := by
  simp [inDoubt]

theorem fits_start (s : Scope) : Fits s.id s.size (start s) where
  scope := rfl
  size := by simp [start]
  ordered := .nil
  inside := by simp [start]
  doubt i hi := by
    obtain ⟨hpos, hcer⟩ := inDoubt_iff.1 hi
    rw [show (start s).certainly = (start s).possibly from rfl, hpos] at hcer
    cases hcer

section Fits

variable {id n i j : Nat} {s : State}

theorem zero_mem_union_null (t : TypeSet) : 0 ∈ t ∪ .null :=
  mem_union.2 (.inr (mem_single.2 ⟨rfl, by decide⟩))

theorem inDoubt_assign {t : TypeSet} (h : (s.assign i t).inDoubt j = true) :
    i ≠ j ∧ s.inDoubt j = true := by
  obtain ⟨hpos, hcer⟩ := inDoubt_iff.1 h
  simp only [assign, VarSet.contains_insert, Bool.or_eq_true, Bool.or_eq_false_iff, beq_iff_eq,
    beq_eq_false_iff_ne] at hpos hcer
  exact ⟨hcer.2, inDoubt_iff.2 ⟨hpos.resolve_right hcer.2, hcer.1⟩⟩

theorem inDoubt_unset (h : (s.unset i).inDoubt j = true) : i ≠ j ∧ s.inDoubt j = true := by
  obtain ⟨hpos, hcer⟩ := inDoubt_iff.1 h
  simp only [unset, VarSet.contains_erase, Bool.and_eq_true] at hpos hcer
  rw [hpos.2, Bool.and_true] at hcer
  refine ⟨?_, inDoubt_iff.2 ⟨hpos.1, hcer⟩⟩
  rintro rfl
  -- an untracked variable would be certain
  have htracked : VarSet.tracked i = true := by
    by_contra hnot
    rw [VarSet.contains_of_not_tracked _ (by simpa using hnot)] at hcer
    cases hcer
  simp [htracked] at hpos

/-- A variable in doubt keeps null, whatever its types are narrowed to. -/
theorem zero_mem_narrow (h : ∀ j, s.inDoubt j = true → 0 ∈ s.slot j) (i : Nat) (t : TypeSet)
    (hj : (s.narrow i t).inDoubt j = true) : 0 ∈ (s.narrow i t).slot j := by
  unfold narrow at hj ⊢
  split at hj
  next htracked =>
    rw [if_pos htracked]
    show 0 ∈ (put s.slots i _).getD j .any
    rw [getD_put]
    split
    next hij =>
      subst hij
      rw [if_pos (show s.inDoubt i = true from hj)]
      exact zero_mem_union_null t
    next => exact h j hj
  next htracked =>
    rw [if_neg htracked]
    exact h j hj

theorem Fits.assign (h : Fits id n s) (hi : i < n) (t : TypeSet) :
    Fits id n (s.assign i t) where
  scope := h.scope
  size := by
    rw [State.assign, length_put, h.size]
    omega
  ordered := h.ordered.filter _
  inside x hx := h.inside x (mem_of_mem_filter hx)
  doubt j hj := by
    obtain ⟨hne, hdoubt⟩ := inDoubt_assign hj
    rw [slot_assign, if_neg hne]
    exact h.doubt j hdoubt

theorem Fits.unset (h : Fits id n s) (hi : i < n) : Fits id n (s.unset i) where
  scope := h.scope
  size := by
    rw [State.unset, length_put, h.size]
    omega
  ordered := h.ordered.filter _
  inside x hx := h.inside x (mem_of_mem_filter hx)
  doubt j hj := by
    obtain ⟨hne, hdoubt⟩ := inDoubt_unset hj
    rw [slot_unset, if_neg hne]
    exact h.doubt j hdoubt

theorem Fits.narrow (h : Fits id n s) (hi : i < n) (t : TypeSet) :
    Fits id n (s.narrow i t) := by
  have hdoubt := fun j => zero_mem_narrow (j := j) h.doubt i t
  unfold State.narrow at hdoubt ⊢
  split at hdoubt
  · rw [if_pos ‹_›]
    refine ⟨h.scope, ?_, h.ordered, h.inside, hdoubt⟩
    rw [length_put, h.size]
    omega
  · rw [if_neg ‹_›]
    exact h

theorem Fits.addNote (h : Fits id n s) {x : Note} (hx : x.var < n) : Fits id n (s.addNote x) where
  scope := h.scope
  size := h.size
  ordered := h.ordered.insertNew x
  inside y hy := by
    rcases Sorted.mem_insertNew hy with rfl | hy
    · exact hx
    · exact h.inside y hy
  doubt := h.doubt

end Fits

/-! ### The order -/

/-- Whatever `a` allows `b` allows too. -/
structure Le (a b : State) : Prop where
  slot : ∀ i, a.slot i ≤ b.slot i
  possibly : ∀ i, a.possibly.contains i = true → b.possibly.contains i = true
  certainly : ∀ i, b.certainly.contains i = true → a.certainly.contains i = true
  notes : b.notes ⊆ a.notes

instance : LE State := ⟨Le⟩

theorem le_refl (a : State) : a ≤ a where
  slot _ := TypeSet.le_refl _
  possibly _ h := h
  certainly _ h := h
  notes _ h := h

theorem le_trans (h : a ≤ b) (h' : b ≤ c) : a ≤ c where
  slot i := TypeSet.le_trans (h.slot i) (h'.slot i)
  possibly i hi := h'.possibly i (h.possibly i hi)
  certainly i hi := h.certainly i (h'.certainly i hi)
  notes _ hx := h.notes (h'.notes hx)

theorem le_antisymm (ha : Fits id n a) (hb : Fits id n b) (h : a ≤ b) (h' : b ≤ a) : a = b := by
  apply ext_slots
  · rw [ha.scope, hb.scope]
  · rw [ha.size, hb.size]
  · exact fun i => TypeSet.le_antisymm (h.slot i) (h'.slot i)
  · exact VarSet.ext_contains fun i _ => Bool.eq_iff_iff.2 ⟨h.possibly i, h'.possibly i⟩
  · exact VarSet.ext_contains fun i _ => Bool.eq_iff_iff.2 ⟨h'.certainly i, h.certainly i⟩
  · exact ha.ordered.eq_of_subset hb.ordered h'.notes
      (hb.ordered.nodup.subperm h.notes).length_le

/-! ### Joins -/

theorem join_slots (h : a.scope = b.scope) : ∃ c, a.join b = .ok c ∧
    c.scope = a.scope ∧ c.slots.length = max a.slots.length b.slots.length ∧
    c.possibly = a.possibly ∪ b.possibly ∧ c.certainly = a.certainly ∩ b.certainly ∧
    c.notes = a.notes.filter b.notes.contains ∧
    ∀ i, c.slot i = if c.inDoubt i then a.slot i ∪ b.slot i ∪ .null else a.slot i ∪ b.slot i := by
  refine ⟨_, if_pos h, rfl, by simp, rfl, rfl, rfl, fun i => ?_⟩
  by_cases hi : i < max a.slots.length b.slots.length
  · simp only [slot, inDoubt, getD_eq_getElem?_getD, getElem?_map,
      getElem?_range hi, Option.map_some, Option.getD_some]
  · -- the any-type absorbs whatever is joined to it
    have hany : (TypeSet.any ∪ TypeSet.any = .any) ∧ TypeSet.any ∪ TypeSet.any ∪ .null = .any := by
      decide
    rw [slot_of_le (s := a) (by omega), slot_of_le (s := b) (by omega), hany.2, hany.1, ite_self]
    exact slot_of_le (by simpa using hi)

theorem join_bounds (hc : a.join b = .ok c) : a ≤ c ∧ b ≤ c ∧
    (∀ i, c.inDoubt i = true → 0 ∈ c.slot i) ∧
    ∀ d : State, (∀ i, d.inDoubt i = true → 0 ∈ d.slot i) → a ≤ d → b ≤ d → c ≤ d := by
  have hscope : a.scope = b.scope := by
    by_contra hne
    rw [join, if_neg hne] at hc
    cases hc
  obtain ⟨c', hc', -, -, hpos, hcer, hnotes, hslot⟩ := join_slots hscope
  obtain rfl : c' = c := Except.ok.inj (hc'.symm.trans hc)
  have hmem : ∀ x, x ∈ c'.notes ↔ x ∈ a.notes ∧ x ∈ b.notes := by
    intro x
    rw [hnotes, mem_filter, contains_iff_mem]
  have hposs : ∀ i, c'.possibly.contains i = (a.possibly.contains i || b.possibly.contains i) := by
    intro i
    rw [hpos, VarSet.contains_union]
  have hcert : ∀ i, c'.certainly.contains i = (a.certainly.contains i && b.certainly.contains i) := by
    intro i
    rw [hcer, VarSet.contains_inter]
  have hunion : ∀ i, a.slot i ∪ b.slot i ≤ c'.slot i := by
    intro i
    rw [hslot i]
    split
    · exact le_union_left _ _
    · exact TypeSet.le_refl _
  refine ⟨⟨?_, ?_, ?_, ?_⟩, ⟨?_, ?_, ?_, ?_⟩, fun i hi => ?_, fun d hd had hbd => ?_⟩
  · exact fun i => TypeSet.le_trans (TypeSet.le_union_left _ _) (hunion i)
  · intro i hi
    rw [hposs, hi, Bool.true_or]
  · intro i hi
    rw [hcert, Bool.and_eq_true] at hi
    exact hi.1
  · exact fun x hx => ((hmem x).1 hx).1
  · exact fun i => TypeSet.le_trans (TypeSet.le_union_right _ _) (hunion i)
  · intro i hi
    rw [hposs, hi, Bool.or_true]
  · intro i hi
    rw [hcert, Bool.and_eq_true] at hi
    exact hi.2
  · exact fun x hx => ((hmem x).1 hx).2
  · rw [hslot i, if_pos hi]
    exact zero_mem_union_null _
  · have hposd : ∀ i, c'.possibly.contains i = true → d.possibly.contains i = true := by
      intro i hi
      rw [hposs, Bool.or_eq_true] at hi
      exact hi.elim (had.possibly i) (hbd.possibly i)
    have hcerd : ∀ i, d.certainly.contains i = true → c'.certainly.contains i = true := by
      intro i hi
      rw [hcert, had.certainly i hi, hbd.certainly i hi, Bool.and_self]
    refine ⟨fun i => ?_, hposd, hcerd, fun x hx => (hmem x).2 ⟨had.notes hx, hbd.notes hx⟩⟩
    rw [hslot i]
    split
    next hdoubt =>
      -- in doubt in the join, so in doubt in `d`, which therefore has null
      obtain ⟨hp, hc'⟩ := inDoubt_iff.1 hdoubt
      have hdd : d.inDoubt i = true := by
        refine inDoubt_iff.2 ⟨hposd i hp, ?_⟩
        by_contra hne
        rw [hcerd i (by simpa using hne)] at hc'
        cases hc'
      have hnull : null ≤ d.slot i := null_le_iff.2 (hd i hdd)
      exact union_le (union_le (had.slot i) (hbd.slot i)) hnull
    next => exact union_le (had.slot i) (hbd.slot i)

theorem join_eq (ha : Fits id n a) (hb : Fits id n b) :
    ∃ c, a.join b = .ok c ∧ c.scope = id ∧ c.slots.length = n ∧
      c.possibly = a.possibly ∪ b.possibly ∧ c.certainly = a.certainly ∩ b.certainly ∧
      c.notes = a.notes.filter b.notes.contains ∧
      ∀ i, c.slot i = if c.inDoubt i then a.slot i ∪ b.slot i ∪ .null else a.slot i ∪ b.slot i := by
  obtain ⟨c, hc, hscope, hlen, hrest⟩ := join_slots (ha.scope.trans hb.scope.symm)
  refine ⟨c, hc, hscope.trans ha.scope, ?_, hrest⟩
  rw [hlen, ha.size, hb.size, max_self]

theorem join_spec (ha : Fits id n a) (hb : Fits id n b) :
    ∃ c, a.join b = .ok c ∧ Fits id n c ∧ a ≤ c ∧ b ≤ c ∧
      ∀ d, Fits id n d → a ≤ d → b ≤ d → c ≤ d := by
  obtain ⟨c, hc, hscope, hsize, -, -, hnotes, -⟩ := join_eq ha hb
  obtain ⟨hac, hbc, hdoubt, hleast⟩ := join_bounds hc
  refine ⟨c, hc, ⟨hscope, hsize, ?_, fun x hx => ha.inside x (hac.notes hx), hdoubt⟩, hac, hbc,
    fun d hd => hleast d hd.doubt⟩
  rw [hnotes]
  exact ha.ordered.filter _

theorem agrees_eq_true : a.agrees b = true ↔ a.scope = b.scope ∧
    a.possibly = b.possibly ∧ a.certainly = b.certainly ∧ a.notes = b.notes ∧
    ∀ i, a.slot i = b.slot i := by
  simp only [agrees, Bool.and_eq_true, beq_iff_eq, all_eq_true, mem_range]
  constructor
  · rintro ⟨⟨⟨⟨hscope, hpos⟩, hcer⟩, hnotes⟩, hslots⟩
    refine ⟨hscope, hpos, hcer, hnotes, fun i => ?_⟩
    by_cases hi : i < max a.slots.length b.slots.length
    · exact hslots i hi
    · rw [slot_of_le (s := a) (by omega), slot_of_le (s := b) (by omega)]
  · rintro ⟨hscope, hpos, hcer, hnotes, hslots⟩
    exact ⟨⟨⟨⟨hscope, hpos⟩, hcer⟩, hnotes⟩, fun i _ => hslots i⟩

theorem agrees_iff (ha : Fits id n a) (hb : Fits id n b) : a.agrees b = true ↔ a = b := by
  rw [agrees_eq_true]
  constructor
  · rintro ⟨hscope, hpos, hcer, hnotes, hslots⟩
    exact ext_slots hscope (ha.size.trans hb.size.symm) hslots hpos hcer hnotes
  · rintro rfl
    exact ⟨rfl, rfl, rfl, rfl, fun _ => rfl⟩

theorem join_eq_left (ha : Fits id n a) (hb : Fits id n b) (h : b ≤ a) : a.join b = .ok a := by
  obtain ⟨c, hc, hfit, hac, -, hleast⟩ := join_spec ha hb
  rw [hc, le_antisymm hfit ha (hleast a ha (le_refl a) h) hac]

/-! ### The weight -/

/-- How far a state over `n` variables has grown. -/
def weight (n : Nat) (s : State) : Nat :=
  (∑ i ∈ Finset.range n, (s.slot i).weight) + s.possibly.weight + (64 - s.certainly.weight) +
    (2 * n - s.notes.length)

theorem weight_le_growth (n : Nat) (s : State) : s.weight n ≤ growth n := by
  have hslots : ∑ i ∈ Finset.range n, (s.slot i).weight ≤ ∑ _i ∈ Finset.range n, 64 :=
    Finset.sum_le_sum fun i _ => weight_le _
  rw [Finset.sum_const, Finset.card_range, smul_eq_mul] at hslots
  have hpos := VarSet.weight_le s.possibly
  unfold weight growth
  omega

section Weight

variable {id n : Nat} {a b : State}

theorem sum_weight_mono (n : Nat) (h : a ≤ b) :
    ∑ i ∈ Finset.range n, (a.slot i).weight ≤ ∑ i ∈ Finset.range n, (b.slot i).weight :=
  Finset.sum_le_sum fun i _ => TypeSet.weight_mono (h.slot i)

theorem weight_mono (hb : Fits id n b) (h : a ≤ b) : a.weight n ≤ b.weight n := by
  have hslots := sum_weight_mono n h
  have hpos := VarSet.weight_mono h.possibly
  have hcer := VarSet.weight_mono h.certainly
  have hnotes := (hb.ordered.nodup.subperm h.notes).length_le
  unfold weight
  omega

theorem eq_of_weight_le (ha : Fits id n a) (hb : Fits id n b) (h : a ≤ b)
    (hw : b.weight n ≤ a.weight n) : a = b := by
  have hslots := sum_weight_mono n h
  have hpos := VarSet.weight_mono h.possibly
  have hcer := VarSet.weight_mono h.certainly
  have hbound := VarSet.weight_le a.certainly
  have hnotes := (hb.ordered.nodup.subperm h.notes).length_le
  have hmost := ha.ordered.length_le ha.inside
  unfold weight at hw
  apply ext_slots (ha.scope.trans hb.scope.symm) (ha.size.trans hb.size.symm)
  · intro i
    rcases Nat.lt_or_ge i n with hi | hi
    · have heq := (Finset.sum_eq_sum_iff_of_le fun i _ => TypeSet.weight_mono (h.slot i)).1
        (show ∑ i ∈ Finset.range n, (a.slot i).weight = ∑ i ∈ Finset.range n, (b.slot i).weight by
          omega)
      exact TypeSet.eq_of_weight_le (h.slot i) (heq i (Finset.mem_range.2 hi)).ge
    · rw [slot_of_le (s := a) (ha.size.trans_le hi), slot_of_le (s := b) (hb.size.trans_le hi)]
  · exact VarSet.eq_of_weight_le h.possibly (by omega)
  · exact (VarSet.eq_of_weight_le h.certainly (by omega)).symm
  · exact (hb.ordered.eq_of_subset ha.ordered h.notes (by omega)).symm

end Weight

/-! ### Known states -/

/-- The table knows the types of every variable. -/
def Known (t : ShapeTable) (s : State) : Prop := ∀ x ∈ s.slots, t.Knows x

section Known

variable {t t' : ShapeTable} {s : State} {x : TypeSet}

theorem Known.mono (h : Known t s) (ht : t.Extends t') : Known t' s := fun x hx => (h x hx).mono ht

theorem known_start (scope : Scope) : Known t (start scope) := by
  intro x hx
  rw [eq_of_mem_replicate hx]
  exact ShapeTable.knows_void

theorem Known.slot (h : Known t s) (i : Nat) : t.Knows (s.slot i) := by
  rw [State.slot, getD_eq_getElem?_getD]
  rcases hi : s.slots[i]? with _ | x
  · exact ShapeTable.knows_any
  · exact h x (mem_of_getElem? hi)

theorem Known.get (h : Known t s) (i : Nat) : t.Knows (s.get i) :=
  (h.slot i).ite ShapeTable.knows_any

theorem Known.put (h : Known t s) (hx : t.Knows x) (i : Nat) :
    ∀ y ∈ put s.slots i x, t.Knows y := by
  intro y hy
  rcases mem_put hy with hy | rfl | rfl
  · exact h y hy
  · exact hx
  · exact ShapeTable.knows_any

theorem Known.current (h : Known t s) (ht : t.Valid) (i : Nat) : t.Knows (Infer.current s i) :=
  (h.get i).plain.ite ((h.get i).plain.union ht.knows_null)

theorem Known.assign (h : Known t s) (hx : t.Knows x) (i : Nat) :
    Known t (s.assign i x) := h.put hx i

theorem Known.unset (h : Known t s) (i : Nat) : Known t (s.unset i) :=
  h.put ShapeTable.knows_void i

theorem Known.narrow (h : Known t s) (ht : t.Valid) (hx : t.Knows x) (i : Nat) :
    Known t (s.narrow i x) := by
  unfold State.narrow
  split
  · exact h.put ((hx.union ht.knows_null).ite hx) i
  · exact h

theorem Known.join {c : State} (ha : Known t a) (hb : Known t b) (ht : t.Valid) (hfa : Fits id n a)
    (hfb : Fits id n b) (hc : a.join b = .ok c) : Known t c := by
  obtain ⟨c', hc', -, hsize, -, -, -, hslot⟩ := join_eq hfa hfb
  obtain rfl : c' = c := Except.ok.inj (hc'.symm.trans hc)
  intro x hx
  obtain ⟨i, hi, rfl⟩ := getElem_of_mem hx
  have hx' : c'.slots[i] = c'.slot i := by simp [State.slot, hi]
  have hunion := (ha.slot i).union (hb.slot i)
  rw [hx', hslot i]
  exact (hunion.union ht.knows_null).ite hunion

end Known
end State

/-! ### Scopes -/

namespace Scope

variable {s : Scope} {name : String} {i : Nat}

/-- The variables of a scope, by index. -/
def names (s : Scope) : List String := s.vars.map (·.name)

@[simp] theorem length_names (s : Scope) : s.names.length = s.size := length_map _

theorem names_set {v u : Variable} (hv : s.vars[i]? = some v) (hname : u.name = v.name) :
    { s with vars := s.vars.set i u }.names = s.names := by
  show (s.vars.set i u).map (·.name) = s.vars.map (·.name)
  rw [map_set, hname]
  apply ext_getElem?
  intro j
  rw [getElem?_set]
  split
  next h =>
    subst h
    obtain ⟨hlt, heq⟩ := List.getElem?_eq_some_iff.1 hv
    simp [hlt, heq]
  next => rfl

theorem find?_eq (h : name ∈ s.names) : s.find? name = some (s.names.idxOf name) := by
  rw [find?, names, idxOf, findIdx_map]
  apply findIdx?_eq_some_of_exists
  obtain ⟨v, hv, rfl⟩ := mem_map.1 h
  exact ⟨v, hv, by simp⟩

theorem use_eq (h : name ∈ s.names) :
    s.use name = (s.names.idxOf name, { s with used := s.used.insert (s.names.idxOf name) }) := by
  rw [use, declare, find?_eq h]

theorem get_eq (h : i < s.size) : s.get i = .ok s.vars[i] := by
  rw [get, getElem?_eq_getElem h]

end Scope
end Flow
end ShapeFlow
