/-
# What subsumption says of states of different lengths

`State.subsumedBy` compares the variables that the left state has a slot for.  A
variable without a slot reads as the any-type, and the right state may know more
of it; there the test answers yes although the right state does not cover the
left one.  So subsumption is coverage of the variables the left state was made
for, and coverage of all variables if the right state says nothing of others.
The same gap stands between two subsumptions in a row, and between two states
that agree and have different lengths.

Key definitions: `State.CoveredBy`, `State.SilentFrom`.
Key theorems: `State.coveredBy_iff`, `State.subsumedBy_trans_iff`,
`State.subsumedBy_congr_left_iff`, `State.subsumption_exact`.
-/
import ShapeFlow.Proofs.States

namespace ShapeFlow

open TypeSet
namespace Flow
namespace State

/-- Every variable has its types in `a` among those it has in `b`. -/
def CoveredBy (a b : State) : Prop := ∀ i, a.get i ⊆ b.get i

/-- From variable `n` on, `s` has nothing to say. -/
def SilentFrom (s : State) (n : Nat) : Prop := ∀ i, n ≤ i → (s.get i).isAny = true

/-! ### Variables without a slot -/

section Slots

variable {s : State} {i n : Nat}

theorem get_of_length_le (h : s.slots.length ≤ i) : s.get i = .any := by
  rw [get, slot_of_le h, ite_self]

theorem get_of_untracked (h : VarSet.width ≤ i) : s.get i = .any := by
  have : VarSet.tracked i = false := by simpa [VarSet.tracked] using h
  rw [get, this]
  rfl

theorem silentFrom_of_le (h : s.slots.length ≤ n ∨ VarSet.width ≤ n) : s.SilentFrom n := by
  intro i hi
  rcases h with h | h
  · rw [get_of_length_le (h.trans hi), isAny_any]
  · rw [get_of_untracked (h.trans hi), isAny_any]

end Slots

/-! ### Coverage -/

section Coverage

variable {a a' b b' c : State}

theorem subsumedBy_iff : a.subsumedBy b = true ↔ ∀ i < a.slots.length, a.get i ⊆ b.get i := by
  simp [subsumedBy]

theorem coveredBy_iff : a.CoveredBy b ↔ a.subsumedBy b = true ∧ b.SilentFrom a.slots.length := by
  rw [subsumedBy_iff]
  constructor
  · intro h
    refine ⟨fun i _ => h i, fun i hi => ?_⟩
    have hany := h i
    rwa [get_of_length_le hi, any_subset_iff] at hany
  · rintro ⟨hslots, hsilent⟩ i
    by_cases hi : i < a.slots.length
    · exact hslots i hi
    · rw [get_of_length_le (Nat.le_of_not_lt hi), any_subset_iff]
      exact hsilent i (Nat.le_of_not_lt hi)

theorem subsumedBy_refl (a : State) : a.subsumedBy a = true :=
  subsumedBy_iff.2 fun _ _ => subset_iff.2 fun _ hi => hi

/-- Two subsumptions in a row make one up to the slots that the middle state lacks. -/
theorem subsumedBy_trans_iff (hab : a.subsumedBy b = true) (hbc : b.subsumedBy c = true) :
    a.subsumedBy c = true ↔ ∀ i < a.slots.length, b.slots.length ≤ i → a.get i ⊆ c.get i := by
  rw [subsumedBy_iff] at hab hbc ⊢
  constructor
  · intro h i hi _
    exact h i hi
  · intro h i hi
    by_cases hmid : i < b.slots.length
    · exact subset_trans (hab i hi) (hbc i hmid)
    · exact h i hi (Nat.le_of_not_lt hmid)

theorem get_of_agrees (h : a.agrees b = true) (i : Nat) : a.get i = b.get i := by
  obtain ⟨-, -, -, -, hslots⟩ := agrees_eq_true.1 h
  rw [get, get, hslots i]

theorem coveredBy_congr (ha : a.agrees a' = true) (hb : b.agrees b' = true) :
    a.CoveredBy b ↔ a'.CoveredBy b' := by
  simp only [CoveredBy, get_of_agrees ha, get_of_agrees hb]

theorem subsumedBy_congr_right (hb : b.agrees b' = true) : a.subsumedBy b = a.subsumedBy b' := by
  simp only [subsumedBy, get_of_agrees hb]

/-- Of two states that agree, the longer one is compared at slots the other lacks. -/
theorem subsumedBy_congr_left_iff (ha : a.agrees a' = true) (hab : a.subsumedBy b = true) :
    a'.subsumedBy b = true ↔
      ∀ i < a'.slots.length, a.slots.length ≤ i → (b.get i).isAny = true := by
  rw [subsumedBy_iff] at hab ⊢
  constructor
  · intro h i hi hlen
    have hany := h i hi
    rwa [← get_of_agrees ha, get_of_length_le hlen, any_subset_iff] at hany
  · intro h i hi
    rw [← get_of_agrees ha]
    by_cases hlen : i < a.slots.length
    · exact hab i hlen
    · rw [get_of_length_le (Nat.le_of_not_lt hlen), any_subset_iff]
      exact h i hi (Nat.le_of_not_lt hlen)

end Coverage

/-- **Subsumption is coverage up to the slots the left state lacks.**  One state covers another
at every variable iff it subsumes it and is silent beyond the slots of the other, as it is if it
has no more slots than the other, or the other has one for each tracked variable.  Coverage is
reflexive and transitive and does not tell apart states that agree.  Subsumption is reflexive,
and does not tell apart right states that agree; two in a row make one, and left states that
agree are subsumed alike, exactly if nothing stands against it at the slots that the middle
state, or the first of the two, lacks. -/
theorem subsumption_exact (a b : State) :
    (a.CoveredBy b ↔ a.subsumedBy b = true ∧ b.SilentFrom a.slots.length) ∧
    (b.slots.length ≤ a.slots.length ∨ VarSet.width ≤ a.slots.length →
      (a.subsumedBy b = true ↔ a.CoveredBy b)) ∧
    (a.CoveredBy a ∧ a.subsumedBy a = true) ∧
    (∀ c, a.CoveredBy b → b.CoveredBy c → a.CoveredBy c) ∧
    (∀ c, a.subsumedBy b = true → b.subsumedBy c = true → (a.subsumedBy c = true ↔
      ∀ i < a.slots.length, b.slots.length ≤ i → a.get i ⊆ c.get i)) ∧
    (∀ a' b', a.agrees a' = true → b.agrees b' = true →
      (a.CoveredBy b ↔ a'.CoveredBy b') ∧ a.subsumedBy b = a.subsumedBy b' ∧
        (a.subsumedBy b = true → (a'.subsumedBy b' = true ↔
          ∀ i < a'.slots.length, a.slots.length ≤ i → (b.get i).isAny = true))) := by
  refine ⟨coveredBy_iff, fun hlen => ?_, ⟨fun i => TypeSet.subset_iff.2 fun _ hi => hi,
    subsumedBy_refl a⟩, fun c hab hbc i => TypeSet.subset_trans (hab i) (hbc i),
    fun c hab hbc => subsumedBy_trans_iff hab hbc, fun a' b' ha hb => ?_⟩
  · rw [coveredBy_iff, and_iff_left (silentFrom_of_le hlen)]
  · refine ⟨coveredBy_congr ha hb, subsumedBy_congr_right hb, fun hab => ?_⟩
    rw [← subsumedBy_congr_right hb]
    exact subsumedBy_congr_left_iff ha hab

/-- Made for one variable. -/
def early : State := start { id := 0, vars := [{ name := "x" }] }

/-- Made once a second variable was declared. -/
def late : State := start { id := 0, vars := [{ name := "x" }, { name := "y" }] }

/-- `late` subsumes `early` and does not cover it.  It does not subsume the state that agrees
with `early` and has a second slot, nor a state that `early` subsumes. -/
theorem late_subsumes_early : early.subsumedBy late = true ∧ ¬ early.CoveredBy late ∧
    (late.subsumedBy early = true ∧ late.CoveredBy early) ∧
    (early.agrees (early.narrow 1 .any) = true ∧ (early.narrow 1 .any).subsumedBy late = false) ∧
    (late.narrow 1 .int).subsumedBy early = true ∧ (late.narrow 1 .int).subsumedBy late = false := by
  have hearly : early.subsumedBy late = true := by decide
  have hlate : late.subsumedBy early = true := by decide
  have hwide : early.agrees (early.narrow 1 .any) = true := by decide
  have hint : (late.narrow 1 .int).subsumedBy early = true := by decide
  obtain ⟨hexact, -, -, -, -, hcongr⟩ := subsumption_exact early late
  obtain ⟨-, hlen, -⟩ := subsumption_exact late early
  obtain ⟨-, -, -, -, htrans, -⟩ := subsumption_exact (late.narrow 1 .int) early
  refine ⟨hearly, fun hcov => ?_, ⟨hlate, (hlen (Or.inl (by decide))).1 hlate⟩, ⟨hwide, ?_⟩, hint, ?_⟩
  · exact absurd ((hexact.1 hcov).2 1 (by decide)) (by decide)
  · obtain ⟨-, -, hleft⟩ := hcongr (early.narrow 1 .any) late hwide (by decide)
    refine Bool.eq_false_iff.2 fun hsub => ?_
    exact absurd ((hleft hearly).1 hsub 1 (by decide) (by decide)) (by decide)
  · refine Bool.eq_false_iff.2 fun hsub => ?_
    exact absurd ((htrans late hint hearly).1 hsub 1 (by decide) (by decide)) (by decide)

end State
end Flow
end ShapeFlow
