/-
# How many clones there can be

A tuple is accepted only if fewer of its types may be anything than before, and a routine is
cloned for a tuple only once.  So the clones that a routine can still lead to are bounded by
its `prospect`, which pays for each clone and for the prospect of that clone.  Since an
iteration that leaves anything to do has made a clone, a run with more iterations than clones
to make converges.

Clones are counted by origin and tuple: there are as many of them as routines that were
cloned for the tuple, over the routine and its clones.  Where clones are not cloned again,
that is one at most.

Key definitions: `cloneYield`, `Routine.prospect`, `Program.cloneBound`, `Program.clonesFor`.
Key theorems: `wide_lt_of_accepts`, `Program.run_clones_bounded`, `Program.clones_for_tuple`.
-/
import ShapeFlow.Proofs.Strides

namespace ShapeFlow

open ShapeFlow.Flow List

variable {r r' : Routine}

/-! ### Accepted tuples -/

/-- How many of the types may be anything. -/
def wide (types : Tuple) : Nat := types.countP (·.isAny)

theorem isAny_of_subset {s t : TypeSet} (h : s ⊆ t) (hs : s.isAny = true) : t.isAny = true :=
  TypeSet.isAny_iff.2 fun i hi => TypeSet.subset_iff.1 h i (TypeSet.isAny_iff.1 hs i hi)

theorem wide_le : ∀ {base tuple : Tuple}, base.length = tuple.length →
    (∀ x ∈ tuple.zip base, x.1 ⊆ x.2) → wide tuple ≤ wide base
  | [], [], _, _ => Nat.le_refl _
  | b :: base, t :: tuple, hlen, hsub => by
    have ih := wide_le (Nat.succ.inj hlen) fun x hx => hsub x (.tail _ hx)
    have hhead := isAny_of_subset (hsub (t, b) (.head _))
    unfold wide at ih ⊢
    rw [countP_cons, countP_cons]
    rcases ht : t.isAny
    · simp only [Bool.false_eq_true, if_false]
      omega
    · rw [hhead ht]
      omega

theorem wide_lt : ∀ {base tuple : Tuple}, base.length = tuple.length →
    (∀ x ∈ tuple.zip base, x.1 ⊆ x.2) →
    (∃ x ∈ tuple.zip base, x.2.isAny = true ∧ x.1.isAny = false) → wide tuple < wide base
  | [], [], _, _, hex => by simp at hex
  | b :: base, t :: tuple, hlen, hsub, hex => by
    have htail : ∀ x ∈ tuple.zip base, x.1 ⊆ x.2 := fun x hx => hsub x (.tail _ hx)
    have hle := wide_le (Nat.succ.inj hlen) htail
    have hhead := isAny_of_subset (hsub (t, b) (.head _))
    obtain ⟨x, hx, hb, ht⟩ := hex
    unfold wide at hle ⊢
    rw [countP_cons, countP_cons]
    rcases mem_cons.1 hx with rfl | hx
    · simp only at hb ht
      rw [hb, ht]
      simp only [Bool.false_eq_true, if_false, if_true]
      omega
    · have ih := wide_lt (Nat.succ.inj hlen) htail ⟨x, hx, hb, ht⟩
      unfold wide at ih
      rcases hany : t.isAny
      · simp only [Bool.false_eq_true, if_false]
        omega
      · rw [hhead hany]
        omega

/-- **An accepted tuple is narrower**: fewer of its types may be anything. -/
theorem wide_lt_of_accepts {base tuple : Tuple} (h : accepts base tuple = true) :
    wide tuple < wide base := by
  unfold accepts at h
  simp only [Bool.and_eq_true, beq_iff_eq, all_eq_true, any_eq_true, decide_eq_true_eq,
    Bool.not_eq_true'] at h
  obtain ⟨⟨hlen, hsub⟩, x, hx, ⟨hb, ht⟩, -⟩ := h
  exact wide_lt hlen hsub ⟨x, hx, hb, ht⟩

/-! ### What a routine can lead to -/

section Yield

variable {m : Nat} {inc : Bool}

/-- How many clones a routine with `a` parameters that may be anything can lead to, if each
routine is cloned `m` times at most: if clones are cloned again, `m` clones, `m ^ 2` clones of
them, and so on to `m ^ a`. -/
def cloneYield (m : Nat) (incremental : Bool) (a : Nat) : Nat :=
  if incremental then ∑ k ∈ Finset.range a, m ^ (k + 1) else if a = 0 then 0 else m

/-- A clone with `a` parameters that may be anything, and what it can lead to. -/
def cloneCost (m : Nat) (incremental : Bool) (a : Nat) : Nat :=
  1 + if incremental then cloneYield m incremental a else 0

theorem cloneYield_succ (a : Nat) : cloneYield m inc (a + 1) = m * cloneCost m inc a := by
  unfold cloneCost cloneYield
  rcases inc
  · simp
  · simp only [if_true]
    calc ∑ k ∈ Finset.range (a + 1), m ^ (k + 1)
        = ∑ k ∈ Finset.range a, m ^ (k + 1 + 1) + m ^ (0 + 1) := Finset.sum_range_succ' _ a
      _ = m * ∑ k ∈ Finset.range a, m ^ (k + 1) + m := by
        rw [Finset.mul_sum, zero_add, pow_one]
        refine congrArg (· + m) (Finset.sum_congr rfl fun k _ => ?_)
        rw [pow_succ, Nat.mul_comm]
      _ = m * (1 + ∑ k ∈ Finset.range a, m ^ (k + 1)) := by ring

theorem cloneYield_mono {a b : Nat} (h : a ≤ b) : cloneYield m inc a ≤ cloneYield m inc b := by
  unfold cloneYield
  rcases inc
  · simp only [Bool.false_eq_true, if_false]
    split_ifs <;> omega
  · simp only [if_true]
    exact Finset.sum_le_sum_of_subset (Finset.range_subset_range.2 h)

/-- How many more clones the routine can lead to. -/
def Routine.prospect (m : Nat) (incremental : Bool) (r : Routine) : Nat :=
  if r.origin.isSome && !incremental then 0
  else match wide r.paramTypes with
    | 0 => 0
    | a + 1 => (m - r.applied.length) * cloneCost m incremental a

theorem Routine.prospect_le (r : Routine) (m : Nat) (inc : Bool) :
    r.prospect m inc ≤ cloneYield m inc (wide r.paramTypes) := by
  unfold prospect
  split
  · exact Nat.zero_le _
  · rcases wide r.paramTypes with _ | a
    · exact Nat.zero_le _
    · rw [cloneYield_succ]
      exact Nat.mul_le_mul_right _ (Nat.sub_le _ _)

theorem Routine.clone_paramTypes (r : Routine) (id : Nat) (tuple : Tuple) :
    (r.clone id tuple).paramTypes = tuple := rfl

/-- **A clone is paid for** by the prospect of the routine, with its own. -/
theorem Routine.prospect_clone {c : Config} {tuple : Tuple} (hcloneable : r.Cloneable c)
    (haccepts : accepts r.paramTypes tuple = true) (id : Nat) :
    ({ r with applied := r.applied ++ [tuple] } : Routine).prospect c.maxClones c.incremental +
      (r.clone id tuple).prospect c.maxClones c.incremental + 1 ≤
        r.prospect c.maxClones c.incremental := by
  obtain ⟨horigin, hlength⟩ := hcloneable
  have hopen : (r.origin.isSome && !c.incremental) = false := by
    rcases horigin with horigin | hinc
    · rw [horigin]
      rfl
    · rw [hinc, Bool.not_true, Bool.and_false]
  have hlt := wide_lt_of_accepts haccepts
  obtain ⟨a, ha⟩ : ∃ a, wide r.paramTypes = a + 1 := ⟨wide r.paramTypes - 1, by omega⟩
  have hclone : (r.clone id tuple).prospect c.maxClones c.incremental + 1 ≤
      cloneCost c.maxClones c.incremental a := by
    unfold cloneCost
    rcases hinc : c.incremental
    · unfold prospect
      simp [clone]
    · have hle := (r.clone id tuple).prospect_le c.maxClones true
      have hmono : cloneYield c.maxClones true (wide tuple) ≤ cloneYield c.maxClones true a :=
        cloneYield_mono (by omega)
      rw [clone_paramTypes] at hle
      rw [if_pos rfl]
      omega
  have hbefore : r.prospect c.maxClones c.incremental =
      (c.maxClones - r.applied.length) * cloneCost c.maxClones c.incremental a := by
    unfold prospect
    rw [hopen, if_neg Bool.false_ne_true, ha]
  have hafter : ({ r with applied := r.applied ++ [tuple] } : Routine).prospect c.maxClones
      c.incremental = (c.maxClones - (r.applied.length + 1)) *
        cloneCost c.maxClones c.incremental a := by
    unfold prospect
    rw [hopen, if_neg Bool.false_ne_true]
    rw [show wide ({ r with applied := r.applied ++ [tuple] } : Routine).paramTypes = a + 1 from ha]
    rw [length_append, length_singleton]
  have hsplit : c.maxClones - r.applied.length = c.maxClones - (r.applied.length + 1) + 1 := by omega
  rw [hbefore, hafter, hsplit, Nat.add_mul, Nat.one_mul]
  omega

end Yield

/-! ### Broods -/

/-- The same routine, cloned as before. -/
structure Routine.SameBrood (r r' : Routine) : Prop where
  id : r'.id = r.id
  params : r'.params = r.params
  origin : r'.origin = r.origin
  fixed : r'.fixed = r.fixed
  applied : r'.applied = r.applied

theorem Routine.SameBrood.refl (r : Routine) : r.SameBrood r := ⟨rfl, rfl, rfl, rfl, rfl⟩

theorem Routine.Gains.sameBrood (h : r.Gains r') : r.SameBrood r' := by
  obtain ⟨id, params, origin, fixed⟩ :
      r'.id = r.id ∧ r'.params = r.params ∧ r'.origin = r.origin ∧ r'.fixed = r.fixed := by
    rw [h.text]
    exact ⟨rfl, rfl, rfl, rfl⟩
  exact ⟨id, params, origin, fixed, h.applied⟩

theorem Routine.SameBrood.prospect_eq (h : r.SameBrood r') (m : Nat) (inc : Bool) :
    r'.prospect m inc = r.prospect m inc := by
  unfold prospect paramTypes
  rw [h.origin, h.fixed, h.params, h.applied]

namespace Program

variable {p p' : Program} {plan : Plan} {P : Plan → Prop} {r : Routine} {tuple : Tuple} {o : Nat}

/-- One more clone, of a routine that may be cloned, for a tuple that it was not cloned for. -/
structure Breeds (plan : Plan) (p p' : Program) (i : Nat) (r : Routine) (tuple : Tuple) : Prop where
  routine : p.routines[i]? = some r
  cloneable : r.Cloneable plan.config
  accepts : accepts r.paramTypes tuple = true
  new : tuple ∉ r.applied
  routines : p'.routines =
    p.routines.set i { r with applied := r.applied ++ [tuple] } ++ [r.clone p.size tuple]

theorem sameBrood_put {i : Nat} (hr : p.routines[i]? = some r) (h : r.SameBrood r') :
    List.Forall₂ Routine.SameBrood p.routines (p.put i r').routines :=
  (each_put .refl hr h).forall₂

theorem Stride.breeds (h : Stride plan p p') :
    List.Forall₂ Routine.SameBrood p.routines p'.routines ∨
      ∃ i r tuple, Breeds plan p p' i r tuple := by
  cases h with
  | gain h => exact .inl (h.routines.imp fun _ _ h => h.sameBrood)
  | consult => exact .inl (forall₂_same.2 fun r _ => .refl r)
  | @propose i r set hr => exact .inl (sameBrood_put hr ⟨rfl, rfl, rfl, rfl, rfl⟩)
  | @clone i r tuple hr hcloneable haccepts hnew =>
    exact .inr ⟨i, r, tuple, hr, hcloneable, haccepts, hnew, rfl⟩

theorem Deed.breeds (h : Deed P p p') :
    List.Forall₂ Routine.SameBrood p.routines p'.routines ∨
      (∃ plan, P plan ∧ ∃ i r tuple, Breeds plan p p' i r tuple) ∨
      ∃ r, p'.routines = p.routines ++ [r] ∧ r.origin = none ∧ r.fixed = none ∧ r.applied = [] := by
  cases h with
  | @stride _ plan hP h => exact h.breeds.imp id fun hclone => .inl ⟨plan, hP, hclone⟩
  | gain h => exact .inl (h.routines.imp fun _ _ h => h.sameBrood)
  | @declare d r table h =>
    obtain ⟨params, graph, rfl, -⟩ := Routine.ofDecl_eq h
    exact .inr (.inr ⟨_, rfl, rfl, rfl, rfl⟩)
  | forget hr => exact .inl (sameBrood_put hr ⟨rfl, rfl, rfl, rfl, rfl⟩)

/-! ### The bound -/

/-- Sums a number over the routines. -/
def tally (p : Program) (f : Routine → Nat) : Nat := (p.routines.map f).sum

/-- How many more clones there can be. -/
def prospects (m : Nat) (incremental : Bool) (p : Program) : Nat :=
  p.tally (·.prospect m incremental)

/-- How many clones the routines that are no clones can lead to, if each routine is cloned `m`
times at most. -/
def cloneBound (m : Nat) (incremental : Bool) (p : Program) : Nat :=
  p.tally fun r =>
    if r.origin.isNone then cloneYield m incremental (r.params.countP (·.declared.isAny)) else 0

section Bound

variable {m i : Nat} {inc : Bool} {r : Routine} {tuple : Tuple}

theorem tally_sameBrood {f : Routine → Nat} (hf : ∀ r r', Routine.SameBrood r r' → f r' = f r)
    (h : List.Forall₂ Routine.SameBrood p.routines p'.routines) : p'.tally f = p.tally f := by
  have hsum : ∀ {l k : List Routine}, List.Forall₂ Routine.SameBrood l k →
      (k.map f).sum = (l.map f).sum := by
    intro l k h
    induction h with
    | nil => rfl
    | cons hr _ ih => rw [map_cons, map_cons, sum_cons, sum_cons, ih, hf _ _ hr]
  exact hsum h

theorem tally_breeds (h : Breeds plan p p' i r tuple) (f : Routine → Nat) :
    p'.tally f + f r =
      p.tally f + f { r with applied := r.applied ++ [tuple] } + f (r.clone p.size tuple) := by
  have hset := Routine.sum_map_set (f := f) (b := { r with applied := r.applied ++ [tuple] }) h.routine
  unfold tally
  rw [h.routines, map_append, sum_append, map_singleton, sum_singleton]
  omega

theorem tally_append (h : p'.routines = p.routines ++ [r]) (f : Routine → Nat) :
    p'.tally f = p.tally f + f r := by
  unfold tally
  rw [h, map_append, sum_append, map_singleton, sum_singleton]

theorem cloneCount_breeds (h : Breeds plan p p' i r tuple) :
    p'.cloneCount = p.cloneCount + 1 := by
  have hset := countP_put (·.origin.isSome) { r with applied := r.applied ++ [tuple] } h.routine
  unfold cloneCount
  rw [h.routines, countP_concat]
  exact congrArg (· + 1) (Nat.add_right_cancel hset)

/-- The run limits clones in this way. -/
def Limited (m : Nat) (incremental : Bool) (plan : Plan) : Prop :=
  plan.config.maxClones = m ∧ plan.config.incremental = incremental

theorem Stride.cloneBound_eq (h : Stride plan p p') : p'.cloneBound m inc = p.cloneBound m inc := by
  rcases h.breeds with hsame | ⟨i, r, tuple, hbreeds⟩
  · exact tally_sameBrood (fun r r' h => by rw [h.origin, h.params]) hsame
  · exact Nat.add_right_cancel (tally_breeds hbreeds _)

theorem Strides.cloneBound_eq (h : Strides plan p p') : p'.cloneBound m inc = p.cloneBound m inc := by
  induction h with
  | refl => rfl
  | tail _ hstride ih => rw [hstride.cloneBound_eq, ih]

theorem Deed.prospects_le (h : Deed (Limited m inc) p p') :
    p'.cloneCount + p'.prospects m inc + p.cloneBound m inc ≤
      p.cloneCount + p.prospects m inc + p'.cloneBound m inc := by
  rcases h.breeds with hsame | ⟨plan, ⟨rfl, rfl⟩, i, r, tuple, hbreeds⟩ | ⟨r, hr, horigin, hfixed, happlied⟩
  · have hcount : p'.cloneCount = p.cloneCount := countP_forall₂ (fun _ _ h => by rw [h.origin]) hsame
    have hprospects : p'.prospects m inc = p.prospects m inc :=
      tally_sameBrood (fun _ _ h => h.prospect_eq m inc) hsame
    have hbound : p'.cloneBound m inc = p.cloneBound m inc :=
      tally_sameBrood (fun r r' h => by rw [h.origin, h.params]) hsame
    rw [hcount, hprospects, hbound]
  · have hcount := cloneCount_breeds hbreeds
    have hprospects := tally_breeds hbreeds
      (·.prospect plan.config.maxClones plan.config.incremental)
    have hbound : p'.cloneBound plan.config.maxClones plan.config.incremental =
      p.cloneBound plan.config.maxClones plan.config.incremental :=
        Nat.add_right_cancel (tally_breeds hbreeds _)
    have hpaid := Routine.prospect_clone hbreeds.cloneable hbreeds.accepts p.size
    unfold prospects
    omega
  · have hcount : p'.cloneCount = p.cloneCount := by
      unfold cloneCount
      rw [hr, countP_concat, horigin]
      rfl
    have hwide : wide r.paramTypes = r.params.countP (·.declared.isAny) := by
      unfold wide Routine.paramTypes
      rw [hfixed, Option.getD_none, countP_map]
      rfl
    have hprospect := hwide ▸ r.prospect_le m inc
    unfold prospects cloneBound
    rw [tally_append hr, tally_append hr, horigin, hcount]
    simp only [Option.isNone_none, if_true]
    omega

theorem Deeds.prospects_le (h : Deeds (Limited m inc) p p') :
    p'.cloneCount + p'.prospects m inc + p.cloneBound m inc ≤
      p.cloneCount + p.prospects m inc + p'.cloneBound m inc := by
  induction h with
  | refl => exact Nat.le_refl _
  | tail _ hdeed ih =>
    have hstep := hdeed.prospects_le
    omega

/-- **Clones are bounded.**  For programs whose runs all limit clones in the same way: there
are never more clones than the bound.  In a run, every iteration that does not end it makes a
clone; so a run that is not cancelled, with more iterations than the bound, converges, unless it
fails. -/
theorem run_clones_bounded (hlife : Lives (Limited m inc) .empty p) (hplan : Limited m inc plan) :
    p.cloneCount ≤ p.cloneBound m inc ∧
    (∀ q q' asked, Strides plan p q → iteration plan q = .ok (asked, false) q' →
      q.cloneCount < q'.cloneCount) ∧
    (∀ f p', p.analyze plan = .error f p' → p'.cloneCount ≤ p.cloneBound m inc) ∧
    ∀ o p', p.analyze plan = .ok o p' → p'.cloneCount ≤ p.cloneBound m inc ∧
      ((∀ n, plan.cancelled n = false) → p.cloneBound m inc < plan.config.maxIterations →
        o.isConverged = true) := by
  have hdeeds := hlife.deeds numbered_empty
  have hp : p.Numbered := hlife.numbered
  have hbound : ∀ q, Strides plan p q → q.cloneCount ≤ p.cloneBound m inc := by
    intro q hq
    have hle := Deeds.prospects_le (hdeeds.trans (hq.deeds hplan))
    rw [hq.cloneBound_eq] at hle
    have hempty : Program.empty.cloneCount + Program.empty.prospects m inc = 0 := rfl
    omega
  refine ⟨hbound p .refl, fun q q' asked hq hrun => ?_, fun f p' hrun => ?_, fun o p' hrun => ?_⟩
  · exact ((iteration_paces (hq.numbered hp)).ok hrun).2.1 rfl
  · exact hbound p' ((analyze_strides hp).error hrun)
  · obtain ⟨hstrides, hclones⟩ := (analyze_strides hp).ok hrun
    refine ⟨hbound p' hstrides, fun hgo hmore => (hclones hgo).resolve_right fun hle => ?_⟩
    have hmost := hbound p' hstrides
    omega

theorem recursive_clones_bounded : ∃ n p', (ofDecls recursive).analyze {} = .ok (.converged n) p' ∧
    (ofDecls recursive).cloneBound 1 false = 1 ∧ p'.cloneCount = 1 ∧
    p'.cloneCount ≤ (ofDecls recursive).cloneBound 1 false := by
  obtain ⟨n, p', hrun, hgood⟩ := exists_converged (ofDecls recursive) {}
    (fun p' => decide (p'.cloneCount = 1)) (by decide +kernel)
  have hlimited : Limited 1 false {} := ⟨rfl, rfl⟩
  obtain ⟨-, -, -, hends⟩ := run_clones_bounded (operations_ofDecls trivial recursive) hlimited
  exact ⟨n, p', hrun, by decide +kernel, of_decide_eq_true hgood, (hends _ p' hrun).1⟩

end Bound

/-! ### Clones for the same tuple -/

/-- The routine is a clone of `o`, or of a clone of it, for `tuple`. -/
def isCloneFor (o : Nat) (tuple : Tuple) (r : Routine) : Bool :=
  r.origin == some o && r.fixed == some tuple

/-- The routine is `o`, or a clone of it, and has been cloned for `tuple`. -/
def wasClonedFor (o : Nat) (tuple : Tuple) (r : Routine) : Bool :=
  r.origin.getD r.id == o && r.applied.contains tuple

theorem wasClonedFor_applied (o : Nat) (tuple : Tuple) {t : Tuple} (hnew : t ∉ r.applied) (id : Nat) :
    (wasClonedFor o tuple { r with applied := r.applied ++ [t] }).toNat =
      (wasClonedFor o tuple r).toNat + (isCloneFor o tuple (r.clone id t)).toNat := by
  rw [show isCloneFor o tuple (r.clone id t) = (r.origin.getD r.id == o && t == tuple) from rfl]
  unfold wasClonedFor
  simp only
  by_cases ho : (r.origin.getD r.id == o) = true
  · by_cases ht : t = tuple
    · subst ht
      simp [ho, hnew]
    · simp [ho, ht, Ne.symm ht]
  · rw [Bool.not_eq_true] at ho
    simp [ho]

theorem Deed.clones_eq (h : Deed P p p')
    (hp : p.routines.countP (isCloneFor o tuple) = p.routines.countP (wasClonedFor o tuple)) :
    p'.routines.countP (isCloneFor o tuple) = p'.routines.countP (wasClonedFor o tuple) := by
  rcases h.breeds with hsame | ⟨plan, -, i, r, t, hbreeds⟩ | ⟨r, hr, horigin, hfixed, happlied⟩
  · rw [countP_forall₂ (fun r r' h => by unfold isCloneFor; rw [h.origin, h.fixed]) hsame,
      countP_forall₂ (fun r r' h => by unfold wasClonedFor; rw [h.origin, h.id, h.applied]) hsame, hp]
  · have hclones := countP_put (isCloneFor o tuple) { r with applied := r.applied ++ [t] }
      hbreeds.routine
    have hcloned := countP_put (wasClonedFor o tuple) { r with applied := r.applied ++ [t] }
      hbreeds.routine
    have hsame : isCloneFor o tuple { r with applied := r.applied ++ [t] } = isCloneFor o tuple r := rfl
    have hnone : wasClonedFor o tuple (r.clone p.size t) = false := Bool.and_false _
    have hmore := wasClonedFor_applied o tuple hbreeds.new p.size
    rw [hsame] at hclones
    rw [hbreeds.routines, countP_concat, countP_concat, hnone, Bool.toNat_false]
    omega
  · have hclone : isCloneFor o tuple r = false := by
      unfold isCloneFor
      rw [horigin]
      rfl
    have hcloned : wasClonedFor o tuple r = false := by
      unfold wasClonedFor
      rw [happlied]
      exact Bool.and_false _
    rw [hr, countP_concat, countP_concat, hclone, hcloned, hp]

theorem Deed.clones_barren (hP : ∀ plan, P plan → plan.config.incremental = false) (h : Deed P p p')
    (hp : ∀ r ∈ p.routines, r.origin.isSome = true → r.applied = []) :
    ∀ r ∈ p'.routines, r.origin.isSome = true → r.applied = [] := by
  intro s hs horigin
  rcases h.breeds with hsame | ⟨plan, hplan, i, r, t, hbreeds⟩ | ⟨r, hr, -, -, happlied⟩
  · obtain ⟨i, hi, rfl⟩ := getElem_of_mem hs
    obtain ⟨hlen, hall⟩ := forall₂_iff_get.1 hsame
    have hsame := hall i (hlen ▸ hi) hi
    exact hsame.applied.trans (hp _ (getElem_mem _) (hsame.origin ▸ horigin))
  · rw [hbreeds.routines, mem_append, mem_singleton] at hs
    rcases hs with hs | rfl
    · rcases mem_or_eq_of_mem_set hs with hs | rfl
      · exact hp s hs horigin
      · rcases hbreeds.cloneable.1 with hnone | hinc
        · simp only [hnone] at horigin
          cases horigin
        · rw [hP plan hplan] at hinc
          cases hinc
    · rfl
  · rw [hr, mem_append, mem_singleton] at hs
    rcases hs with hs | rfl
    · exact hp s hs horigin
    · exact happlied

theorem Deeds.clones_eq (h : Deeds P .empty p) (o : Nat) (tuple : Tuple) :
    p.routines.countP (isCloneFor o tuple) = p.routines.countP (wasClonedFor o tuple) := by
  induction h with
  | refl => rfl
  | tail _ hdeed ih => exact hdeed.clones_eq ih

theorem Deeds.clones_barren (hP : ∀ plan, P plan → plan.config.incremental = false)
    (h : Deeds P .empty p) : ∀ r ∈ p.routines, r.origin.isSome = true → r.applied = [] := by
  induction h with
  | refl => exact fun r hr => by cases hr
  | tail _ hdeed ih => exact hdeed.clones_barren hP ih

theorem wasClonedFor_id (hbarren : r.origin.isSome = true → r.applied = [])
    (h : wasClonedFor o tuple r = true) : r.id = o := by
  unfold wasClonedFor at h
  rw [Bool.and_eq_true, beq_iff_eq] at h
  rcases horigin : r.origin with _ | origin
  · rw [horigin] at h
    exact h.1
  · rw [hbarren (by rw [horigin]; rfl)] at h
    cases h.2

theorem countP_le_one_iff {f : Routine → Bool} {l : List Routine} :
    l.countP f ≤ 1 ↔ l.Pairwise fun r s => f r = true → f s = true → False := by
  rw [countP_eq_length_filter, ← pairwise_filter]
  rcases l.filter f with _ | ⟨r, _ | ⟨s, l⟩⟩
  · simp
  · simp
  · simp only [length_cons, pairwise_cons]
    refine ⟨fun hle => by omega, fun hall => (hall.1 s (.head _)).elim⟩

/-- **There are as many clones for a tuple** as routines that were cloned for it, over the
routine and its clones.  If clones are not cloned again, all clones of a routine are for
different tuples. -/
theorem clones_for_tuple (hlife : Lives P .empty p) :
    (∀ o tuple, p.routines.countP (isCloneFor o tuple) = p.routines.countP (wasClonedFor o tuple)) ∧
    ((∀ plan, P plan → plan.config.incremental = false) →
      p.routines.Pairwise fun r s => ∀ o tuple, r.origin = some o → s.origin = some o →
        r.fixed = some tuple → s.fixed ≠ some tuple) := by
  have hdeeds := hlife.deeds numbered_empty
  have hp : p.Numbered := hlife.numbered
  have hcount := Deeds.clones_eq hdeeds
  refine ⟨hcount, fun hP => ?_⟩
  have hbarren := Deeds.clones_barren hP hdeeds
  have hone : ∀ o tuple, p.routines.countP (isCloneFor o tuple) ≤ 1 := by
    intro o tuple
    rw [hcount, countP_le_one_iff]
    refine (List.pairwise_map.1 hp.nodup).imp_of_mem fun {r s} hr hs hne hwas hwas' => ?_
    exact hne ((wasClonedFor_id (hbarren r hr) hwas).trans (wasClonedFor_id (hbarren s hs) hwas').symm)
  rw [List.pairwise_iff_getElem]
  intro i j hi hj hlt o tuple hr hs hrfixed hsfixed
  have hclones := List.pairwise_iff_getElem.1 (countP_le_one_iff.1 (hone o tuple)) i j hi hj hlt
  refine hclones ?_ ?_ <;> unfold isCloneFor
  · rw [hr, hrfixed, beq_self_eq_true, beq_self_eq_true, Bool.and_self]
  · rw [hs, hsfixed, beq_self_eq_true, beq_self_eq_true, Bool.and_self]

/-- `main` calls `pair` with an integer and something unknown, and with an integer and a string. -/
def pairing : List RoutineDecl :=
  [{ name := "pair"
     params := [{ name := "a" }, { name := "b" }]
     exported := false
     body := [.ret (some (.var () "b"))] },
   { name := "main"
     body := [.eval (.call () "pair" [.lit () .int, .call () "mystery" []]),
       .eval (.call () "pair" [.lit () .int, .lit () .string])] }]

/-- Each routine is cloned twice at most, as its calls suggest. -/
def repeatedly (incremental : Bool) : Plan where
  config := { incremental, maxClones := 2, strategies := { texts := false, docs := false } }

/-- If clones are cloned again, both `pair` and its first clone are cloned for an integer and a
string: two clones of one origin for the same tuple.  If they are not, the two clones of `pair`
differ. -/
theorem pairing_clones :
    (∃ n p', (ofDecls pairing).analyze (repeatedly true) = .ok (.converged n) p' ∧
      p'.routines.countP (isCloneFor 0 [.int, .string]) = 2 ∧
      p'.routines.countP (wasClonedFor 0 [.int, .string]) = 2) ∧
    ∃ n p', (ofDecls pairing).analyze (repeatedly false) = .ok (.converged n) p' ∧
      p'.cloneCount = 2 ∧ p'.routines.Pairwise fun r s => ∀ o tuple, r.origin = some o →
        s.origin = some o → r.fixed = some tuple → s.fixed ≠ some tuple := by
  constructor
  · obtain ⟨n, p', hrun, hgood⟩ := exists_converged (ofDecls pairing) (repeatedly true)
      (fun p' => decide (p'.routines.countP (isCloneFor 0 [.int, .string]) = 2)) (by decide +kernel)
    have hlife : Lives (fun _ => True) .empty p' :=
      (operations_ofDecls trivial pairing).tail ⟨_, trivial, .analyze trivial hrun⟩
    have htwo := of_decide_eq_true hgood
    exact ⟨n, p', hrun, htwo, ((clones_for_tuple hlife).1 0 [.int, .string]).symm.trans htwo⟩
  · obtain ⟨n, p', hrun, hgood⟩ := exists_converged (ofDecls pairing) (repeatedly false)
      (fun p' => decide (p'.cloneCount = 2)) (by decide +kernel)
    have hlife : Lives (fun plan => plan.config.incremental = false) .empty p' :=
      (operations_ofDecls trivial pairing).tail ⟨_, trivial, .analyze rfl hrun⟩
    exact ⟨n, p', hrun, of_decide_eq_true hgood, (clones_for_tuple hlife).2 fun _ h => h⟩

end Program
end ShapeFlow
