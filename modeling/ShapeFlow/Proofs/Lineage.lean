/-
# Where clones come from

Strategies may propose anything.  What stands between a proposal and a clone is `accepts`: the
tuple must not be wider than the parameters it is for, and must say something definite where
nothing was known.  For a clone of a clone that is a statement about the parameters of the
clone; carried along the line of clones, it is one about the routine that was declared.

Key definitions: `Narrows`, `Routine.DerivedFrom`, `Program.Lineage`.
Key theorems: `narrows_iff_accepts`, `Narrows.trans`, `Program.Lineage.push`, `Program.Pace.lineage`,
`Program.clones_derived`.
-/
import ShapeFlow.Proofs.Overloads
import ShapeFlow.Proofs.Readiness

namespace ShapeFlow

open ShapeFlow.Flow Infer List

/-! ### Narrower types -/

/-- One type for each, none wider, and a definite one where there could be anything. -/
structure Narrows (base tuple : Tuple) : Prop where
  length : tuple.length = base.length
  subset : ∀ (k : Nat) (t b : TypeSet), tuple[k]? = some t → base[k]? = some b → t ⊆ b
  definite : ∃ (k : Nat) (t b : TypeSet), tuple[k]? = some t ∧ base[k]? = some b ∧
    b.isAny = true ∧ t.isAny = false ∧ t.isVoid = false

variable {base tuple : Tuple}

/-- A tuple is accepted if and only if it is narrower. -/
theorem narrows_iff_accepts : accepts base tuple = true ↔ Narrows base tuple := by
  have hzip : ∀ (t b : TypeSet), (t, b) ∈ tuple.zip base ↔
      ∃ k : Nat, tuple[k]? = some t ∧ base[k]? = some b := by
    intro t b
    rw [mem_iff_getElem?]
    simp only [getElem?_zip_eq_some]
  unfold accepts
  simp only [Bool.and_eq_true, beq_iff_eq, all_eq_true, any_eq_true, decide_eq_true_eq,
    Bool.not_eq_true']
  constructor
  · rintro ⟨⟨hlen, hsub⟩, ⟨t, b⟩, hmem, ⟨hb, ht⟩, hvoid⟩
    obtain ⟨k, hk, hk'⟩ := (hzip t b).1 hmem
    exact ⟨hlen.symm, fun k t b ht hb => hsub (t, b) ((hzip t b).2 ⟨k, ht, hb⟩),
      k, t, b, hk, hk', hb, ht, hvoid⟩
  · rintro ⟨hlen, hsub, k, t, b, hk, hk', hb, ht, hvoid⟩
    refine ⟨⟨hlen.symm, fun x hx => ?_⟩, (t, b), (hzip t b).2 ⟨k, hk, hk'⟩, ⟨hb, ht⟩, hvoid⟩
    obtain ⟨k, hk, hk'⟩ := (hzip x.1 x.2).1 hx
    exact hsub k x.1 x.2 hk hk'

theorem Narrows.trans {mid : Tuple} (h : Narrows base mid) (h' : Narrows mid tuple) :
    Narrows base tuple := by
  have hbetween : ∀ {k : Nat} {b : TypeSet}, base[k]? = some b → ∃ m, mid[k]? = some m := by
    intro k b hb
    have hlt : k < mid.length := h.length ▸ (lt_of_getElem? hb)
    exact ⟨_, getElem?_eq_getElem hlt⟩
  refine ⟨h'.length.trans h.length, fun k t b ht hb => ?_, ?_⟩
  · obtain ⟨m, hm⟩ := hbetween hb
    exact TypeSet.subset_trans (h'.subset k t m ht hm) (h.subset k m b hm hb)
  · obtain ⟨k, t, m, ht, hm, hany, hdefinite⟩ := h'.definite
    have hlt : k < base.length := h.length ▸ (lt_of_getElem? hm)
    refine ⟨k, t, base[k], ht, getElem?_eq_getElem hlt, ?_, hdefinite⟩
    exact isAny_of_subset (h.subset k m _ hm (getElem?_eq_getElem hlt)) hany

/-! ### Derived routines -/

namespace Routine

variable {r r' s s' : Routine} {id : Nat} {tuple : Tuple}

/-- The same routine, whatever is known of it. -/
structure Kin (r r' : Routine) : Prop where
  id : r'.id = r.id
  name : r'.name = r.name
  params : r'.params = r.params
  graph : r'.graph = r.graph
  origin : r'.origin = r.origin
  fixed : r'.fixed = r.fixed

theorem Kin.refl (r : Routine) : r.Kin r := ⟨rfl, rfl, rfl, rfl, rfl, rfl⟩

theorem Gains.kin (h : r.Gains r') : r.Kin r' := by
  rw [h.text]
  exact ⟨rfl, rfl, rfl, rfl, rfl, rfl⟩

/-- The types the parameters are declared with. -/
abbrev declared (r : Routine) : Tuple := r.params.map (·.declared)

/-- The routine is the other one, which was declared, with its parameters fixed to narrower
types. -/
structure DerivedFrom (r s : Routine) : Prop where
  original : s.origin = none
  name : r.name = s.name
  graph : r.graph = s.graph
  declared : r.declared = s.declared
  fixed : ∃ tuple, r.fixed = some tuple ∧ Narrows s.declared tuple

theorem DerivedFrom.kin (h : r.DerivedFrom s) (hr : r.Kin r') (hs : s.Kin s') : r'.DerivedFrom s' where
  original := hs.origin.trans h.original
  name := by rw [hr.name, hs.name, h.name]
  graph := by rw [hr.graph, hs.graph, h.graph]
  declared := by rw [Routine.declared, Routine.declared, hr.params, hs.params]; exact h.declared
  fixed := by
    obtain ⟨tuple, hfixed, hnarrows⟩ := h.fixed
    refine ⟨tuple, hr.fixed.trans hfixed, ?_⟩
    rw [Routine.declared, hs.params]
    exact hnarrows

theorem declared_clone (r : Routine) (id : Nat) (tuple : Tuple) :
    (r.clone id tuple).declared = r.declared :=
  map_params_fresh (fun _ _ => rfl) id r.name r.params r.graph false

theorem derived_of_original (horigin : r.origin = none) (hfixed : r.fixed = none)
    (h : accepts r.paramTypes tuple = true) :
    (r.clone id tuple).DerivedFrom r where
  original := horigin
  name := rfl
  graph := rfl
  declared := r.declared_clone id tuple
  fixed := by
    refine ⟨tuple, rfl, narrows_iff_accepts.1 ?_⟩
    rw [paramTypes, hfixed] at h
    exact h

theorem DerivedFrom.clone (hr : r.DerivedFrom s) (h : accepts r.paramTypes tuple = true) :
    (r.clone id tuple).DerivedFrom s where
  original := hr.original
  name := hr.name
  graph := hr.graph
  declared := (r.declared_clone id tuple).trans hr.declared
  fixed := by
    obtain ⟨before, hfixed, hnarrows⟩ := hr.fixed
    refine ⟨tuple, rfl, hnarrows.trans (narrows_iff_accepts.1 ?_)⟩
    rw [paramTypes, hfixed] at h
    exact h

end Routine

namespace Program

variable {p p' : Program} {plan : Plan} {r : Routine} {i : Nat} {x : String}

/-! ### Lineage -/

/-- A routine was declared, or is derived from one that was. -/
def Stems (p : Program) (r : Routine) : Prop :=
  r.origin = none ∧ r.fixed = none ∨
    ∃ o s, r.origin = some o ∧ p.routines[o]? = some s ∧ r.DerivedFrom s

/-- Every routine was declared or is derived from one that was, and the names list the routines
of their name. -/
structure Lineage (p : Program) : Prop where
  numbered : p.Numbered
  stems : ∀ r ∈ p.routines, p.Stems r
  names : ∀ x, p.overloads x = (p.routines.filter fun r => r.name.toLower = x.toLower).map (·.id)

theorem lineage_empty : Program.empty.Lineage :=
  ⟨numbered_empty, fun _ hr => (not_mem_nil hr).elim, fun _ => rfl⟩

theorem Lineage.same (h : p.Lineage) (hnames : ∀ x, p'.overloads x = p.overloads x)
    (hkin : List.Forall₂ Routine.Kin p.routines p'.routines) : p'.Lineage := by
  obtain ⟨hlen, hall⟩ := forall₂_iff_get.1 hkin
  have hforth : ∀ {i : Nat} {r : Routine}, p.routines[i]? = some r →
      ∃ r', p'.routines[i]? = some r' ∧ r.Kin r' := by
    intro i r hr
    obtain ⟨hi, rfl⟩ := List.getElem?_eq_some_iff.1 hr
    exact ⟨_, getElem?_eq_getElem (hlen ▸ hi), hall i hi (hlen ▸ hi)⟩
  have hback : ∀ {i : Nat} {r' : Routine}, p'.routines[i]? = some r' →
      ∃ r, p.routines[i]? = some r ∧ r.Kin r' := by
    intro i r' hr'
    obtain ⟨hi, rfl⟩ := List.getElem?_eq_some_iff.1 hr'
    exact ⟨_, getElem?_eq_getElem (hlen ▸ hi), hall i (hlen ▸ hi) hi⟩
  refine ⟨fun i r' hr' => ?_, fun r' hr' => ?_, fun x => ?_⟩
  · obtain ⟨r, hr, hrr'⟩ := hback hr'
    exact hrr'.id.trans (h.numbered i r hr)
  · obtain ⟨i, hi⟩ := getElem?_of_mem hr'
    obtain ⟨r, hr, hrr'⟩ := hback hi
    rcases h.stems r (mem_of_getElem? hr) with ⟨horigin, hfixed⟩ | ⟨o, s, horigin, hs, hderived⟩
    · exact .inl ⟨hrr'.origin.trans horigin, hrr'.fixed.trans hfixed⟩
    · obtain ⟨s', hs', hss'⟩ := hforth hs
      exact .inr ⟨o, s', hrr'.origin.trans horigin, hs', hderived.kin hrr' hss'⟩
  · have hlisted : ∀ {l k : List Routine}, List.Forall₂ Routine.Kin l k →
        (k.filter fun r => r.name.toLower = x.toLower).map (·.id) =
          (l.filter fun r => r.name.toLower = x.toLower).map (·.id) := by
      intro l k hlk
      induction hlk with
      | nil => rfl
      | cons hr _ ih =>
        rw [filter_cons, filter_cons, hr.name]
        split
        · rw [map_cons, map_cons, ih, hr.id]
        · exact ih
    rw [hnames, h.names, hlisted hkin]

theorem kin_refl (l : List Routine) : List.Forall₂ Routine.Kin l l :=
  forall₂_same.2 fun r _ => .refl r

theorem Lineage.tends (h : p.Lineage) (ht : p.Tends p') : p'.Lineage :=
  h.same (fun x => by rw [overloads, ht.directory]; rfl) (ht.gains.routines.imp fun _ _ => Routine.Gains.kin)

theorem Lineage.put (h : p.Lineage) {r' : Routine} (hr : p.routines[i]? = some r) (hkin : r.Kin r') : (p.put i r').Lineage :=
  h.same (fun _ => rfl) (each_put .refl hr hkin).forall₂

theorem Lineage.lt_of_listed (h : p.Lineage) (hi : i ∈ p.overloads x) :
    i < p.size := by
  rw [h.names] at hi
  obtain ⟨r, hr, rfl⟩ := mem_map.1 hi
  exact (List.getElem?_eq_some_iff.1 (h.numbered.get (List.mem_filter.1 hr).1)).1

theorem Lineage.push (h : p.Lineage) (hid : r.id = p.size) (hr : p.Stems r) :
    (p.push r).Lineage := by
  have hstems : ∀ s, p.Stems s → (p.push r).Stems s := by
    rintro s (hs | ⟨o, q, horigin, hq, hderived⟩)
    · exact .inl hs
    · have hq' : (p.push r).routines[o]? = some q :=
        (getElem?_append_left (lt_of_getElem? hq)).trans hq
      exact .inr ⟨o, q, horigin, hq', hderived⟩
  refine ⟨numbered_push h.numbered hid, fun s hs => ?_, fun x => ?_⟩
  · rcases mem_append.1 hs with hs | hs
    · exact hstems s (h.stems s hs)
    · obtain rfl := mem_singleton.1 hs
      exact hstems s hr
  · have hnew : p.size ∉ p.overloads x := fun hmem => Nat.lt_irrefl _ (h.lt_of_listed hmem)
    show (p.directory.declareRoutine r.name p.size).candidates x = _
    rw [Directory.candidates_declareRoutine r.name x hnew]
    show (if _ then p.overloads x ++ [p.size] else p.overloads x) =
      ((p.routines ++ [r]).filter fun r => r.name.toLower = x.toLower).map (·.id)
    rw [filter_append, map_append, ← h.names]
    by_cases hname : x.toLower = r.name.toLower
    · simp [hname, hid]
    · simp [hname, Ne.symm hname]

/-- **Each thing a run does** keeps the lineage. -/
theorem Pace.lineage (h : Pace plan p p') (hp : p.Lineage) : p'.Lineage := by
  cases h with
  | tend h => exact hp.tends h
  | say | consult => exact hp.same (fun _ => rfl) (kin_refl _)
  | propose set hr => exact hp.put hr ⟨rfl, rfl, rfl, rfl, rfl, rfl⟩
  | @clone i r clone tuple changed hr _ haccepts _ hseed =>
    have hkin := (Routine.gains_seed hseed).kin
    have hi : r.id = i := hp.numbered i r hr
    obtain ⟨q, hq⟩ : ∃ q, q = p.put i (noting r tuple) := ⟨_, rfl⟩
    have hlineage : q.Lineage := hq ▸ hp.put hr ⟨rfl, rfl, rfl, rfl, rfl, rfl⟩
    -- whatever `r` stems from is still there
    have hforth : ∀ {o : Nat} {s : Routine}, p.routines[o]? = some s →
        ∃ s', q.routines[o]? = some s' ∧ s.Kin s' := by
      intro o s hs
      rw [hq, routines_put hr]
      by_cases ho : i = o
      · subst ho
        obtain rfl := Option.mem_unique hr hs
        exact ⟨_, if_pos rfl, ⟨rfl, rfl, rfl, rfl, rfl, rfl⟩⟩
      · exact ⟨s, (if_neg ho).trans hs, .refl s⟩
    rw [← hq]
    refine hlineage.push ?_ (.inr ?_)
    · rw [hkin.id, hq, size_put]
      rfl
    · rcases hp.stems r (mem_of_getElem? hr) with ⟨horigin, hfixed⟩ | ⟨o, s, horigin, hs, hderived⟩
      · obtain ⟨r', hr', hrr'⟩ := hforth hr
        have horigin' : clone.origin = some i := by
          rw [hkin.origin, ← hi]
          show some (r.origin.getD r.id) = _
          rw [horigin]
          rfl
        exact ⟨i, r', horigin', hr',
          (Routine.derived_of_original horigin hfixed haccepts).kin hkin hrr'⟩
      · obtain ⟨s', hs', hss'⟩ := hforth hs
        have horigin' : clone.origin = some o := by
          rw [hkin.origin]
          show some (r.origin.getD r.id) = _
          rw [horigin]
          rfl
        exact ⟨o, s', horigin', hs', (hderived.clone haccepts).kin hkin hss'⟩

theorem Paces.lineage (h : Paces plan p p') (hp : p.Lineage) : p'.Lineage := by
  induction h with
  | refl => exact hp
  | tail _ hpace ih => exact hpace.lineage ih

variable {P : Plan → Prop}

theorem Operation.lineage {e : Action} (h : Operation P e p p') (hp : p.Lineage) :
    p'.Lineage := by
  -- what is said about a program, its table and its resolver do not matter
  have hsaid : ∀ {q q' : Program}, q.Lineage → q'.routines = q.routines →
      (∀ x, q'.overloads x = q.overloads x) → q'.Lineage := fun hq hroutines hnames =>
    hq.same hnames (hroutines ▸ kin_refl _)
  have hcleared : p.cleared.Lineage := hsaid hp rfl fun _ => rfl
  cases h with
  | addRoutine h =>
    obtain ⟨r, table, hdecl, -, rfl⟩ := addRoutine_cases h
    obtain ⟨params, graph, rfl, -⟩ := Routine.ofDecl_eq hdecl
    have hstart : ({ p with table } : Program).Lineage := hsaid hp rfl fun _ => rfl
    exact hsaid (hstart.push rfl (.inl ⟨rfl, rfl⟩)) rfl fun _ => rfl
  | declareClass | setResolver => exact hsaid hp rfl fun _ => rfl
  | @invalidate _ _ id h =>
    obtain ⟨r, hr, rfl⟩ := invalidate_eq h
    have hforgotten : (p.put id (p.forgotten id r)).Lineage := hp.put hr ⟨rfl, rfl, rfl, rfl, rfl, rfl⟩
    exact hsaid (hforgotten.tends (tends_requeueCallers _ id)) rfl fun _ => rfl
  | @requeue _ _ id h =>
    obtain ⟨r, hr, rfl⟩ := requeue_cases h
    have hqueued : (p.put id { r with pending := r.pending.insertAll r.reached }).Lineage :=
      hp.put hr ⟨rfl, rfl, rfl, rfl, rfl, rfl⟩
    exact hsaid hqueued rfl fun _ => rfl
  | analyze _ h =>
    obtain ⟨hpaces, -⟩ := (analyze_paces hp.numbered).ok h
    exact hsaid (hpaces.lineage hcleared) rfl fun _ => rfl
  | fail _ h => exact ((analyze_paces hp.numbered).error h).lineage hcleared

theorem Lives.lineage (h : Lives P .empty p) : p.Lineage := by
  induction h with
  | refl => exact lineage_empty
  | tail _ hop ih =>
    obtain ⟨_, -, hop⟩ := hop
    exact hop.lineage ih

/-! ### Names -/

theorem Lineage.mem_overloads (h : p.Lineage) (hr : r ∈ p.routines) :
    r.id ∈ p.overloads r.name := by
  rw [h.names]
  exact mem_map.2 ⟨r, mem_filter.2 ⟨hr, by simp⟩, rfl⟩

theorem Lineage.lookup (h : p.Lineage) (hr : r ∈ p.routines) (horigin : r.origin = none)
    (hname : r.name.toLower = x.toLower) :
    ∃ id s, p.lookup x = some id ∧ p.routines[id]? = some s ∧ s.origin = none ∧
      s.name.toLower = x.toLower := by
  have hlisted : r.id ∈ p.overloads x := by
    rw [h.names]
    exact mem_map.2 ⟨r, mem_filter.2 ⟨hr, by simpa using hname⟩, rfl⟩
  have hsome : (p.lookup x).isSome = true := by
    refine find?_isSome.2 ⟨r.id, hlisted, ?_⟩
    rw [h.numbered.get hr]
    simp [horigin]
  obtain ⟨id, hid⟩ := Option.isSome_iff_exists.1 hsome
  have hmem := mem_of_find?_eq_some hid
  have hfound := find?_some hid
  rw [h.names] at hmem
  obtain ⟨s, hs, rfl⟩ := mem_map.1 hmem
  obtain ⟨hs, hsname⟩ := mem_filter.1 hs
  have hget := h.numbered.get hs
  rw [hget] at hfound
  exact ⟨s.id, s, hid, hget, by simpa using hfound, by simpa using hsname⟩

/-- **Clones are derived from declared routines.**  Whatever has been done to a program, with
whatever strategies, and whether runs failed or not: a routine has an origin if and only if its
parameters are fixed; the origin is a declared routine of its name and graph, and narrowed in
the fixed types; the clone is listed under its name, and names of declared routines are never
looked up as clones. -/
theorem clones_derived (h : Lives P .empty p) :
    (∀ r ∈ p.routines, (r.origin.isSome = true ↔ r.fixed.isSome = true) ∧
      ∀ o, r.origin = some o → r.id ∈ p.overloads r.name ∧
        ∃ s, p.routines[o]? = some s ∧ r.DerivedFrom s) ∧
    ∀ x, (∃ r ∈ p.routines, r.origin = none ∧ r.name.toLower = x.toLower) →
      ∃ id s, p.lookup x = some id ∧ p.routines[id]? = some s ∧ s.origin = none ∧
        s.name.toLower = x.toLower := by
  have hlineage := Lives.lineage h
  refine ⟨fun r hr => ⟨?_, fun o ho => ⟨hlineage.mem_overloads hr, ?_⟩⟩, ?_⟩
  · rcases hlineage.stems r hr with ⟨horigin, hfixed⟩ | ⟨o, s, horigin, -, hderived⟩
    · simp [horigin, hfixed]
    · obtain ⟨tuple, hfixed, -⟩ := hderived.fixed
      simp [horigin, hfixed]
  · rcases hlineage.stems r hr with ⟨horigin, -⟩ | ⟨o', s, horigin, hs, hderived⟩
    · rw [horigin] at ho
      cases ho
    · obtain rfl := Option.some.inj (horigin.symm.trans ho)
      exact ⟨s, hs, hderived⟩
  · rintro x ⟨r, hr, horigin, hname⟩
    exact hlineage.lookup hr horigin hname

/-- A clone of `pair` is derived from it, and its name is looked up as a declared routine. -/
theorem pairing_derived : ∃ n p r, (ofDecls pairing).analyze (repeatedly true) = .ok (.converged n) p ∧
    r ∈ p.routines ∧ r.origin = some 0 ∧ r.fixed = some [.int, .string] ∧ r.id ∈ p.overloads r.name ∧
    (∃ s, p.routines[0]? = some s ∧ r.DerivedFrom s) ∧
    ∃ id s, p.lookup r.name = some id ∧ p.routines[id]? = some s ∧ s.origin = none ∧
      s.name.toLower = r.name.toLower := by
  obtain ⟨n, p, hrun, hgood⟩ := exists_converged (ofDecls pairing) (repeatedly true)
    (fun p => p.routines.any (isCloneFor 0 [.int, .string])) (by decide +kernel)
  have hlife : Lives (fun _ => True) .empty p :=
    (operations_ofDecls trivial pairing).tail ⟨_, trivial, .analyze trivial hrun⟩
  obtain ⟨hclones, hlookup⟩ := clones_derived hlife
  obtain ⟨r, hr, hclone⟩ := List.any_eq_true.1 hgood
  obtain ⟨horigin, hfixed⟩ : r.origin = some 0 ∧ r.fixed = some [.int, .string] := by
    simpa [isCloneFor] using hclone
  obtain ⟨hlisted, s, hs, hderived⟩ := (hclones r hr).2 0 horigin
  have hdeclared : ∃ q ∈ p.routines, q.origin = none ∧ q.name.toLower = r.name.toLower :=
    ⟨s, List.mem_of_getElem? hs, hderived.original, by rw [hderived.name]⟩
  exact ⟨n, p, r, hrun, hr, horigin, hfixed, hlisted, ⟨s, hs, hderived⟩, hlookup r.name hdeclared⟩

end Program
end ShapeFlow
