/-
# The most specific candidate

Which routine a call is bound to depends on the candidates that apply and on nothing else: not
on the order in which they were declared, nor on candidates that do not apply, as long as one
does.  Being more specific is no order, since lists of parameters are compared only as far as the
shorter one goes; a candidate is chosen if it is the only one that fits inside all that apply.

Key definitions: `Signature.Applies`, `Signature.Inside`, `Resolver.among`.
Key theorems: `Resolver.mostSpecific_eq_among`, `Resolver.among_perm`,
`Resolver.mostSpecific_perm`, `Resolver.mostSpecific_local`.
-/
import ShapeFlow.Call.Resolve
import ShapeFlow.Proofs.Sorting

namespace ShapeFlow

open List

/-! ### Candidates -/

namespace Signature

/-- The required parameters are given, and no argument has a shape that its parameter excludes. -/
def Applies (s : Signature) (args : List TypeSet) : Prop :=
  s.required ≤ args.length ∧
    ∀ (i : Nat) (p a : TypeSet), s.params[i]? = some p → args[i]? = some a → ∀ x ∈ a, x ∈ p

/-- Each parameter has only shapes that the other's has, as far as both have one. -/
def Inside (l r : Signature) : Prop :=
  ∀ (i : Nat) (p q : TypeSet), l.params[i]? = some p → r.params[i]? = some q → ∀ x ∈ p, x ∈ q

theorem all_zip {R : TypeSet → TypeSet → Bool} {as bs : List TypeSet} :
    ((as.zip bs).all fun (a, b) => R a b) = true ↔
      ∀ (i : Nat) (a b : TypeSet), as[i]? = some a → bs[i]? = some b → R a b = true := by
  rw [all_eq_true]
  constructor
  · intro h i a b ha hb
    exact h (a, b) (mem_of_getElem? (getElem?_zip_eq_some.2 ⟨ha, hb⟩))
  · rintro h ⟨a, b⟩ hmem
    obtain ⟨i, hi⟩ := getElem?_of_mem hmem
    obtain ⟨ha, hb⟩ := getElem?_zip_eq_some.1 hi
    exact h i a b ha hb

theorem applies_iff {s : Signature} {args : List TypeSet} :
    s.applies args = true ↔ s.Applies args := by
  rw [applies, Bool.and_eq_true, decide_eq_true_eq]
  refine and_congr_right fun _ => (all_zip (R := fun p a => a ⊆ p)).trans ?_
  simp only [decide_eq_true_eq, TypeSet.subset_iff]

theorem atLeastAsSpecific_iff {l r : Signature} : l.atLeastAsSpecific r = true ↔ l.Inside r := by
  refine (all_zip (R := fun p q => p ⊆ q)).trans ?_
  simp only [decide_eq_true_eq, TypeSet.subset_iff, Inside]

theorem Inside.refl (s : Signature) : s.Inside s := by
  intro i p q hp hq x hx
  rwa [← Option.mem_unique hp hq]

/-- The candidate applies and fits inside all that apply. -/
structure Best (cands : List Signature) (args : List TypeSet) (c : Signature) : Prop where
  mem : c ∈ cands
  applies : c.Applies args
  inside : ∀ r ∈ cands, r.Applies args → c.Inside r

end Signature

/-! ### The choice among those that apply -/

namespace Resolver

variable {cands cands' : List Signature} {args : List TypeSet}

/-- Those that fit inside all. -/
def narrowest (cands : List Signature) : List Signature :=
  cands.filter fun l => cands.all l.atLeastAsSpecific

/-- The only one that fits inside all; if there is none or more than one, all of them. -/
def among (cands : List Signature) : Target :=
  match narrowest cands with
  | [best] => .resolved best.id
  | _ => .ambiguous (Sorted.sort (cands.map (·.id)))

theorem among_cases (cands : List Signature) :
    (∃ best, narrowest cands = [best] ∧ among cands = .resolved best.id) ∨
      (∀ best, narrowest cands ≠ [best]) ∧
        among cands = .ambiguous (Sorted.sort (cands.map (·.id))) := by
  unfold among
  split
  next best h => exact .inl ⟨best, h, rfl⟩
  next h => exact .inr ⟨fun best hbest => h best hbest, rfl⟩

theorem narrowest_perm (h : cands.Perm cands') : (narrowest cands).Perm (narrowest cands') := by
  have hall : (fun l : Signature => cands.all l.atLeastAsSpecific) =
      fun l => cands'.all l.atLeastAsSpecific := by
    funext l
    rw [Bool.eq_iff_iff, all_eq_true, all_eq_true]
    exact forall_congr' fun r => by rw [h.mem_iff]
  unfold narrowest
  rw [hall]
  exact h.filter _

/-- **The choice** does not depend on the order. -/
theorem among_perm (h : cands.Perm cands') : among cands = among cands' := by
  have hnarrowest := narrowest_perm h
  rcases among_cases cands with ⟨best, hbest, heq⟩ | ⟨hmany, heq⟩
  · rw [hbest] at hnarrowest
    rw [heq, among, ← singleton_perm.1 hnarrowest]
  · rcases among_cases cands' with ⟨best, hbest, -⟩ | ⟨-, heq'⟩
    · rw [hbest] at hnarrowest
      exact absurd (perm_singleton.1 hnarrowest) (hmany best)
    · rw [heq, heq', Sorted.sort_congr (h.map _)]

theorem eq_singleton_iff {α : Type} {l : List α} (h : l.Nodup) {a : α} :
    l = [a] ↔ a ∈ l ∧ ∀ b ∈ l, b = a := by
  constructor
  · rintro rfl
    exact ⟨mem_singleton_self a, fun b => mem_singleton.1⟩
  · rintro ⟨ha, hall⟩
    exact perm_singleton.1 ((perm_ext_iff_of_nodup h (nodup_singleton a)).2 fun b =>
      ⟨fun hb => mem_singleton.2 (hall b hb), fun hb => mem_singleton.1 hb ▸ ha⟩)

/-! ### Locality -/

theorem mem_narrowest {c : Signature} :
    c ∈ narrowest (cands.filter (·.applies args)) ↔ c.Best cands args := by
  rw [narrowest, mem_filter, mem_filter, all_eq_true, Signature.applies_iff]
  constructor
  · rintro ⟨⟨hc, happlies⟩, hall⟩
    exact ⟨hc, happlies, fun r hr happ => Signature.atLeastAsSpecific_iff.1
      (hall r (mem_filter.2 ⟨hr, Signature.applies_iff.2 happ⟩))⟩
  · intro h
    refine ⟨⟨h.mem, h.applies⟩, fun r hr => Signature.atLeastAsSpecific_iff.2 ?_⟩
    obtain ⟨hr, happ⟩ := mem_filter.1 hr
    exact h.inside r hr (Signature.applies_iff.1 happ)

/-- **If a candidate applies**, the choice is among those that do.  A lone candidate is no
exception then. -/
theorem mostSpecific_eq_among (h : ∃ c ∈ cands, c.Applies args) :
    mostSpecific cands args = among (cands.filter (·.applies args)) := by
  obtain ⟨c, hc, happlies⟩ := h
  have hmem : c ∈ cands.filter (·.applies args) :=
    mem_filter.2 ⟨hc, Signature.applies_iff.2 happlies⟩
  match cands, hc with
  | [only], hc =>
    obtain rfl := mem_singleton.1 hc
    have hfilter : [c].filter (·.applies args) = [c] :=
      filter_eq_self.2 fun d hd => by
        rw [mem_singleton.1 hd]
        exact Signature.applies_iff.2 happlies
    have hself : c.atLeastAsSpecific c = true := Signature.atLeastAsSpecific_iff.2 (.refl c)
    rw [hfilter, mostSpecific, among, narrowest]
    simp [hself]
  | a :: b :: rest, _ =>
    have hne : ((a :: b :: rest).filter (·.applies args)).isEmpty = false := by
      rw [isEmpty_eq_false_iff]
      exact ne_nil_of_mem hmem
    unfold mostSpecific among narrowest
    simp only [hne]
    rfl

/-- If none applies, all of several candidates are left. -/
theorem mostSpecific_of_none (h : ¬ ∃ c ∈ cands, c.Applies args) (hmany : 2 ≤ cands.length) :
    mostSpecific cands args = .ambiguous (Sorted.sort (cands.map (·.id))) := by
  have hfilter : cands.filter (·.applies args) = [] :=
    filter_eq_nil_iff.2 fun c hc happ => h ⟨c, hc, Signature.applies_iff.1 happ⟩
  match cands, hmany, hfilter with
  | a :: b :: rest, _, hfilter =>
    unfold mostSpecific
    simp only [hfilter]
    rfl

theorem mostSpecific_perm (h : cands.Perm cands') :
    mostSpecific cands args = mostSpecific cands' args := by
  by_cases happ : ∃ c ∈ cands, c.Applies args
  · have happ' : ∃ c ∈ cands', c.Applies args := by
      obtain ⟨c, hc, happlies⟩ := happ
      exact ⟨c, h.mem_iff.1 hc, happlies⟩
    rw [mostSpecific_eq_among happ, mostSpecific_eq_among happ', among_perm (h.filter _)]
  · have hnone : ¬ ∃ c ∈ cands', c.Applies args := fun ⟨c, hc, happlies⟩ =>
      happ ⟨c, h.mem_iff.2 hc, happlies⟩
    rcases Nat.lt_or_ge cands.length 2 with hfew | hmany
    · -- there is only one order
      match cands, hfew with
      | [], _ => rw [nil_perm.1 h]
      | [only], _ => rw [singleton_perm.1 h]
    · rw [mostSpecific_of_none happ hmany, mostSpecific_of_none hnone (h.length_eq ▸ hmany),
        Sorted.sort_congr (h.map _)]

/-- **Resolution is local and does not depend on the order.**  Let the candidates have different
ids.  Then any other order gives the same target.  If a candidate applies, so does any list that
differs only in candidates that do not apply; the target names only candidates that apply; and it
is a candidate just if that is the only one that applies and fits inside all that apply. -/
theorem mostSpecific_local (hids : (cands.map (·.id)).Nodup) (args : List TypeSet) :
    (∀ cands', cands'.Perm cands → mostSpecific cands' args = mostSpecific cands args) ∧
    ((∃ c ∈ cands, c.Applies args) →
      (∀ cands' : List Signature, (cands'.map (·.id)).Nodup →
        (∀ c : Signature, c.Applies args → (c ∈ cands' ↔ c ∈ cands)) →
        mostSpecific cands' args = mostSpecific cands args) ∧
      (∀ id ∈ (mostSpecific cands args).callees, ∃ c ∈ cands, c.id = id ∧ c.Applies args) ∧
      ∀ c ∈ cands, mostSpecific cands args = .resolved c.id ↔
        c.Best cands args ∧ ∀ d, d.Best cands args → d = c) := by
  have hnodup : ∀ {l : List Signature}, (l.map (·.id)).Nodup → l.Nodup := fun h => h.of_map _
  refine ⟨fun cands' h => mostSpecific_perm h, fun happ => ⟨fun cands' hids' hsame => ?_, ?_, ?_⟩⟩
  · have happ' : ∃ c ∈ cands', c.Applies args := by
      obtain ⟨c, hc, happlies⟩ := happ
      exact ⟨c, (hsame c happlies).2 hc, happlies⟩
    rw [mostSpecific_eq_among happ, mostSpecific_eq_among happ']
    apply among_perm
    refine (List.perm_ext_iff_of_nodup ((hnodup hids').filter _) ((hnodup hids).filter _)).2 fun c => ?_
    rw [List.mem_filter, List.mem_filter, Signature.applies_iff]
    exact and_congr_left (hsame c)
  · intro id hid
    have hfrom : ∀ c ∈ cands.filter (·.applies args), ∃ c' ∈ cands, c'.id = c.id ∧ c'.Applies args :=
      fun c hc => ⟨c, (List.mem_filter.1 hc).1, rfl, Signature.applies_iff.1 (List.mem_filter.1 hc).2⟩
    rw [mostSpecific_eq_among happ] at hid
    rcases among_cases (cands.filter (·.applies args)) with ⟨best, hbest, heq⟩ | ⟨-, heq⟩
    · rw [heq] at hid
      obtain rfl := List.mem_singleton.1 hid
      have hmem : best ∈ narrowest (cands.filter (·.applies args)) := hbest ▸ List.mem_singleton_self best
      exact hfrom best (List.mem_filter.1 hmem).1
    · rw [heq] at hid
      obtain ⟨c, hc, rfl⟩ := List.mem_map.1 ((Sorted.perm_sort _).mem_iff.1 hid)
      exact hfrom c hc
  · intro c hc
    have hbest : narrowest (cands.filter (·.applies args)) = [c] ↔
        c.Best cands args ∧ ∀ d, d.Best cands args → d = c := by
      have hsub : (narrowest (cands.filter (·.applies args))).Nodup := ((hnodup hids).filter _).filter _
      rw [eq_singleton_iff hsub, mem_narrowest]
      exact and_congr_right fun _ => forall_congr' fun d => by rw [mem_narrowest]
    rw [← hbest, mostSpecific_eq_among happ]
    rcases among_cases (cands.filter (·.applies args)) with ⟨best, hnarrowest, heq⟩ | ⟨hmany, heq⟩
    · rw [heq, hnarrowest]
      have hmem : best ∈ cands :=
        (mem_narrowest.1 (hnarrowest ▸ List.mem_singleton_self best)).mem
      refine ⟨fun hid => ?_, fun hsame => ?_⟩
      · rw [List.inj_on_of_nodup_map hids hmem hc (Target.resolved.inj hid)]
      · rw [List.cons.inj hsame |>.1]
    · rw [heq]
      exact iff_of_false (fun h => by cases h) (hmany c)

/-- A routine with its clones for strings and for integers. -/
def cloned : List Signature := [⟨0, [.any], [], 1, .void⟩, ⟨1, [.string], [], 1, .void⟩,
  ⟨2, [.int], [], 1, .void⟩]

/-- A call with a string is bound to the clone for strings, in whatever order the three come, and
if the clone for integers is left out. -/
theorem cloned_local : (cloned.map (·.id)).Nodup ∧ (∃ c ∈ cloned, c.Applies [.string]) ∧
    mostSpecific cloned [.string] = .resolved 1 ∧
    mostSpecific cloned.reverse [.string] = mostSpecific cloned [.string] ∧
    mostSpecific (cloned.take 2) [.string] = mostSpecific cloned [.string] ∧
    (∀ id ∈ (mostSpecific cloned [.string]).callees, ∃ c ∈ cloned, c.id = id ∧ c.Applies [.string]) ∧
    Signature.Best cloned [.string] ⟨1, [.string], [], 1, .void⟩ ∧
    ∀ d, Signature.Best cloned [.string] d → d = ⟨1, [.string], [], 1, .void⟩ := by
  have hids : (cloned.map (·.id)).Nodup := by decide
  have happ : ∃ c ∈ cloned, c.Applies [.string] :=
    ⟨⟨1, [.string], [], 1, .void⟩, by decide, Signature.applies_iff.1 (by decide)⟩
  have hresolved : mostSpecific cloned [.string] = .resolved 1 := by decide
  have hsame : ∀ c : Signature, c.Applies [.string] → (c ∈ cloned.take 2 ↔ c ∈ cloned) := by
    intro c hc
    refine ⟨List.mem_of_mem_take, fun hmem => ?_⟩
    simp only [cloned, List.mem_cons, List.not_mem_nil, or_false] at hmem
    rcases hmem with rfl | rfl | rfl
    · decide
    · decide
    · exact absurd (Signature.applies_iff.2 hc) (by decide)
  obtain ⟨hperm, hlocal⟩ := mostSpecific_local hids [.string]
  obtain ⟨hother, hnames, hbest⟩ := hlocal happ
  exact ⟨hids, happ, hresolved, hperm _ (List.reverse_perm _), hother _ (by decide) hsame, hnames,
    (hbest ⟨1, [.string], [], 1, .void⟩ (by decide)).1 hresolved⟩

/-- A clone without parameters fits inside all, and so does the one for strings: neither is the
only one. -/
example : mostSpecific (⟨3, [], [], 0, .void⟩ :: cloned) [.string] = .ambiguous [0, 1, 3] := by decide

end Resolver

end ShapeFlow
