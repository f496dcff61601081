/-
# Flow states form a semilattice

States of one scope need not have the same number of slots: a state made before
a variable was declared has none for it, and assigning beyond the last slot adds
slots.  Read with the any-type for missing slots, well-formed states are ordered
up to what they say, and `join` is the least upper bound of two of them.  So it
does not matter in which order, or how often, the states of several paths are
joined.

Key definitions: `State.WellFormed`, `State.Least`, `State.joinAll`.
Key theorems: `State.agrees_iff_le`, `State.WellFormed.join_least`, `State.joinAll_least`,
`State.join_semilattice`.
-/
import ShapeFlow.Proofs.States

namespace ShapeFlow

open List
namespace Flow
namespace State

variable {a b c d : State} {l m : List State}

/-- A state that the operations on states can make. -/
structure WellFormed (s : State) : Prop where
  certain : ∀ i, s.certainly.contains i = true → s.possibly.contains i = true
  inside : ∀ i, VarSet.tracked i = true → s.possibly.contains i = true → i < s.slots.length
  /-- A variable in doubt may be null. -/
  doubt : ∀ i, s.inDoubt i = true → 0 ∈ s.slot i
  ordered : s.notes.Pairwise fun m n => compare m n = .lt

theorem pairwise_notes_iff {l : List Note} :
    l.Pairwise (fun m n => compare m n = .lt) ↔ Note.Ordered l := by
  have h : (fun m n : Note => compare m n = .lt) = fun m n => m.key < n.key := by
    funext m n
    rw [Note.compare_eq, Nat.compare_eq_lt]
  rw [h]

/-! ### The operations keep states well formed -/

section Operations

variable {s : State}

theorem wellFormed_start (scope : Scope) : (start scope).WellFormed where
  certain _ h := h
  inside i htracked hi := by
    rw [VarSet.contains_eq _ htracked] at hi
    simp [start, VarSet.empty] at hi
  doubt i hi := by simp [inDoubt, start] at hi
  ordered := .nil

theorem WellFormed.assign (h : s.WellFormed) (i : Nat) (t : TypeSet) :
    (s.assign i t).WellFormed where
  certain j hj := by
    simp only [State.assign, VarSet.contains_insert, Bool.or_eq_true] at hj ⊢
    exact hj.imp_left (h.certain j)
  inside j htracked hj := by
    simp only [State.assign, VarSet.contains_insert, Bool.or_eq_true, beq_iff_eq] at hj
    simp only [State.assign, length_put]
    rcases hj with hj | rfl
    · exact lt_max_of_lt_left (h.inside j htracked hj)
    · exact lt_max_of_lt_right (Nat.lt_succ_self i)
  doubt j hj := by
    obtain ⟨hne, hdoubt⟩ := inDoubt_assign hj
    rw [slot_assign, if_neg hne]
    exact h.doubt j hdoubt
  ordered := h.ordered.filter _

theorem WellFormed.unset (h : s.WellFormed) (i : Nat) : (s.unset i).WellFormed where
  certain j hj := by
    simp only [State.unset, VarSet.contains_erase, Bool.and_eq_true] at hj ⊢
    exact ⟨h.certain j hj.1, hj.2⟩
  inside j htracked hj := by
    simp only [State.unset, VarSet.contains_erase, Bool.and_eq_true] at hj
    simp only [State.unset, length_put]
    exact lt_max_of_lt_left (h.inside j htracked hj.1)
  doubt j hj := by
    obtain ⟨hne, hdoubt⟩ := inDoubt_unset hj
    rw [slot_unset, if_neg hne]
    exact h.doubt j hdoubt
  ordered := h.ordered.filter _

theorem WellFormed.narrow (h : s.WellFormed) (i : Nat) (t : TypeSet) :
    (s.narrow i t).WellFormed := by
  have hdoubt := fun j => zero_mem_narrow (j := j) h.doubt i t
  unfold State.narrow at hdoubt ⊢
  split at hdoubt
  · rw [if_pos ‹_›]
    refine ⟨h.certain, fun j htracked hj => ?_, hdoubt, h.ordered⟩
    simp only [length_put]
    exact lt_max_of_lt_left (h.inside j htracked hj)
  · rw [if_neg ‹_›]
    exact h

theorem WellFormed.addNote (h : s.WellFormed) (n : Note) : (s.addNote n).WellFormed :=
  { h with ordered := pairwise_notes_iff.2 ((pairwise_notes_iff.1 h.ordered).insertNew n) }

theorem WellFormed.removeNote (h : s.WellFormed) (n : Note) : (s.removeNote n).WellFormed :=
  { h with ordered := h.ordered.filter _ }

end Operations

/-! ### States that say the same -/

theorem agrees_refl (a : State) : a.agrees a = true := by
  simp [agrees]

theorem agrees_iff_le (ha : a.WellFormed) (hb : b.WellFormed) :
    a.agrees b = true ↔ a.scope = b.scope ∧ a ≤ b ∧ b ≤ a := by
  rw [agrees_eq_true]
  constructor
  · rintro ⟨hscope, hpos, hcer, hnotes, hslots⟩
    refine ⟨hscope, ⟨fun i => ?_, fun i hi => hpos ▸ hi, fun i hi => hcer ▸ hi, hnotes ▸ fun _ h => h⟩,
      ⟨fun i => ?_, fun i hi => hpos ▸ hi, fun i hi => hcer ▸ hi, hnotes ▸ fun _ h => h⟩⟩
    · rw [hslots i]
      exact TypeSet.le_refl _
    · rw [hslots i]
      exact TypeSet.le_refl _
  · rintro ⟨hscope, hab, hba⟩
    have hordered := pairwise_notes_iff.1 ha.ordered
    have hordered' := pairwise_notes_iff.1 hb.ordered
    refine ⟨hscope, ?_, ?_, ?_, fun i => TypeSet.le_antisymm (hab.slot i) (hba.slot i)⟩
    · exact VarSet.ext_contains fun i _ => Bool.eq_iff_iff.2 ⟨hab.possibly i, hba.possibly i⟩
    · exact VarSet.ext_contains fun i _ => Bool.eq_iff_iff.2 ⟨hba.certainly i, hab.certainly i⟩
    · exact hordered.eq_of_subset hordered' hba.notes (hordered'.nodup.subperm hab.notes).length_le

/-! ### Least upper bounds -/

/-- `c` is the least of the well-formed states of its scope that are above all states of `l`. -/
structure Least (l : List State) (c : State) : Prop where
  wellFormed : c.WellFormed
  scope : ∀ s ∈ l, s.scope = c.scope
  above : ∀ s ∈ l, s ≤ c
  least : ∀ d : State, d.WellFormed → d.scope = c.scope → (∀ s ∈ l, s ≤ d) → c ≤ d

theorem Least.agrees (hc : Least l c) (hd : Least m d) (hscope : c.scope = d.scope)
    (hlm : ∀ s ∈ l, s ≤ d) (hml : ∀ s ∈ m, s ≤ c) :
    c.agrees d = true :=
  (agrees_iff_le hc.wellFormed hd.wellFormed).2
    ⟨hscope, hc.least d hd.wellFormed hscope.symm hlm, hd.least c hc.wellFormed hscope hml⟩

theorem least_singleton (ha : a.WellFormed) : Least [a] a where
  wellFormed := ha
  scope s hs := by rw [mem_singleton.1 hs]
  above s hs := by
    rw [mem_singleton.1 hs]
    exact le_refl a
  least _ _ _ h := h a (mem_singleton_self a)

/-- **`join` is the least upper bound.** -/
theorem WellFormed.join_least (ha : a.WellFormed) (hb : b.WellFormed) (h : a.scope = b.scope) :
    ∃ c, a.join b = .ok c ∧ Least [a, b] c := by
  obtain ⟨c, hc, hscope, hlen, hpos, -, hnotes, -⟩ := join_slots h
  obtain ⟨hac, hbc, hdoubt, hleast⟩ := join_bounds hc
  have hposs : ∀ i, c.possibly.contains i = true →
      a.possibly.contains i = true ∨ b.possibly.contains i = true := by
    intro i hi
    rwa [hpos, VarSet.contains_union, Bool.or_eq_true] at hi
  have hwf : c.WellFormed := by
    refine ⟨fun i hi => hac.possibly i (ha.certain i (hac.certainly i hi)), fun i htracked hi => ?_,
      hdoubt, ?_⟩
    · rw [hlen]
      exact (hposs i hi).elim (fun hi => lt_max_of_lt_left (ha.inside i htracked hi))
        fun hi => lt_max_of_lt_right (hb.inside i htracked hi)
    · rw [hnotes]
      exact ha.ordered.filter _
  refine ⟨c, hc, hwf, ?_, ?_, fun d hd _ hbounds => ?_⟩
  · simp [hscope, h]
  · simp [hac, hbc]
  · exact hleast d hd.doubt (hbounds a (.head _))
      (hbounds b (.tail _ mem_cons_self))

theorem Least.trans (hc : Least l c) (hd : Least (c :: m) d) :
    Least (l ++ m) d where
  wellFormed := hd.wellFormed
  scope s hs := by
    rcases mem_append.1 hs with hs | hs
    · exact (hc.scope s hs).trans (hd.scope c (.head _))
    · exact hd.scope s (.tail _ hs)
  above s hs := by
    rcases mem_append.1 hs with hs | hs
    · exact le_trans (hc.above s hs) (hd.above c (.head _))
    · exact hd.above s (.tail _ hs)
  least e he hscope hbounds := by
    have hcd : c.scope = d.scope := hd.scope c (.head _)
    refine hd.least e he hscope fun s hs => ?_
    rcases mem_cons.1 hs with rfl | hs
    · exact hc.least e he (hscope.trans hcd.symm) fun s hs => hbounds s (mem_append_left m hs)
    · exact hbounds s (mem_append_right l hs)

theorem Least.perm (h : Least l c) (hlm : ∀ s, s ∈ m ↔ s ∈ l) :
    Least m c where
  wellFormed := h.wellFormed
  scope s hs := h.scope s ((hlm s).1 hs)
  above s hs := h.above s ((hlm s).1 hs)
  least d hd hscope hbounds := h.least d hd hscope fun s hs => hbounds s ((hlm s).2 hs)

/-! ### Several states -/

/-- The join of `a` and all of `l`, from left to right. -/
def joinAll (a : State) (l : List State) : Except Fault State := l.foldlM join a

theorem joinAll_least : ∀ {l : List State} {a : State}, a.WellFormed →
    (∀ s ∈ l, s.WellFormed ∧ s.scope = a.scope) → ∃ c, joinAll a l = .ok c ∧ Least (a :: l) c
  | [], a, ha, _ => ⟨a, rfl, least_singleton ha⟩
  | b :: l, a, ha, h => by
    obtain ⟨hb, hscope⟩ := h b (.head _)
    obtain ⟨c, hc, hleast⟩ := ha.join_least hb hscope.symm
    have hca : c.scope = a.scope := (hleast.scope a (.head _)).symm
    obtain ⟨d, hd, hleast'⟩ := joinAll_least hleast.wellFormed fun s hs =>
      ⟨(h s (.tail _ hs)).1, (h s (.tail _ hs)).2.trans hca.symm⟩
    refine ⟨d, ?_, hleast.trans hleast'⟩
    rw [joinAll, foldlM_cons, hc]
    exact hd

/-- Both joins succeed, with states that say the same. -/
def Concur (x y : Except Fault State) : Prop := ∃ a b, x = .ok a ∧ y = .ok b ∧ a.agrees b = true

section Laws

variable {a b c : State}

theorem join_comm (ha : a.WellFormed) (hb : b.WellFormed) (h : a.scope = b.scope) :
    Concur (a.join b) (b.join a) := by
  obtain ⟨x, hx, hleast⟩ := ha.join_least hb h
  obtain ⟨y, hy, hleast'⟩ := hb.join_least ha h.symm
  have hswap : Least [a, b] y := hleast'.perm fun s => by simp [or_comm]
  have hscope : x.scope = y.scope :=
    (hleast.scope a (.head _)).symm.trans (hswap.scope a (.head _))
  exact ⟨x, y, hx, hy, hleast.agrees hswap hscope hswap.above hleast.above⟩

theorem join_self (ha : a.WellFormed) : Concur (a.join a) (.ok a) := by
  obtain ⟨x, hx, hleast⟩ := ha.join_least ha rfl
  have hone : Least [a] x := hleast.perm fun s => by simp
  have hscope : x.scope = a.scope := (hone.scope a (.head _)).symm
  exact ⟨x, a, hx, rfl, hone.agrees (least_singleton ha) hscope (least_singleton ha).above hone.above⟩

theorem join_assoc (ha : a.WellFormed) (hb : b.WellFormed) (hc : c.WellFormed)
    (hab : a.scope = b.scope) (hbc : b.scope = c.scope) :
    Concur (a.join b >>= (·.join c)) (b.join c >>= a.join) := by
  obtain ⟨x, hx, hx'⟩ := ha.join_least hb hab
  obtain ⟨y, hy, hy'⟩ := hb.join_least hc hbc
  have hxc : x.scope = c.scope := (hx'.scope a (.head _)).symm.trans (hab.trans hbc)
  have hay : a.scope = y.scope := hab.trans (hy'.scope b (.head _))
  obtain ⟨u, hu, hu'⟩ := hx'.wellFormed.join_least hc hxc
  obtain ⟨v, hv, hv'⟩ := ha.join_least hy'.wellFormed hay
  have hleft : Least [a, b, c] u := hx'.trans hu'
  have hswap : Least [y, a] v := hv'.perm fun s => by simp [or_comm]
  have hright : Least [a, b, c] v := (hy'.trans hswap).perm fun s => by simp; tauto
  have hscope : u.scope = v.scope :=
    (hleft.scope a (.head _)).symm.trans (hright.scope a (.head _))
  refine ⟨u, v, ?_, ?_, hleft.agrees hright hscope hright.above hleft.above⟩
  · rw [hx]
    exact hu
  · rw [hy]
    exact hv

theorem joinAll_congr {l m : List State} (ha : a.WellFormed) (hb : b.WellFormed)
    (hl : ∀ s ∈ l, s.WellFormed ∧ s.scope = a.scope) (hm : ∀ s ∈ m, s.WellFormed ∧ s.scope = b.scope)
    (hlm : ∀ s ∈ a :: l, ∃ t ∈ b :: m, s.agrees t = true)
    (hml : ∀ t ∈ b :: m, ∃ s ∈ a :: l, t.agrees s = true) :
    Concur (joinAll a l) (joinAll b m) := by
  obtain ⟨x, hx, hx'⟩ := joinAll_least ha hl
  obtain ⟨y, hy, hy'⟩ := joinAll_least hb hm
  have hwl : ∀ s ∈ a :: l, s.WellFormed := forall_mem_cons.2 ⟨ha, fun s hs => (hl s hs).1⟩
  have hwm : ∀ s ∈ b :: m, s.WellFormed := forall_mem_cons.2 ⟨hb, fun s hs => (hm s hs).1⟩
  have hxy : ∀ s ∈ a :: l, s.scope = y.scope ∧ s ≤ y := by
    intro s hs
    obtain ⟨t, ht, hst⟩ := hlm s hs
    obtain ⟨hscope, hle, -⟩ := (agrees_iff_le (hwl s hs) (hwm t ht)).1 hst
    exact ⟨hscope.trans (hy'.scope t ht), le_trans hle (hy'.above t ht)⟩
  have hyx : ∀ t ∈ b :: m, t ≤ x := by
    intro t ht
    obtain ⟨s, hs, hts⟩ := hml t ht
    obtain ⟨-, hle, -⟩ := (agrees_iff_le (hwm t ht) (hwl s hs)).1 hts
    exact le_trans hle (hx'.above s hs)
  have hscope : x.scope = y.scope :=
    (hx'.scope a (.head _)).symm.trans (hxy a (.head _)).1
  exact ⟨x, y, hx, hy, hx'.agrees hy' hscope (fun s hs => (hxy s hs).2) hyx⟩

end Laws

/-- **Flow states form a semilattice.**  A state starts well formed, and every operation keeps
it so, for every variable and every types.  Well-formed states of one scope are ordered up to
what they say, and `join` is the least upper bound in that order; it is commutative, idempotent
and associative, and what the join of several states says depends only on which states, up to
what they say, are joined. -/
theorem join_semilattice :
    (∀ scope : Scope, (start scope).WellFormed) ∧
    (∀ s : State, s.WellFormed → ∀ (i : Nat) (t : TypeSet) (n : Note),
      (s.assign i t).WellFormed ∧ (s.narrow i t).WellFormed ∧ (s.unset i).WellFormed ∧
        (s.addNote n).WellFormed ∧ (s.removeNote n).WellFormed) ∧
    (∀ a b : State, a.WellFormed → b.WellFormed → a.scope = b.scope →
      (a.agrees b = true ↔ a ≤ b ∧ b ≤ a) ∧ (∃ c, a.join b = .ok c ∧ Least [a, b] c) ∧
        Concur (a.join b) (b.join a) ∧ Concur (a.join a) (.ok a) ∧
        ∀ c : State, c.WellFormed → c.scope = a.scope →
          Concur (a.join b >>= (·.join c)) (b.join c >>= a.join)) ∧
    ∀ (a b : State) (l m : List State),
      (∀ s ∈ a :: l, s.WellFormed ∧ s.scope = a.scope) →
      (∀ s ∈ b :: m, s.WellFormed ∧ s.scope = b.scope) →
      (∀ s ∈ a :: l, ∃ t ∈ b :: m, s.agrees t = true) →
      (∀ t ∈ b :: m, ∃ s ∈ a :: l, t.agrees s = true) → Concur (joinAll a l) (joinAll b m) := by
  refine ⟨wellFormed_start, fun s hs i t n => ⟨hs.assign i t, hs.narrow i t, hs.unset i, hs.addNote n,
    hs.removeNote n⟩, fun a b ha hb hscope => ⟨?_, ha.join_least hb hscope, join_comm ha hb hscope,
    join_self ha, fun c hc hca => join_assoc ha hb hc hscope (hscope.symm.trans hca.symm)⟩,
    fun a b l m hl hm hlm hml => ?_⟩
  · rw [agrees_iff_le ha hb, and_iff_right hscope]
  · exact joinAll_congr (hl a List.mem_cons_self).1 (hm b List.mem_cons_self).1
      (fun s hs => hl s (List.mem_cons_of_mem a hs)) (fun s hs => hm s (List.mem_cons_of_mem b hs))
      hlm hml

/-- One variable, which is an integer below the largest. -/
def counted : State :=
  ((start { id := 0, vars := [{ name := "n" }] }).assign 0 .int).addNote ⟨0, .belowMax⟩

/-- Made before any variable was declared; then the third tracked variable and one that is not
tracked were given values. -/
def extended : State := ((start { id := 0 }).assign 2 .string).assign 70 .bool

/-- Joining `counted` and `extended` leaves both tracked variables in doubt. -/
theorem counted_extended : counted.WellFormed ∧ extended.WellFormed ∧
    (∃ c, counted.join extended = .ok c ∧ Least [counted, extended] c ∧ c.inDoubt 0 = true ∧
      c.inDoubt 2 = true) ∧
    Concur (counted.join extended) (extended.join counted) ∧ Concur (counted.join counted) (.ok counted) ∧
    Concur (counted.join extended >>= (·.join extended)) (extended.join extended >>= counted.join) ∧
    Concur (joinAll counted [extended, counted]) (joinAll extended [counted]) := by
  obtain ⟨hstart, hkept, hlaws, hlists⟩ := join_semilattice
  have hc : counted.WellFormed :=
    (hkept _ (hkept _ (hstart _) 0 .int default).1 0 .void ⟨0, .belowMax⟩).2.2.2.1
  have he : extended.WellFormed :=
    (hkept _ (hkept _ (hstart _) 2 .string default).1 70 .bool default).1
  obtain ⟨-, ⟨c, hjoin, hleast⟩, hcomm, hself, hassoc⟩ := hlaws counted extended hc he rfl
  have hdoubt : ∀ c, counted.join extended = .ok c → c.inDoubt 0 = true ∧ c.inDoubt 2 = true := by
    intro c hjoin
    obtain rfl := Except.ok.inj hjoin
    decide
  refine ⟨hc, he, ⟨c, hjoin, hleast, hdoubt c hjoin⟩, hcomm, hself, hassoc extended he rfl,
    hlists counted extended [extended, counted] [counted] ?_ ?_ ?_ ?_⟩
  · simp [hc, he, show extended.scope = counted.scope from rfl]
  · simp [hc, he, show counted.scope = extended.scope from rfl]
  · simp [agrees_refl]
  · simp [agrees_refl]

end State
end Flow
end ShapeFlow
