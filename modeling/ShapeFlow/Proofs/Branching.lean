/-
# Branching loses nothing

A condition leaves one state for the outcome true, one for the outcome false, and
one for whatever it comes out.  A test narrows the types of variables in two ways
that complement each other; `!` exchanges the outcomes, and `&&` and `||` go
through their right operand only after one outcome of the left one.  Whatever a
condition is built of in this way, no type that a variable may have is missing from
both of its outcomes.

Notes are another matter, since which of them a comparison adds depends on what has
been recorded.  They are left out of the comparison of types (`State.bare`), and
looked at one by one: a note that holds after both outcomes held before one of
them, and it is one that the condition never drops.

Key definitions: `State.bare`, `Narrowing`, `Narrowing.Opposed`, `Outcomes.short`, `Outcomes.Splits`.
Key theorems: `Narrowing.Opposed.covers`, `Outcomes.splits_test`, `Outcomes.Splits.short`,
`Outcomes.Splits.either_le_join`.
-/
import ShapeFlow.Proofs.Interning
import ShapeFlow.Proofs.Longer
import ShapeFlow.Proofs.States

namespace ShapeFlow

open ShapeFlow.Flow Infer List TypeSet

/-! ### States without notes -/

namespace Flow.State

variable {s u a b c : State} {x : Nat} {m : TypeSet}

/-- The state without its notes. -/
def bare (s : State) : State := { s with notes := [] }

/-- No value of the state is known to be aliased. -/
def Unaliased (s : State) : Prop := ∀ i, (s.slot i).byRef = false

/-- What is in doubt may be null. -/
def Cautious (s : State) : Prop := ∀ i, s.inDoubt i = true → 0 ∈ s.slot i

theorem bare_narrow (s : State) (x : Nat) (m : TypeSet) :
    (s.narrow x m).bare = s.bare.narrow x m := by
  unfold narrow
  split <;> rfl

theorem bare_le (h : a ≤ b) : a.bare ≤ b.bare :=
  { h with notes := fun _ hn => hn }

theorem bare_join (h : a.join b = .ok c) : a.bare.join b.bare = .ok c.bare := by
  unfold join at h ⊢
  split at h
  next hscope =>
    rw [if_pos (show a.bare.scope = b.bare.scope from hscope)]
    obtain rfl := Except.ok.inj h
    rfl
  next => cases h

theorem Unaliased.of_bare (h : s.Unaliased) (hu : u.bare = s.bare) : u.Unaliased := by
  intro i
  have hslot : u.slot i = s.slot i := congrArg (·.slot i) hu
  rw [hslot]
  exact h i

theorem Unaliased.assign (h : s.Unaliased) (hm : m.byRef = false) : (s.assign x m).Unaliased := by
  intro i
  rw [slot_assign]
  split
  · exact hm
  · exact h i

theorem slot_narrow (s : State) (x i : Nat) (m : TypeSet) (hx : VarSet.tracked x = true) :
    (s.narrow x m).slot i = if x = i then (if s.inDoubt x then m ∪ .null else m) else s.slot i := by
  rw [narrow, if_pos hx]
  exact getD_put s.slots x i _

theorem mem_slot_narrow {j : Nat} (hx : VarSet.tracked x = true) (hj : j ∈ m) :
    j ∈ (s.narrow x m).slot x := by
  rw [slot_narrow s x x m hx, if_pos rfl]
  split
  · exact mem_union.2 (.inl hj)
  · exact hj

theorem Unaliased.narrow (h : s.Unaliased) (hm : m.byRef = false) : (s.narrow x m).Unaliased := by
  by_cases hx : VarSet.tracked x = true
  · intro i
    rw [slot_narrow s x i m hx]
    split
    · split
      · rw [byRef_union, hm]
        rfl
      · exact hm
    · exact h i
  · rw [State.narrow, if_neg hx]
    exact h

theorem Unaliased.join (ha : a.Unaliased) (hb : b.Unaliased) (h : a.join b = .ok c) :
    c.Unaliased := by
  have hscope : a.scope = b.scope := by
    by_contra hne
    rw [State.join, if_neg hne] at h
    cases h
  obtain ⟨c', hc', -, -, -, -, -, hslot⟩ := join_slots hscope
  obtain rfl : c' = c := Except.ok.inj (hc'.symm.trans h)
  intro i
  rw [hslot i]
  split <;> simp [ha i, hb i, null, single]

theorem scope_join (h : a.join b = .ok c) : c.scope = a.scope := by
  unfold State.join at h
  split at h
  · obtain rfl := Except.ok.inj h
    rfl
  · cases h

theorem mem_notes_join (h : a.join b = .ok c) {n : Note} :
    n ∈ c.notes ↔ n ∈ a.notes ∧ n ∈ b.notes := by
  unfold State.join at h
  split at h
  · obtain rfl := Except.ok.inj h
    simp only [mem_filter, contains_iff_mem]
  · cases h

end Flow.State

/-- The types of a value of types `m` that has been found to be of a kind. -/
def ShapeTable.found (t : ShapeTable) (m : TypeSet) (k : Kind) : TypeSet :=
  if (t.restrict m k).isVoid || (t.restrict m k).isAny then k.representative else t.restrict m k

/-! ### What tests tell -/

/-- What the outcome of a test tells of variables. -/
inductive Narrowing where
  | nothing
  /-- They are not null. -/
  | present (vars : List Nat)
  | absent (var : Nat)
  | kind (var : Nat) (k : Kind)
  | notKind (var : Nat) (k : Kind)
  | named (var : Nat) (className : String)
  /-- Some of the notes hold. -/
  | noted (notes : List Note)

namespace Narrowing

variable {t : ShapeTable} {E E' : Narrowing} {s s' m : State} {n : Note} {l : List Note} {x : Nat}

/-- The state after the variables have been found not to be null, one after the other. -/
def presence (vars : List Nat) (s : State) : State :=
  vars.foldl (fun s x => s.assign x ((current s x).remove .null)) s

/-- What is told of types and initialization. -/
def apply (t : ShapeTable) : Narrowing → State → State
  | nothing, s | noted _, s => s
  | present vars, s => presence vars s
  | absent x, s => s.narrow x .null
  | kind x k, s => s.assign x (t.found (current s x) k)
  | notKind x k, s => s.narrow x ((current s x).remove (t.ofKind k))
  | named x className, s => s.assign x (t.named className).1

/-- The notes that may be made. -/
def notes : Narrowing → List Note
  | noted ns => ns
  | _ => []

/-- The variables that are given a value. -/
def assigned : Narrowing → List Nat
  | present vars => vars
  | kind x _ | named x _ => [x]
  | _ => []

/-- The narrowing makes `s'` of `s`. -/
def Gives (t : ShapeTable) (E : Narrowing) (s s' : State) : Prop :=
  ∃ l, l ⊆ E.notes ∧ s' = l.foldl State.addNote (E.apply t s)

theorem foldl_addNote_bare (l : List Note) (s : State) : (l.foldl State.addNote s).bare = s.bare := by
  induction l generalizing s with
  | nil => rfl
  | cons n l ih => exact ih (s.addNote n)

theorem mem_foldl_addNote : n ∈ (l.foldl State.addNote s).notes → n ∈ l ∨ n ∈ s.notes := by
  induction l generalizing s with
  | nil => exact .inr
  | cons m l ih =>
    intro hn
    rcases ih hn with hl | hs
    · exact .inl (.tail _ hl)
    · rcases Sorted.mem_insertNew hs with rfl | hs
      · exact .inl (.head _)
      · exact .inr hs

theorem mem_insertNew_of_mem {m : Note} : ∀ {l : List Note}, n ∈ l → n ∈ Sorted.insertNew m l
  | b :: l, hn => by
    unfold Sorted.insertNew
    split
    · exact .tail _ hn
    · exact hn
    · rcases mem_cons.1 hn with rfl | hn
      · exact .head _
      · exact mem_cons_of_mem b (mem_insertNew_of_mem hn)

theorem mem_foldl_addNote_of_mem (hn : n ∈ s.notes) : n ∈ (l.foldl State.addNote s).notes := by
  induction l generalizing s with
  | nil => exact hn
  | cons m l ih => exact ih (mem_insertNew_of_mem hn)

theorem scope_foldl_addNote (l : List Note) (s : State) :
    (l.foldl State.addNote s).scope = s.scope := by
  induction l generalizing s with
  | nil => rfl
  | cons n l ih => exact ih (s.addNote n)

theorem scope_narrow (s : State) (x : Nat) (m : TypeSet) : (s.narrow x m).scope = s.scope := by
  unfold State.narrow
  split <;> rfl

theorem scope_presence (vars : List Nat) (s : State) : (presence vars s).scope = s.scope := by
  induction vars generalizing s with
  | nil => rfl
  | cons x vars ih => exact ih _

theorem scope_apply (t : ShapeTable) (E : Narrowing) (s : State) : (E.apply t s).scope = s.scope := by
  cases E with
  | present vars => exact scope_presence vars s
  | absent x => exact scope_narrow s x _
  | notKind x k => exact scope_narrow s x _
  | _ => rfl

theorem bare_presence (vars : List Nat) (s : State) :
    (presence vars s).bare = presence vars s.bare := by
  induction vars generalizing s with
  | nil => rfl
  | cons x vars ih => exact ih _

theorem bare_apply (t : ShapeTable) (E : Narrowing) (s : State) :
    (E.apply t s).bare = E.apply t s.bare := by
  cases E with
  | present vars => exact bare_presence vars s
  | absent x | notKind x => exact State.bare_narrow s x _
  | _ => rfl

theorem byRef_current (s : State) (x : Nat) : (current s x).byRef = false := by
  unfold current
  dsimp only
  split <;> rfl

theorem byRef_representative (k : Kind) : k.representative.byRef = false := by
  cases k <;> rfl

theorem byRef_found (t : ShapeTable) (m : TypeSet) (k : Kind) : (t.found m k).byRef = false := by
  unfold ShapeTable.found
  split
  · exact byRef_representative k
  · unfold ShapeTable.restrict
    split <;> rfl

theorem byRef_intern (t : ShapeTable) (sh : Shape) : (t.intern sh).1.byRef = false := by
  rcases t.intern_cases sh with ⟨_, -, h⟩ | ⟨-, ⟨-, h, -⟩ | ⟨-, h⟩⟩ <;> rw [h] <;> rfl

theorem unaliased_presence (vars : List Nat) (h : s.Unaliased) : (presence vars s).Unaliased := by
  induction vars generalizing s with
  | nil => exact h
  | cons x vars ih => exact ih (h.assign ((byRef_remove _ _).trans (byRef_current s x)))

theorem unaliased_apply (E : Narrowing) (h : s.Unaliased) : (E.apply t s).Unaliased := by
  cases E with
  | nothing => exact h
  | noted ns => exact h
  | present vars => exact unaliased_presence vars h
  | absent x => exact h.narrow rfl
  | kind x k => exact h.assign (byRef_found t _ k)
  | notKind x k => exact h.narrow ((byRef_remove _ _).trans (byRef_current s x))
  | named x className => exact h.assign (byRef_intern t _)

theorem notes_narrow (s : State) (x : Nat) (m : TypeSet) : (s.narrow x m).notes = s.notes := by
  unfold State.narrow
  split <;> rfl

theorem mem_notes_assign {m : TypeSet} : n ∈ (s.assign x m).notes ↔ n ∈ s.notes ∧ n.var ≠ x := by
  simp [State.assign]

theorem mem_notes_presence (vars : List Nat) :
    n ∈ (presence vars s).notes ↔ n ∈ s.notes ∧ n.var ∉ vars := by
  induction vars generalizing s with
  | nil => simp [presence]
  | cons x vars ih =>
    have hstep : presence (x :: vars) s = presence vars (s.assign x ((current s x).remove .null)) := rfl
    rw [hstep, ih, mem_notes_assign, mem_cons, not_or, and_assoc]

/-- A value that is given makes notes of the old one void. -/
theorem mem_notes_apply : n ∈ (E.apply t s).notes ↔ n ∈ s.notes ∧ n.var ∉ E.assigned := by
  cases E with
  | nothing => simp [apply, assigned]
  | noted ns => simp [apply, assigned]
  | present vars => exact mem_notes_presence vars
  | absent x => simp [apply, assigned, notes_narrow]
  | kind x k => simp [apply, assigned, mem_notes_assign]
  | notKind x k => simp [apply, assigned, notes_narrow]
  | named x className => simp [apply, assigned, mem_notes_assign]

/-! ### Opposed outcomes -/

/-- Between them the two leave nothing out. -/
inductive Opposed : Narrowing → Narrowing → Prop
  | nothing (E : Narrowing) : Opposed E nothing
  | noted (ns : List Note) (E : Narrowing) : Opposed (noted ns) E
  | present (x : Nat) : Opposed (present [x]) (absent x)
  | kind (x : Nat) (k : Kind) : Opposed (kind x k) (notKind x k)
  | symm {E E' : Narrowing} : Opposed E E' → Opposed E' E

theorem mem_current {j : Nat} (hx : VarSet.tracked x = true) (hj : j ∈ s.slot x) :
    j ∈ current s x := by
  have hget : j ∈ (s.get x).plain := by
    rw [State.get, if_pos hx]
    exact hj
  unfold current
  dsimp only
  split
  · exact hget
  · exact mem_union.2 (.inl hget)

theorem le_of_parted {p q : TypeSet} (hs : s.Unaliased) (hparts : ∀ i ∈ current s x, i ∈ p ∨ i ∈ q)
    (hp : s.assign x p ≤ m) (hq : s.narrow x q ≤ m) : s ≤ m := by
  by_cases hx : VarSet.tracked x = true
  · have hsame : s.narrow x q = { s with slots := (s.narrow x q).slots } := by
      rw [State.narrow, if_pos hx]
    refine ⟨fun i => ?_, fun i hi => hq.possibly i (by rw [hsame]; exact hi), fun i hi => ?_, ?_⟩
    · have hi := hp.slot i
      rw [State.slot_assign] at hi
      split at hi
      next hxi =>
        subst hxi
        refine ⟨fun j hj => ?_, fun href => absurd href (by rw [hs x]; exact Bool.false_ne_true)⟩
        rcases hparts j (mem_current hx hj) with hjp | hjq
        · exact hi.1 j hjp
        · exact (hq.slot x).1 j (State.mem_slot_narrow hx hjq)
      next => exact hi
    · have := hq.certainly i hi
      rw [hsame] at this
      exact this
    · have := hq.notes
      rwa [notes_narrow] at this
  · rw [State.narrow, if_neg hx] at hq
    exact hq

theorem mem_found {m : TypeSet} {k : Kind} {i : Nat} (hi : i ∈ m) (hany : ¬ m.isAny = true)
    (hk : i ∈ t.ofKind k) : i ∈ t.found m k := by
  have hmem : i ∈ t.restrict m k := by
    rw [ShapeTable.restrict, if_neg hany]
    exact mem_common.2 ⟨hi, hk⟩
  have hnot : ¬ ((t.restrict m k).isVoid || (t.restrict m k).isAny) = true := by
    rw [Bool.or_eq_true, not_or]
    refine ⟨fun hvoid => isVoid_iff.1 hvoid i hmem, fun hall => hany ?_⟩
    rw [ShapeTable.restrict, if_neg hany] at hall
    exact isAny_iff.2 fun j hj => (mem_common.1 (isAny_iff.1 hall j hj)).1
  rw [ShapeTable.found, if_neg hnot]
  exact hmem

/-- **Opposed outcomes** leave out nothing of what held before. -/
theorem Opposed.covers (h : Opposed E E') (hs : s.Unaliased) (hE : E.apply t s ≤ m)
    (hE' : E'.apply t s ≤ m) : s ≤ m := by
  induction h with
  | nothing => exact hE'
  | noted => exact hE
  | present x =>
    refine le_of_parted hs (fun i hi => ?_) hE hE'
    by_cases hnull : i ∈ null
    · exact .inr hnull
    · exact .inl (mem_remove.2 ⟨hi, .inr hnull⟩)
  | kind x k =>
    refine le_of_parted hs (fun i hi => ?_) hE hE'
    by_cases hany : (current s x).isAny = true
    · exact .inr (mem_remove.2 ⟨hi, .inl hany⟩)
    · by_cases hk : i ∈ t.ofKind k
      · exact .inl (mem_found hi hany hk)
      · exact .inr (mem_remove.2 ⟨hi, .inr hk⟩)
  | symm _ ih => exact ih hE' hE

/-! ### Narrowings with their notes -/

theorem Gives.scope (h : E.Gives t s s') : s'.scope = s.scope := by
  obtain ⟨l, -, rfl⟩ := h
  rw [scope_foldl_addNote, scope_apply]

theorem Gives.bare (h : E.Gives t s s') : s'.bare = E.apply t s.bare := by
  obtain ⟨l, -, rfl⟩ := h
  rw [foldl_addNote_bare, bare_apply]

theorem Gives.unaliased (h : E.Gives t s s') (hs : s.Unaliased) : s'.Unaliased := by
  refine (unaliased_apply (t := t) E hs).of_bare ?_
  rw [h.bare, bare_apply]

theorem Gives.mem_notes (h : E.Gives t s s') (hn : n ∈ s.notes) (hvar : n.var ∉ E.assigned) :
    n ∈ s'.notes := by
  obtain ⟨l, -, rfl⟩ := h
  exact mem_foldl_addNote_of_mem (mem_notes_apply.2 ⟨hn, hvar⟩)

theorem Gives.of_mem_notes (h : E.Gives t s s') (hn : n ∈ s'.notes) :
    n.var ∉ E.assigned ∧ (n ∈ s.notes ∨ n ∈ E.notes) := by
  obtain ⟨l, hl, rfl⟩ := h
  rcases mem_foldl_addNote hn with hmade | hkept
  · refine ⟨?_, .inr (hl hmade)⟩
    cases E with
    | noted ns => exact not_mem_nil
    | _ => cases hl hmade
  · obtain ⟨hs, hvar⟩ := mem_notes_apply.1 hkept
    exact ⟨hvar, .inl hs⟩

end Narrowing

/-! ### Conditions as relations -/

/-- What a condition makes of a state under each outcome. -/
abbrev Outcomes := Branch → State → State → Prop

namespace Outcomes

variable {b : Branch} {s s' u v y n a : State}

/-- A test, which by itself changes nothing. -/
def test (t : ShapeTable) (E : Bool → Narrowing) : Outcomes
  | .either, s, s' => s' = s
  | .holds, s, s' => (E true).Gives t s s'
  | .fails, s, s' => (E false).Gives t s s'

/-- The outcomes exchanged. -/
def negated (L : Outcomes) : Outcomes := fun b => L b.negate

/-- The right operand is gone through only if the left one came out as `runs`. -/
def short (runs : Branch) (L R : Outcomes) : Outcomes := fun b s s' =>
  if b = runs then ∃ u, L runs s u ∧ R b u s'
  else ∃ d u v, L runs.negate s d ∧ L runs s u ∧ R b u v ∧ d.join v = .ok s'

/-- No outcome drops the note. -/
def Preserves (L : Outcomes) (n : Note) : Prop := ∀ b s s', L b s s' → n ∈ s.notes → n ∈ s'.notes

/-- What holds of conditions, whatever notes the states they are looked at in have. -/
structure Splits (L : Outcomes) : Prop where
  scope : ∀ {b s s'}, L b s s' → s'.scope = s.scope
  unaliased : ∀ {b s s'}, L b s s' → s.Unaliased → s'.Unaliased
  /-- Types and initialization do not depend on notes. -/
  settled : ∀ {b s s' u u'}, L b s s' → L b u u' → s.bare = u.bare → s'.bare = u'.bare
  /-- What holds whatever it comes out holds after one of the outcomes. -/
  lossless : ∀ {o s u v a y n m}, o ≠ .either → s.Unaliased → u.bare = s.bare → v.bare = s.bare →
    L .either s a → L o u y → L o.negate v n → m.Cautious → y.bare ≤ m → n.bare ≤ m → a.bare ≤ m
  /-- A note after both outcomes held before one of them, and is never dropped. -/
  notes : ∀ {o u v y n k}, o ≠ .either → L o u y → L o.negate v n → k ∈ y.notes → k ∈ n.notes →
    (k ∈ u.notes ∨ k ∈ v.notes) ∧ L.Preserves k

variable {t : ShapeTable} {E : Bool → Narrowing} {L R : Outcomes} {runs : Branch} {k : Note}

theorem negate_negate (b : Branch) : b.negate.negate = b := by
  cases b <;> rfl

theorem negate_ne_either (h : b ≠ .either) : b.negate ≠ .either := by
  cases b <;> first | exact absurd rfl h | decide

theorem negate_ne_self (h : b ≠ .either) : b.negate ≠ b := by
  cases b <;> first | exact absurd rfl h | decide

theorem eq_or_eq_negate {c : Branch} (hb : b ≠ .either) (hc : c ≠ .either) :
    b = c ∨ b = c.negate := by
  cases b <;> cases c <;> first | exact absurd rfl hb | exact absurd rfl hc | decide

/-! ### Tests -/

theorem test_cases (h : test t E b s s') : b = .either ∧ s' = s ∨ ∃ o, (E o).Gives t s s' := by
  cases b with
  | either => exact .inl ⟨rfl, h⟩
  | holds => exact .inr ⟨true, h⟩
  | fails => exact .inr ⟨false, h⟩

theorem test_notes (hquiet : (E false).notes = []) (hy : (E true).Gives t u y)
    (hn : (E false).Gives t v n) (hky : k ∈ y.notes) (hkn : k ∈ n.notes) :
    k ∈ v.notes ∧ (test t E).Preserves k := by
  obtain ⟨htrue, -⟩ := hy.of_mem_notes hky
  obtain ⟨hfalse, hheld⟩ := hn.of_mem_notes hkn
  rw [hquiet] at hheld
  refine ⟨hheld.resolve_right not_mem_nil, fun b s s' h hk => ?_⟩
  cases b with
  | either =>
    obtain rfl := h
    exact hk
  | holds => exact Narrowing.Gives.mem_notes h hk htrue
  | fails => exact Narrowing.Gives.mem_notes h hk hfalse

/-- **A test** with opposed outcomes, of which one makes no notes. -/
theorem splits_test (hopposed : (E true).Opposed (E false)) (hquiet : (E false).notes = []) :
    (test t E).Splits where
  scope {b s s'} h := by
    rcases test_cases h with ⟨-, rfl⟩ | ⟨o, h⟩
    · rfl
    · exact h.scope
  unaliased {b s s'} h hs := by
    rcases test_cases h with ⟨-, rfl⟩ | ⟨o, h⟩
    · exact hs
    · exact h.unaliased hs
  settled {b s s' u u'} h h' hbare := by
    cases b with
    | either =>
      obtain rfl := h
      obtain rfl := h'
      exact hbare
    | holds | fails => rw [Narrowing.Gives.bare h, Narrowing.Gives.bare h', hbare]
  lossless {o s u v a y n m} ho hs hu hv ha hy hn _ hym hnm := by
    obtain rfl := ha
    have hbare : a.bare.Unaliased := hs
    cases o with
    | either => exact absurd rfl ho
    | holds =>
      rw [Narrowing.Gives.bare hy, hu] at hym
      rw [Narrowing.Gives.bare hn, hv] at hnm
      exact hopposed.covers hbare hym hnm
    | fails =>
      rw [Narrowing.Gives.bare hy, hu] at hym
      rw [Narrowing.Gives.bare hn, hv] at hnm
      exact hopposed.covers hbare hnm hym
  notes {o u v y n k} ho hy hn hky hkn := by
    cases o with
    | either => exact absurd rfl ho
    | holds => exact (test_notes hquiet hy hn hky hkn).imp_left .inr
    | fails => exact (test_notes hquiet hn hy hkn hky).imp_left .inl

/-! ### Negation -/

theorem Splits.negated (h : L.Splits) : L.negated.Splits where
  scope := h.scope
  unaliased := h.unaliased
  settled := h.settled
  lossless ho := h.lossless (negate_ne_either ho)
  notes ho hy hn hky hkn := by
    obtain ⟨hheld, hkept⟩ := h.notes (negate_ne_either ho) hy hn hky hkn
    exact ⟨hheld, fun b => hkept b.negate⟩

/-! ### Conjunction and disjunction -/

theorem short_through (h : short runs L R runs s s') : ∃ u, L runs s u ∧ R runs u s' := by
  unfold short at h
  rwa [if_pos rfl] at h

theorem short_cut (hb : b ≠ runs) (h : short runs L R b s s') :
    ∃ d u v, L runs.negate s d ∧ L runs s u ∧ R b u v ∧ d.join v = .ok s' := by
  unfold short at h
  rwa [if_neg hb] at h

theorem short_lossless (hL : L.Splits) (hR : R.Splits) (hruns : runs ≠ .either) {m : State}
    (hs : s.Unaliased) (hu : u.bare = s.bare) (hv : v.bare = s.bare)
    (ha : short runs L R .either s a) (hy : short runs L R runs u y)
    (hn : short runs L R runs.negate v n) (hm : m.Cautious) (hym : y.bare ≤ m) (hnm : n.bare ≤ m) :
    a.bare ≤ m := by
  obtain ⟨d1, u1, v1, hd1, hu1, hv1, ha⟩ := short_cut (Ne.symm hruns) ha
  obtain ⟨u2, hu2, hy⟩ := short_through hy
  obtain ⟨d3, u3, v3, hd3, hu3, hv3, hn⟩ := short_cut (negate_ne_self hruns) hn
  obtain ⟨hd3n, hv3n, -, -⟩ := State.join_bounds hn
  -- where the left operand decides, the outcome is `runs.negate`
  have hd : d1.bare ≤ m := by
    rw [hL.settled hd1 hd3 hv.symm]
    exact State.le_trans (State.bare_le hd3n) hnm
  -- where it does not, the right operand splits what it leaves
  have hv : v1.bare ≤ m :=
    hR.lossless hruns (hL.unaliased hu1 hs) (hL.settled hu2 hu1 hu) (hL.settled hu3 hu1 hv) hv1 hy hv3
      hm hym (State.le_trans (State.bare_le hv3n) hnm)
  exact (State.join_bounds (State.bare_join ha)).2.2.2 m hm hd hv

theorem short_notes (hL : L.Splits) (hR : R.Splits) (hruns : runs ≠ .either)
    (hy : short runs L R runs u y) (hn : short runs L R runs.negate v n) (hky : k ∈ y.notes)
    (hkn : k ∈ n.notes) : (k ∈ u.notes ∨ k ∈ v.notes) ∧ (short runs L R).Preserves k := by
  obtain ⟨x, hx, hy⟩ := short_through hy
  obtain ⟨d, z, w, hd, hz, hw, hn⟩ := short_cut (negate_ne_self hruns) hn
  obtain ⟨hkd, hkw⟩ := (State.mem_notes_join hn).1 hkn
  -- a note after both outcomes of the right operand held after the left one, which it then
  -- has in common with the state in which that decided
  obtain ⟨hkxz, hkeptR⟩ := hR.notes hruns hy hw hky hkw
  have hleft : (k ∈ u.notes ∨ k ∈ v.notes) ∧ L.Preserves k := by
    rcases hkxz with hkx | hkz
    · exact hL.notes hruns hx hd hkx hkd
    · exact (hL.notes hruns hz hd hkz hkd).imp_left fun hk => .inr (or_self_iff.1 hk)
  refine ⟨hleft.1, fun b s s' h hk => ?_⟩
  by_cases hb : b = runs
  · subst hb
    obtain ⟨u, hu, hs'⟩ := short_through h
    exact hkeptR _ _ _ hs' (hleft.2 _ _ _ hu hk)
  · obtain ⟨d, u, v, hd, hu, hv, hs'⟩ := short_cut hb h
    exact (State.mem_notes_join hs').2
      ⟨hleft.2 _ _ _ hd hk, hkeptR _ _ _ hv (hleft.2 _ _ _ hu hk)⟩

/-- **Going through the right operand after one outcome of the left one.** -/
theorem Splits.short (hL : L.Splits) (hR : R.Splits) (hruns : runs ≠ .either) :
    (short runs L R).Splits where
  scope {b s s'} h := by
    by_cases hb : b = runs
    · subst hb
      obtain ⟨u, hu, hs'⟩ := short_through h
      exact (hR.scope hs').trans (hL.scope hu)
    · obtain ⟨d, u, v, hd, -, -, hs'⟩ := short_cut hb h
      exact (State.scope_join hs').trans (hL.scope hd)
  unaliased {b s s'} h hs := by
    by_cases hb : b = runs
    · subst hb
      obtain ⟨u, hu, hs'⟩ := short_through h
      exact hR.unaliased hs' (hL.unaliased hu hs)
    · obtain ⟨d, u, v, hd, hu, hv, hs'⟩ := short_cut hb h
      exact (hL.unaliased hd hs).join (hR.unaliased hv (hL.unaliased hu hs)) hs'
  settled {b s s' u u'} h h' hbare := by
    by_cases hb : b = runs
    · subst hb
      obtain ⟨x, hx, hs'⟩ := short_through h
      obtain ⟨x', hx', hu'⟩ := short_through h'
      exact hR.settled hs' hu' (hL.settled hx hx' hbare)
    · obtain ⟨d, x, v, hd, hx, hv, hs'⟩ := short_cut hb h
      obtain ⟨d', x', v', hd', hx', hv', hu'⟩ := short_cut hb h'
      have hjoin := State.bare_join hs'
      rw [hL.settled hd hd' hbare, hR.settled hv hv' (hL.settled hx hx' hbare)] at hjoin
      exact Except.ok.inj (hjoin.symm.trans (State.bare_join hu'))
  lossless {o s u v a y n m} ho hs hu hv ha hy hn hm hym hnm := by
    rcases eq_or_eq_negate ho hruns with rfl | rfl
    · exact short_lossless hL hR hruns hs hu hv ha hy hn hm hym hnm
    · rw [negate_negate] at hn
      exact short_lossless hL hR hruns hs hv hu ha hn hy hm hnm hym
  notes {o u v y n k} ho hy hn hky hkn := by
    rcases eq_or_eq_negate ho hruns with rfl | rfl
    · exact short_notes hL hR hruns hy hn hky hkn
    · rw [negate_negate] at hn
      exact (short_notes hL hR hruns hn hy hkn hky).imp_left Or.symm

/-! ### The outcomes together -/

/-- **The state for whatever a condition comes out** is below the join of the states for its two
outcomes, and only notes from before are left in that. -/
theorem Splits.either_le_join (h : L.Splits) (hs : s.Unaliased) (ha : L .either s a)
    (hy : L .holds s y) (hn : L .fails s n) :
    ∃ m, y.join n = .ok m ∧ a ≤ m ∧ ∀ k ∈ m.notes, k ∈ s.notes := by
  have hholds : Branch.holds ≠ .either := by decide
  obtain ⟨m, hm, -⟩ := State.join_slots ((h.scope hy).trans (h.scope hn).symm)
  obtain ⟨hym, hnm, hcautious, -⟩ := State.join_bounds hm
  have hle : a.bare ≤ m.bare :=
    h.lossless hholds hs rfl rfl ha hy hn hcautious (State.bare_le hym) (State.bare_le hnm)
  have hnotes : ∀ k ∈ m.notes, k ∈ s.notes ∧ L.Preserves k := by
    intro k hk
    obtain ⟨hky, hkn⟩ := (State.mem_notes_join hm).1 hk
    exact (h.notes hholds hy hn hky hkn).imp_left or_self_iff.1
  refine ⟨m, hm, ⟨hle.slot, hle.possibly, hle.certainly, fun k hk => ?_⟩, fun k hk => (hnotes k hk).1⟩
  exact (hnotes k hk).2 _ _ _ ha (hnotes k hk).1

end Outcomes

end ShapeFlow
