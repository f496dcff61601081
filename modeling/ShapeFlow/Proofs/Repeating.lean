/-
# Expressions evaluated again

An expression that is evaluated twice from the same state, the second time with all
that the first time left behind, has the same types, leaves the same state and adds no
fact.  That takes two things.  Its nodes have numbers of their own, so that what was
recorded for one is not what another recorded.  And what it stores into is a variable, a
field or an element of one: such a place may be gone through more than once in one walk,
from states that differ, so it must not read what was recorded for it.

Conditions are gone through once for either outcome.  The second time in one walk is
already a repetition, whichever outcome it is for.

Key definitions: `Expr.IsSteady`, `Absorbs`, `Echoes`.
Key theorem: `meaning_echoes`.
-/
import ShapeFlow.Proofs.Landing
import ShapeFlow.Proofs.Overloads
import ShapeFlow.Proofs.Replays

namespace ShapeFlow

open ShapeFlow.Flow List TypeSet

/-! ### Places and numbers -/

namespace Expr

variable {α : Type}

/-- A variable or a literal. -/
def isAtom : Expr α → Bool
  | lit .. | var .. => true
  | _ => false

/-- A variable, or a field or an element of one; keys are variables and literals. -/
def isPlace : Expr α → Bool
  | .var .. => true
  | .field _ object _ => object.isPlace
  | .item _ within key => within.isPlace && key.isAtom
  | .append _ within => within.isPlace
  | _ => false

/-- What the expression itself stores into. -/
def target? : Expr α → Option (Expr α)
  | assign _ target _ | update _ _ target _ | step _ _ target => some target
  | _ => none

/-- Whatever is stored into is a place. -/
def IsSteady (e : Expr α) : Prop := ∀ x ∈ e.walk, ∀ y ∈ x.target?, y.isPlace = true

variable {e x : Expr α}

theorem IsSteady.operand (h : e.IsSteady) (hx : x ∈ e.operands) : x.IsSteady :=
  fun y hy => h y (mem_walk_of_operand hx hy)

theorem IsSteady.target (h : e.IsSteady) (hx : e.target? = some x) :
    x.isPlace = true := h e e.mem_walk_self x hx

/-- The numbers of the nodes. -/
def tags (e : Expr Nat) : Set Nat := {k | ∃ x ∈ e.walk, x.tag = k}

theorem tag_mem_tags (e : Expr Nat) : e.tag ∈ e.tags := ⟨e, e.mem_walk_self, rfl⟩

end Expr

open ShapeFlow.Expr (meaning meanings operands tags tag_mem_tags)

namespace Infer

variable {e x : Expr Nat} {runs b : Branch} {es : List (Expr Nat)} {m n : Walk TypeSet}
  {w w' : Walker}

/-- The numbers of the nodes below `e`. -/
abbrev inner (e : Expr Nat) : Set Nat := forSome Expr.tags e.operands

theorem tags_eq (e : Expr Nat) : e.tags = inner e ∪ {e.tag} := by
  ext k
  constructor
  · rintro ⟨y, hy, rfl⟩
    rcases Expr.mem_walk.1 hy with rfl | ⟨x, hx, hyx⟩
    · exact .inr rfl
    · exact .inl ⟨x, hx, y, hyx, rfl⟩
  · rintro (⟨x, hx, y, hy, rfl⟩ | rfl)
    · exact ⟨y, Expr.mem_walk_of_operand hx hy, rfl⟩
    · exact e.tag_mem_tags

theorem inner_subset (e : Expr Nat) : inner e ⊆ e.tags := by
  rw [tags_eq]
  exact Set.subset_union_left

theorem heads_subset (es : List (Expr Nat)) : heads es ⊆ forSome tags es := by
  rintro k ⟨x, hx, rfl⟩
  exact ⟨x, hx, x.tag_mem_tags⟩

theorem tags_subset (hx : x ∈ es) : x.tags ⊆ forSome tags es :=
  fun _ hk => ⟨x, hx, hk⟩

theorem TagsUnique.tag_notMem (h : TagsUnique [e]) : e.tag ∉ inner e := by
  rintro ⟨x, hx, y, hy, heq⟩
  exact h.tag_ne hx hy heq.symm

theorem TagsUnique.untouched : ∀ {es : List (Expr Nat)}, TagsUnique es → Untouched tags tags es
  | [], _ => .nil
  | e :: es, h => by
    have hwalks : (e.walk.map Expr.tag ++ (es.flatMap Expr.walk).map Expr.tag).Nodup := by
      simpa [TagsUnique] using h
    obtain ⟨-, hrest, hne⟩ := nodup_append.1 hwalks
    refine pairwise_cons.2 ⟨fun y hy => Set.disjoint_left.2 ?_, TagsUnique.untouched hrest⟩
    rintro k ⟨a, ha, rfl⟩ ⟨b, hb, heq⟩
    exact hne _ (mem_map_of_mem ha) _
      (mem_map_of_mem (mem_flatMap.2 ⟨y, hy, hb⟩)) heq.symm

theorem TagsUnique.disjoint {l r : Expr Nat} (h : TagsUnique [l, r]) : Disjoint l.tags r.tags :=
  (pairwise_cons.1 h.untouched).1 r (.head _)

variable {β γ : Type} {g : Place} {c' : Setting} {t : ShapeTable} {M T : Set Nat} {p q : Prop}
  {old value s : TypeSet} {R : TypeSet → ShapeTable → Prop} {step : Setting → Walk TypeSet}

/-! ### Places -/

/-- Stored into or read, the place reads no fact. -/
structure Absorbs (g : Place) (c' : Setting) (e : Expr Nat) : Prop where
  value : ∀ t, Replays g c' t ∅ e.tags True True (e.meaning g.setting).value (e.meaning c').value
    fun s t => t.Knows s
  quiet : ∀ t, Replays g c' t ∅ e.tags True True (e.meaning g.setting).quiet (e.meaning c').quiet
    fun s t => t.Knows s
  store : ∀ t s, t.Knows s → Replays g c' t ∅ e.tags True True ((e.meaning g.setting).store s)
    ((e.meaning c').store s) fun _ _ => True

theorem readVariable_absorbs {k : Nat} {name : String} (he : Fits g (.var k name)) (quiet : Bool) :
    Refinds g c' t ∅ (Expr.var k name).tags (recorded k (readVariable k name quiet))
      (recorded k (readVariable k name quiet)) := by
  have hk : {k} ⊆ (Expr.var k name).tags := Set.singleton_subset_iff.2 (tag_mem_tags _)
  exact (recorded_replays he.tag (Set.notMem_empty k) (readVariable_replays he.tag
    (he.named name rfl) quiet)).widen (le_refl _) (Set.union_subset hk hk)

theorem atom_absorbs (he : Fits g e) (hatom : e.isAtom = true) :
    Refinds g c' t ∅ e.tags (e.meaning g.setting).value (e.meaning c').value := by
  cases e with
  | lit k kind =>
    rw [meaning, meaning]
    exact (recorded_replays he.tag (Set.notMem_empty k)
      (.pure_of_valid fun t' ht' _ => ht'.knows_literal kind)).widen (le_refl _)
      (Set.union_subset (Set.empty_subset _) (Set.singleton_subset_iff.2 (tag_mem_tags _)))
  | var k name =>
    rw [meaning, meaning]
    exact readVariable_absorbs he false
  | _ => cases hatom

/-- Makes room in `old` for elements of types `value`. -/
def grow (old value : TypeSet) : Walk TypeSet := do
  match (← getTable).updated old value with
  | some (new, table) =>
    modify fun w => { w with table }
    return new
  | none => throw .unknownShape

theorem storeElement_eq (m : Meaning) (value : TypeSet) :
    m.storeElement value = m.quiet >>= fun old => grow old value >>= m.store := by
  unfold Meaning.storeElement grow
  refine bind_congr fun old => ?_
  rw [bind_assoc]
  refine bind_congr fun t => ?_
  rcases t.updated old value with _ | ⟨new, table⟩ <;> rfl

theorem of_grow (h : grow old value w = .ok s w') :
    ∃ table, w.table.updated old value = some (s, table) ∧ w' = { w with table } := by
  unfold grow at h
  rw [getTable_bind] at h
  rcases hnew : w.table.updated old value with _ | ⟨new, table⟩ <;> simp only [hnew] at h
  · cases h
  · cases h
    exact ⟨table, rfl, rfl⟩

theorem grow_replays (hold : t.Knows old) (hvalue : t.Knows value) :
    Replays g c' t ∅ ∅ p p (grow old value) (grow old value) fun s t => t.Knows s := by
  refine .of_keeping (fun c w a w' hw ht hrun => ?_) fun w a w' v b v' hw hv ht hm hn hrec => ?_
  · obtain ⟨new, t', hnew, ht', hext, hknown⟩ :=
      ShapeTable.updated_spec hw.table (hold.mono ht) (hvalue.mono ht)
    obtain ⟨table, htable, rfl⟩ := of_grow hrun
    rw [hnew] at htable
    cases htable
    exact ⟨hw.withTable ht' hext, writes_same hext rfl rfl, hknown⟩
  · obtain ⟨table, htable, rfl⟩ := of_grow hm
    obtain ⟨table', htable', rfl⟩ := of_grow hn
    rw [ShapeTable.updated_again hw.table (hold.mono ht) (hvalue.mono ht) htable hrec.table]
      at htable'
    cases htable'
    exact ⟨rfl, rfl, fun _ hx => .inl hx, hrec.state, fun _ => rfl⟩

theorem Absorbs.storeElement (h : Absorbs g c' e) (hs : t.Knows s) :
    Replays g c' t ∅ e.tags True True ((e.meaning g.setting).storeElement s)
      ((e.meaning c').storeElement s) fun _ _ => True := by
  rw [storeElement_eq, storeElement_eq]
  refine (h.quiet t).also fun old t1 ht1 hold => ?_
  exact (grow_replays hold (hs.mono ht1)).next fun new t2 _ hnew => h.store t2 new hnew

theorem Replays.thenAny (h : Refinds g c' t M T m n) :
    Refinds g c' t M T (do let _ ← m; return .any) (do let _ ← n; return .any) :=
  h.last fun _ _ _ _ => .pure fun _ _ => ShapeTable.knows_any

theorem element_refinds {M1 T1 M2 T2 : Set Nat} {k k' : Walk TypeSet}
    (hm : Refinds g c' t M1 T1 m n) (hk : ∀ t, Refinds g c' t M2 T2 k k') (hfree : Disjoint M1 T2)
    (hM : M1 ∪ M2 ⊆ M) (hT : T1 ∪ T2 ⊆ T) : Refinds g c' t M T
      (do let s ← m; let _ ← k; elementOf s) (do let s ← n; let _ ← k'; elementOf s) :=
  hm.seq M2 T2 (fun _ t1 _ hs => (hk t1).last fun _ _ ht2 _ => elementOf_replays (hs.mono ht2)) hfree
    id hM hT

theorem place_absorbs (e : Expr Nat) : Fits g e → e.isPlace = true → Absorbs g c' e := by
  induction e using Expr.induct_operands with
  | _ e ih =>
  intro he hplace
  have hrecord : ∀ t s, t.Knows s → Replays g c' t ∅ e.tags True True (record e.tag s)
      (record e.tag s) fun _ _ => True := fun t s hs => (record_replays he.tag hs).widen
    (le_refl _) (Set.singleton_subset_iff.2 e.tag_mem_tags)
  have hrecorded : ∀ {m n : Walk TypeSet}, (∀ t, Refinds g c' t ∅ (inner e) m n) →
      ∀ t, Refinds g c' t ∅ e.tags (recorded e.tag m) (recorded e.tag n) := fun h t =>
    tags_eq e ▸ recorded_replays he.tag (Set.notMem_empty _) (h t)
  have hin : ∀ x ∈ e.operands, x.tags ⊆ inner e := fun x hx => tags_subset hx
  have hsub : ∀ x ∈ e.operands, x.tags ⊆ e.tags := fun x hx => (hin x hx).trans (inner_subset e)
  cases e with
  | var k name =>
    refine ⟨?_, ?_, ?_⟩ <;> rw [meaning, meaning]
    · exact fun t => readVariable_absorbs he false
    · exact fun t => readVariable_absorbs he true
    · intro t s hs
      refine (useVar_replays (he.named name rfl)).next fun var t1 ht1 hvar => ?_
      exact (assign_replays hvar (hs.mono ht1)).next
        fun _ t2 ht2 _ => hrecord t2 s (hs.mono (ht1.trans ht2))
  | field k object name =>
    have hobject : Absorbs g c' object := ih object (.head _) (he.operand (.head _)) hplace
    have hvalue := fun t => ((hobject.value t).widen (le_refl _) (hin object (.head _))).thenAny
    refine ⟨?_, ?_, ?_⟩ <;> rw [meaning, meaning]
    · exact hrecorded hvalue
    · exact hrecorded hvalue
    · exact fun t s hs => ((hobject.value t).widen (le_refl _) (hsub object (.head _))).also
        fun _ t1 ht1 _ => hrecord t1 s (hs.mono ht1)
  | item k within key =>
    obtain ⟨hwithin, hkey⟩ := Bool.and_eq_true_iff.1 hplace
    have hwithin : Absorbs g c' within := ih within (.head _) (he.operand (.head _)) hwithin
    have hkey : ∀ t, Refinds g c' t ∅ key.tags (key.meaning g.setting).value
        (key.meaning c').value := fun t => atom_absorbs (he.operand (.tail _ (.head _))) hkey
    have hsets : within.tags ∪ key.tags ⊆ inner (.item k within key) :=
      Set.union_subset (hin within (.head _)) (hin key (.tail _ (.head _)))
    refine ⟨?_, ?_, ?_⟩ <;> rw [meaning, meaning]
    · exact hrecorded fun t =>
        element_refinds (hwithin.value t) hkey (Set.empty_disjoint _) (by simp) hsets
    · exact hrecorded fun t =>
        element_refinds (hwithin.quiet t) hkey (Set.empty_disjoint _) (by simp) hsets
    · intro t s hs
      refine ((hkey t).widen (le_refl _) (hsub key (.tail _ (.head _)))).also fun _ t1 ht1 _ => ?_
      exact ((hwithin.storeElement (hs.mono ht1)).widen (le_refl _) (hsub within (.head _))).also
        fun _ t2 ht2 _ => hrecord t2 s (hs.mono (ht1.trans ht2))
  | append k within =>
    have hwithin : Absorbs g c' within := ih within (.head _) (he.operand (.head _)) hplace
    have hvalue := fun t => ((hwithin.value t).widen (le_refl _) (hin within (.head _))).thenAny
    refine ⟨?_, ?_, ?_⟩ <;> rw [meaning, meaning]
    · exact hrecorded hvalue
    · exact hrecorded hvalue
    · exact fun t s hs => ((hwithin.storeElement hs).widen (le_refl _) (hsub within (.head _))).also
        fun _ t1 ht1 _ => hrecord t1 s (hs.mono ht1)
  | _ => cases hplace

/-! ### Conditions -/

/-- Evaluated again, the expression gives what it gave before. -/
structure Echoes (g : Place) (c' : Setting) (e : Expr Nat) : Prop where
  value : ∀ t, Replays g c' t e.tags e.tags True True (e.meaning g.setting).value
    (e.meaning c').value fun s t => t.Knows s
  quiet : ∀ t, Replays g c' t e.tags e.tags True True (e.meaning g.setting).quiet
    (e.meaning c').quiet fun s t => t.Knows s
  /-- Looked at under another outcome, it still finds nothing new. -/
  assume : ∀ t b b', Replays g c' t e.tags e.tags True (b = b') ((e.meaning g.setting).assume b)
    ((e.meaning c').assume b') fun s t => t.Knows s

/-- The walker has at most tried a step, and is back where it was. -/
def Tried (m : Walk β) (w w₀ : Walker) : Prop :=
  w₀ = w ∨ ∃ a u, m w = .ok a u ∧ w₀ = { u with state := w.state }

theorem Tried.keeps {m : Walk β} {R : β → ShapeTable → Prop} {w0 : Walker} (h : Tried m w w0)
    (hm : Keeping g t T m R) (hw : Sane g w) (ht : t.Extends w.table) :
    Sane g w0 ∧ Writes T w w0 ∧ w0.state = w.state := by
  rcases h with rfl | ⟨a, u, hu, rfl⟩
  · exact ⟨hw, .refl _ _, rfl⟩
  · obtain ⟨hsane, hwrites, -⟩ := hm w a u hw ht hu
    exact ⟨hsane.withState hw.fits (hw.known.mono hwrites.table), { hwrites with }, rfl⟩

/-- Takes one step and then another from where the first began; gives the state after the
first. -/
def bothWays (m n : Walk TypeSet) : Walk State := do
  let start ← getState
  let _ ← m
  let s ← getState
  setState start
  let _ ← n
  return s

theorem of_bothWays {s : State} (h : bothWays m n w = .ok s w') :
    ∃ a w1 b, m w = .ok a w1 ∧ n { w1 with state := w.state } = .ok b w' ∧ s = w1.state := by
  obtain ⟨start, w0, hstart, h⟩ := ok_of_bind h
  cases hstart
  obtain ⟨a, w1, hm, h⟩ := ok_of_bind h
  obtain ⟨s1, w2, hs, h⟩ := ok_of_bind h
  cases hs
  obtain ⟨u, w3, hset, h⟩ := ok_of_bind h
  cases hset
  obtain ⟨b, w4, hn, h⟩ := ok_of_bind h
  cases h
  exact ⟨a, w1, b, hm, hn, rfl⟩

theorem bothWays_keeping {R' : TypeSet → ShapeTable → Prop} (hm : Keeping g t T m R)
    (hn : Keeping g t T n R') : Keeping g t T (bothWays m n) (Held g) := by
  intro w s w' hw ht hrun
  obtain ⟨a, w1, b, hm1, hn1, rfl⟩ := of_bothWays hrun
  obtain ⟨hw1, hwrites1, -⟩ := hm w a w1 hw ht hm1
  have hback : Sane g { w1 with state := w.state } :=
    hw1.withState hw.fits (hw.known.mono hwrites1.table)
  obtain ⟨hw', hwrites2, -⟩ := hn _ b w' hback (ht.trans hwrites1.table) hn1
  have hwrites2 : Writes T w1 w' := { hwrites2 with }
  exact ⟨hw', Set.union_self T ▸ hwrites1.trans hwrites2, hw1.fits,
    hw1.known.mono hwrites2.table⟩

/-- The second way must be a repetition of the first one. -/
theorem bothWays_replays {m1 m2 n1 n2 : Walk TypeSet} {R1 R2 : TypeSet → ShapeTable → Prop}
    (hagain : Replays g g.setting t M T True q m1 m2 R) (h1 : Replays g c' t M T True True m1 n1 R1)
    (h2 : Replays g c' t M T True True m2 n2 R2) :
    Replays g c' t M T True True (bothWays m1 m2) (bothWays n1 n2) (Held g) where
  first := bothWays_keeping h1.first h2.first
  second := bothWays_keeping h1.second h2.second
  echo w s w' v s' v' hw hv ht hm hn hrec := by
    obtain ⟨a, w1, b, hm1, hm2, rfl⟩ := of_bothWays hm
    obtain ⟨a', v1, b', hn1, hn2, rfl⟩ := of_bothWays hn
    obtain ⟨hw1, hwrites1, -⟩ := h1.first w a w1 hw ht hm1
    have hback : Sane g { w1 with state := w.state } :=
      hw1.withState hw.fits (hw.known.mono hwrites1.table)
    have ht1 : t.Extends w1.table := ht.trans hwrites1.table
    obtain ⟨-, hwrites2, -⟩ := h2.first _ b w' hback ht1 hm2
    -- the first walker has found nothing on its second way
    obtain ⟨-, hsecond⟩ := hagain.echo w a w1 { w1 with state := w.state } b w' hw hback ht hm1 hm2
      ⟨fun _ => rfl, .refl _, fun _ _ => rfl, fun _ _ => .refl Fact.le_refl _,
        fun _ _ => rfl⟩
    have hfacts : w'.routine.facts = w1.routine.facts := hsecond.facts
    obtain ⟨hv1, hwritesV⟩ : Sane (g.moved c') v1 ∧ Writes T v v1 := by
      have := h1.second v a' v1 hv (ht.trans (hwrites1.table.trans
        (hwrites2.table.trans hrec.table))) hn1
      exact ⟨this.1, this.2.1⟩
    obtain ⟨-, hecho1⟩ := h1.echo w a w1 v a' v1 hw hv ht hm1 hn1
      { state := hrec.state
        table := hwrites2.table.trans hrec.table
        same := fun k hk => hfacts ▸ hrec.same k hk
        facts := fun k hk => hfacts ▸ hrec.facts k hk
        returns := fun x hx => hrec.returns x (hwrites2.reports x hx) }
    obtain ⟨-, hecho2⟩ := h2.echo _ b w' { v1 with state := v.state } b' v' hback
      (hv1.withState hv.fits (hv.known.mono hwritesV.table)) ht1 hm2 hn2
      { state := hrec.state
        table := hrec.table.trans hwritesV.table
        same := fun k hk => (congrArg (·[k]?) hecho1.facts).trans (hrec.same k hk)
        facts := fun k hk => (congrArg (·[k]?) hecho1.facts).symm ▸ hrec.facts k hk
        returns := hrec.returns }
    refine ⟨hecho1.state trivial, hecho2.facts.trans hecho1.facts, fun x hx => ?_, hecho2.state,
      fun hq => (hecho2.table hq).trans (hecho1.table trivial)⟩
    rcases hecho2.reports x hx with hx | hx
    · exact (hecho1.reports x hx).imp_right (hwrites2.reports x)
    · exact .inr hx

theorem branchStates_eq (m : Meaning) : m.branchStates = (do
    let yes ← bothWays (m.assume .holds) (m.assume .fails)
    let no ← getState
    return (yes, no)) := by
  unfold Meaning.branchStates bothWays
  simp only [bind_assoc, pure_bind]

theorem branchStates_replays (h : Echoes g c' e) (hagain : Echoes g g.setting e) :
    Replays g c' t e.tags e.tags True True (e.meaning g.setting).branchStates
      (e.meaning c').branchStates fun p t => Held g p.1 t ∧ Held g p.2 t := by
  rw [branchStates_eq, branchStates_eq]
  have hboth := bothWays_replays (hagain.assume t .holds .fails)
    ((h.assume t .holds .holds).weaken fun _ => rfl) ((h.assume t .fails .fails).weaken fun _ => rfl)
  refine hboth.last fun yes t1 _ hyes => ?_
  refine getState_replays.last fun no t2 ht2 hno => .pure fun t' ht' => ?_
  exact ⟨⟨hyes.1, hyes.2.mono (ht2.trans ht')⟩, hno.2.1, hno.2.2.mono ht'⟩

theorem maybeValue_replays (h : Echoes g c' e) :
    Refinds g c' t e.tags e.tags (e.meaning g.setting).maybeValue (e.meaning c').maybeValue := by
  refine getState_replays.next fun before t1 _ hbefore => ?_
  refine (h.value t1).last fun s t2 ht2 hs => ?_
  exact (joinWith_replays hbefore.2.1 (hbefore.2.2.mono ht2)).last
    fun _ t3 ht3 _ => .pure fun t' ht' => hs.mono (ht3.trans ht')

theorem shortCircuit_eq (hb : b ≠ runs) (l r : Meaning) :
    Meaning.shortCircuit runs l r b = (do
      let decided ← bothWays (l.assume runs.negate) (l.assume runs)
      let _ ← r.assume b
      joinWith decided) := by
  unfold Meaning.shortCircuit bothWays
  simp only [hb, if_false, bind_assoc, pure_bind]

theorem of_shortCircuit {l r : Meaning} {u : Unit}
    (h : Meaning.shortCircuit runs l r b w = .ok u w') :
    ∃ w0 a w1 a' w2 s, Tried (l.assume runs.negate) w w0 ∧ l.assume runs w0 = .ok a w1 ∧
      r.assume b w1 = .ok a' w2 ∧ w' = { w2 with state := s } := by
  by_cases hb : b = runs
  · rw [Meaning.shortCircuit, if_pos hb] at h
    obtain ⟨a, w1, hl, h⟩ := ok_of_bind h
    obtain ⟨a', w2, hr, h⟩ := ok_of_bind h
    cases h
    exact ⟨w, a, w1, a', w', w'.state, .inl rfl, hl, hr, rfl⟩
  · rw [shortCircuit_eq hb] at h
    obtain ⟨decided, w1, hboth, h⟩ := ok_of_bind h
    obtain ⟨a, w0, b', hl, hl', rfl⟩ := of_bothWays hboth
    obtain ⟨a', w2, hr, h⟩ := ok_of_bind h
    obtain ⟨s, -, rfl⟩ := of_joinWith h
    exact ⟨_, b', w1, a', w2, s, .inr ⟨a, w0, hl, rfl⟩, hl', hr, rfl⟩

section ShortCircuit

variable {l r : Expr Nat}

theorem shortCircuit_replays_same (hl : Echoes g c' l) (hagain : Echoes g g.setting l)
    (hr : Echoes g c' r) (hd : Disjoint l.tags r.tags) (runs b : Branch) (t : ShapeTable) :
    Replays g c' t (l.tags ∪ r.tags) (l.tags ∪ r.tags) True True
      (Meaning.shortCircuit runs (l.meaning g.setting) (r.meaning g.setting) b)
      (Meaning.shortCircuit runs (l.meaning c') (r.meaning c') b) fun _ _ => True := by
  have hsame : ∀ {e : Expr Nat}, Echoes g c' e → ∀ t b, Refinds g c' t e.tags e.tags
      ((e.meaning g.setting).assume b) ((e.meaning c').assume b) :=
    fun h t b => (h.assume t b b).weaken fun _ => rfl
  by_cases hb : b = runs
  · rw [Meaning.shortCircuit, Meaning.shortCircuit, if_pos hb, if_pos hb]
    refine (hsame hl t runs).seq r.tags r.tags (fun _ t1 _ _ => ?_) hd id (le_refl _) (le_refl _)
    exact (hsame hr t1 b).last fun _ _ _ _ => .pure fun _ _ => trivial
  · rw [shortCircuit_eq hb, shortCircuit_eq hb]
    have hboth := bothWays_replays (hagain.assume t runs.negate runs) (hsame hl t runs.negate)
      (hsame hl t runs)
    refine hboth.seq r.tags r.tags (fun decided t1 _ hdecided => ?_) hd id (le_refl _) (le_refl _)
    exact (hsame hr t1 b).last fun _ t2 ht2 _ => joinWith_replays hdecided.1 (hdecided.2.mono ht2)

theorem shortCircuit_replays (hl : Echoes g c' l) (hagain : Echoes g g.setting l)
    (hr : Echoes g c' r) (hd : Disjoint l.tags r.tags) (runs b b' : Branch) :
    Replays g c' t (l.tags ∪ r.tags) (l.tags ∪ r.tags) True (b = b')
      (Meaning.shortCircuit runs (l.meaning g.setting) (r.meaning g.setting) b)
      (Meaning.shortCircuit runs (l.meaning c') (r.meaning c') b') fun _ _ => True := by
  have hsame := fun b => shortCircuit_replays_same hl hagain hr hd runs b t
  refine ⟨(hsame b).first, (hsame b').second, fun w _ w' v _ v' hw hv ht hm hn hrec => ⟨rfl, ?_⟩⟩
  by_cases hb : b = b'
  · subst hb
    obtain ⟨-, hecho⟩ := (hsame b).echo w _ w' v _ v' hw hv ht hm hn hrec
    exact { hecho with state := fun _ => hecho.state trivial, table := fun _ => hecho.table trivial }
  -- each part of the second run follows the part of the first one for the same operand
  obtain ⟨w0, a1, w1, a2, w2, s, htried, hl1, hr1, rfl⟩ := of_shortCircuit hm
  obtain ⟨v0, b1, v1, b2, v2, s', htried', hl2, hr2, rfl⟩ := of_shortCircuit hn
  obtain ⟨hw0, hwrites0, hstate0⟩ := htried.keeps (hl.assume t _ .holds).first hw ht
  have ht0 := ht.trans hwrites0.table
  obtain ⟨hw1, hwrites1, -⟩ := (hl.assume t runs .holds).first w0 a1 w1 hw0 ht0 hl1
  have ht1 := ht0.trans hwrites1.table
  obtain ⟨-, hwrites2, -⟩ := (hr.assume t b .holds).first w1 a2 w2 hw1 ht1 hr1
  have htv : t.Extends v.table := ht1.trans (hwrites2.table.trans hrec.table)
  have hrecL : ∀ {u : Walker}, u.state = v.state → u.routine.facts = v.routine.facts →
      v.table.Extends u.table → Recalls g.setting c' True l.tags l.tags w0 w1 u :=
    fun hstate hfacts htable =>
      { state := fun _ => hstate.trans ((hrec.state trivial).trans hstate0.symm)
        table := hwrites2.table.trans (hrec.table.trans htable)
        same := fun k hk => by
          rw [hfacts, hrec.same k (.inl hk)]
          exact hwrites2.others k (hd.notMem_of_mem_left hk)
        facts := fun k hk => by
          rw [hfacts]
          exact (hwrites2.facts k).trans (fun _ _ _ => Fact.le_trans) (hrec.facts k (.inl hk))
        returns := fun x hx => hrec.returns x (hwrites2.reports x hx) }
  have hlate : ∀ {x}, x ∈ w1.reports → x ∈ w2.reports := fun hx => hwrites2.reports _ hx
  obtain ⟨hv0, hwritesV0, hstateV0⟩ := htried'.keeps (hl.assume t .holds _).second hv htv
  have htry : v0.routine.facts = v.routine.facts ∧
      ∀ x ∈ v0.reports, x ∈ v.reports ∨ x ∈ w2.reports := by
    rcases htried' with rfl | ⟨a, u, hu, rfl⟩
    · exact ⟨rfl, fun _ hx => .inl hx⟩
    · obtain ⟨-, hecho⟩ := (hl.assume t runs runs.negate).echo w0 a1 w1 v a u hw0 hv ht0 hl1 hu
        (hrecL rfl rfl (.refl _))
      exact ⟨hecho.facts, fun x hx => (hecho.reports x hx).imp_right hlate⟩
  obtain ⟨-, hecho1⟩ := (hl.assume t runs runs).echo w0 a1 w1 v0 b1 v1 hw0 hv0 ht0 hl1 hl2
    (hrecL hstateV0 htry.1 hwritesV0.table)
  obtain ⟨hv1, hwritesV1, -⟩ := (hl.assume t .holds runs).second v0 b1 v1 hv0
    (htv.trans hwritesV0.table) hl2
  have hfacts1 : v1.routine.facts = v.routine.facts := hecho1.facts.trans htry.1
  obtain ⟨-, hecho2⟩ := (hr.assume t b b').echo w1 a2 w2 v1 b2 v2 hw1 hv1 ht1 hr1 hr2
    { state := fun _ => hecho1.state rfl
      table := hrec.table.trans (hwritesV0.table.trans hwritesV1.table)
      same := fun k hk => by rw [hfacts1]; exact hrec.same k (.inr hk)
      facts := fun k hk => by rw [hfacts1]; exact hrec.facts k (.inr hk)
      returns := hrec.returns }
  refine ⟨hecho2.facts.trans hfacts1, fun x hx => ?_, fun h => absurd h hb, fun h => absurd h hb⟩
  rcases hecho2.reports x hx with hx | hx
  · rcases hecho1.reports x hx with hx | hx
    · exact htry.2 x hx
    · exact .inr (hlate hx)
  · exact .inr hx

end ShortCircuit

/-! ### Calls -/

section Akin

variable {c : Setting}

theorem Setting.Akin.named (h : c.Akin c') (name : String) :
    (c'.named name).map Signature.head = (c.named name).map Signature.head := by
  rw [Setting.named, Setting.named, map_filterMap, map_filterMap, h.candidates]
  refine filterMap_congr fun i _ => ?_
  rw [← getElem?_map, ← getElem?_map, h.heads]

theorem Setting.Akin.bind (h : c.Akin c') (name : String) (types : Tuple) :
    c'.bind name types = c.bind name types := by
  have hbare : ∀ l : List Signature, (l.map Signature.head).map Signature.bare =
      l.map Signature.bare := fun l => map_map
  refine Setting.bind_congr h.resolver h.resolver' ?_ types
  rw [← hbare, h.named, hbare]

theorem Setting.Akin.isEmpty (h : c.Akin c') (name : String) :
    (c'.named name).isEmpty = (c.named name).isEmpty := by
  have hhead : ∀ l : List Signature, (l.map Signature.head).isEmpty = l.isEmpty :=
    fun _ => isEmpty_map
  rw [← hhead, h.named, hhead]

theorem Setting.Akin.isByRef (h : c.Akin c') (name : String) (i : Nat) :
    (c'.named name).any (·.isByRef i) = (c.named name).any (·.isByRef i) := by
  have hhead : ∀ l : List Signature, (l.map Signature.head).any (·.isByRef i) =
      l.any (·.isByRef i) := fun _ => any_map
  rw [← hhead, h.named, hhead]

end Akin

/-- What a call does to the variables that it passes by reference. -/
def openRefs (sig : Signature) (args : List (Expr Nat)) : Walk Unit :=
  args.zipIdx.forM fun (arg, i) => do
    if sig.isByRef i then
      if let some var ← varOf? arg then
        markAliased var
        modifyState (·.assign var .any)

theorem openRefs_replays {args : List (Expr Nat)} (hargs : ∀ a ∈ args, Named g a)
    (sig : Signature) :
    Replays g c' t ∅ ∅ True True (openRefs sig args) (openRefs sig args) fun _ _ => True := by
  refine forM_replays_silent fun p hp t1 _ => ?_
  have harg : Named g p.1 := hargs p.1 (fst_mem_of_mem_zipIdx hp)
  obtain ⟨arg, i⟩ := p
  simp only
  split
  · refine withVar_replays harg rfl fun var hvar => ?_
    exact (markAliased_replays hvar).last fun _ _ _ _ => assign_replays hvar ShapeTable.knows_any
  · exact .pure fun _ _ => trivial

section Calls

variable {k callee : Nat} {name : String} {args : List (Expr Nat)} {types : Tuple} {w : Walker}
  {s : TypeSet} {target : Target}

/-- The walker once the call to `callee` is logged. -/
def logged (c : Setting) (k : Nat) (args : List (Expr Nat)) (types : Tuple) (callee : Nat)
    (w : Walker) : Walker :=
  withCall w
    { caller := w.routine.id, callee, site := k, block := c.block, argExprs := args.map Expr.tag,
      argTypes := types }

theorem of_callOne {c : Setting} (h : callOne c k name args types callee w = .ok s w') :
    ∃ sig, c.signatures[callee]? = some sig ∧ s = sig.returns ∧
      openRefs sig args (logged c k args types callee w) = .ok () w' := by
  unfold callOne at h
  rcases hsig : c.signatures[callee]? with _ | sig <;> simp only [hsig] at h
  · cases h
  · obtain ⟨_, w1, hedge, h⟩ := ok_of_bind h
    cases hedge
    obtain ⟨_, w2, hrefs, h⟩ := ok_of_bind h
    cases h
    exact ⟨sig, rfl, rfl, hrefs⟩

theorem sane_logged (k : Nat) (args : List (Expr Nat)) (hw : Sane g w) {sig : Signature}
    (hsig : g.setting.signatures[callee]? = some sig) (htypes : ∀ a ∈ types, w.table.Knows a) :
    Sane g (logged g.setting k args types callee w) :=
  hw.withCall (lt_of_getElem? hsig) htypes

theorem callOne_keeping (hargs : ∀ a ∈ args, Named g a) (htypes : ∀ a ∈ types, t.Knows a) :
    Keeping g t {k} (callOne g.setting k name args types callee) fun s t => t.Knows s := by
  intro w s w' hw ht hrun
  obtain ⟨sig, hsig, rfl, hrefs⟩ := of_callOne hrun
  have hw1 := sane_logged k args hw hsig fun a ha => (htypes a ha).mono ht
  have hagain : Replays g g.setting t ∅ ∅ True True (openRefs sig args) (openRefs sig args)
      fun _ _ => True := openRefs_replays hargs sig
  obtain ⟨hw', hwrites, -⟩ := hagain.first _ _ w' hw1 ht hrefs
  refine ⟨hw', ⟨hwrites.table, fun j _ => hwrites.others j (Set.notMem_empty j), hwrites.facts,
    fun x hx => hwrites.reports x (Array.mem_push.2 (.inl hx)), fun h => ?_⟩, ?_⟩
  · exact absurd h (Set.singleton_ne_empty k)
  · exact (hw.sigs callee sig hsig).2.mono hwrites.table

theorem callOne_replays (hargs : ∀ a ∈ args, Named g a) (htypes : ∀ a ∈ types, t.Knows a) :
    Refinds g c' t ∅ {k} (callOne g.setting k name args types callee)
      (callOne c' k name args types callee) where
  first := callOne_keeping hargs htypes
  second := callOne_keeping (g := g.moved c') hargs htypes
  echo w s w' v s' v' hw hv ht hm hn hrec := by
    obtain ⟨sig, hsig, rfl, hrefs⟩ := of_callOne hm
    obtain ⟨sig', hsig', rfl, hrefs'⟩ := of_callOne hn
    have hagain : Replays g c' t ∅ ∅ True True (openRefs sig args) (openRefs sig args)
        fun _ _ => True := openRefs_replays hargs sig
    have hw1 := sane_logged k args hw hsig fun a ha => (htypes a ha).mono ht
    obtain ⟨-, hwrites, -⟩ := hagain.first _ _ w' hw1 ht hrefs
    have hreport : (callee, types) ∈ w'.reports := hwrites.reports _ Array.mem_push_self
    -- the call was reported, so the callee returns what it did
    have hsame : c'.signatures[callee]? = g.setting.signatures[callee]? :=
      hrec.returns (callee, types) hreport
    obtain rfl : sig' = sig := by
      rw [hsig', hsig] at hsame
      exact Option.some.inj hsame
    have htv : t.Extends v.table := ht.trans (hwrites.table.trans hrec.table)
    have hv1 := sane_logged (g := g.moved c') k args hv hsig'
      fun a ha => (htypes a ha).mono htv
    obtain ⟨-, hecho⟩ := hagain.echo _ _ w' _ _ v' hw1 hv1 ht hrefs hrefs'
      ⟨hrec.state, hrec.table, by simp, by simp, hrec.returns⟩
    refine ⟨rfl, hecho.facts, fun x hx => ?_, hecho.state, hecho.table⟩
    rcases hecho.reports x hx with hx | hx
    · rcases Array.mem_push.1 hx with hx | rfl
      · exact .inl hx
      · exact .inr hreport
    · exact .inr hx

theorem argTypes_replays (hakin : g.setting.Akin c') (hargs : ∀ a ∈ args, Echoes g c' a)
    (hunique : TagsUnique args) :
    Replays g c' t (forSome tags args) (forSome tags args) True True
      (argTypes g.setting name args) (argTypes c' name args)
      fun types t => ∀ s ∈ types, t.Knows s := by
  rw [argTypes_eq, argTypes_eq]
  have hfst : ∀ p ∈ args.zipIdx, p.1 ∈ args := fun p hp => fst_mem_of_mem_zipIdx hp
  have huntouched : Untouched (fun p : Expr Nat × Nat => p.1.tags) (fun p => p.1.tags)
      args.zipIdx := by
    have h := hunique.untouched
    rw [← zipIdx_map_fst 0 args, Untouched, pairwise_map] at h
    exact h
  have hall : forSome (fun p : Expr Nat × Nat => p.1.tags) args.zipIdx ⊆ forSome tags args :=
    fun _ ⟨p, hp, hk⟩ => ⟨p.1, hfst p hp, hk⟩
  refine (mapM_replays huntouched fun p hp t1 _ => ?_).widen hall hall
  have harg := hargs p.1 (hfst p hp)
  have hbyRef := hakin.isByRef name p.2
  unfold Setting.named at hbyRef
  simp only [hbyRef]
  split
  · exact (harg.quiet t1).map fun _ _ hs _ ht => (hs.mono ht).plain
  · exact (harg.value t1).map fun _ _ hs _ ht => (hs.mono ht).plain

theorem callees_lt (hw : Sane g w) (hres : g.setting.resolver = Resolver.mostSpecific) :
    ∀ x ∈ (g.setting.bind name types).callees, x < g.routines := by
  intro x hx
  unfold Setting.bind at hx
  simp only at hx
  split at hx
  · split at hx <;> cases hx
  next hcands =>
    rw [hres] at hx
    refine Resolver.mostSpecific_within _ _ _ (by simpa using hcands) (fun s hs => ?_) x hx
    obtain ⟨i, -, hi⟩ := mem_filterMap.1 hs
    rw [(hw.sigs i s hi).1]
    exact (lt_of_getElem? hi)

/-- What a call does before it is bound: its target and the types it gives. -/
def reach (c : Setting) (k : Nat) (name : String) (args : List (Expr Nat)) :
    Walk (Target × TypeSet) := do
  let types ← argTypes c name args
  if (c.named name).isEmpty then
    match Library.find? name with
    | some f =>
      if f.dynamic then addFlags { dynamicCall := true }
      return (c.bind name types, f.returns)
    | none => return (c.bind name types, .any)
  else
    let start := if (c.bind name types).callees.isEmpty then TypeSet.any else .void
    let s ← (c.bind name types).callees.foldlM
      (fun s callee => return s ∪ (← callOne c k name args types callee)) start
    return (c.bind name types, s)

theorem call_eq_reach (c : Setting) (k : Nat) (name : String) (args : List (Expr Nat)) :
    call c k name args (meanings c args) = reach c k name args >>= fun p => do
      bindCall k p.1
      return p.2 := by
  rw [call_eq, reach, bind_assoc]
  refine bind_congr fun types => ?_
  unfold Setting.named
  split
  · rcases Library.find? name with _ | f
    · rfl
    · simp only
      split <;> rfl
  · simp only [bind_assoc, pure_bind]

theorem reach_replays (hakin : g.setting.Akin c') (he : Fits g (.call k name args))
    (hargs : ∀ a ∈ args, Echoes g c' a) (hunique : TagsUnique [.call k name args]) :
    Replays g c' t (inner (.call k name args)) (Expr.call k name args).tags True True
      (reach g.setting k name args) (reach c' k name args)
      fun p t => t.Knows p.2 ∧ ∃ types, p.1 = g.setting.bind name types := by
  have hk : {k} ⊆ (Expr.call k name args).tags :=
    Set.singleton_subset_iff.2 (tag_mem_tags (.call k name args))
  have hinner : Disjoint (inner (.call k name args)) {k} :=
    Set.disjoint_singleton_right.2 hunique.tag_notMem
  refine (argTypes_replays hakin hargs hunique.operands).seq ∅ {k} (fun types t1 _ htypes => ?_)
    hinner id (by simp [inner, operands]) (Set.union_subset (inner_subset (.call k name args)) hk)
  rw [hakin.isEmpty, hakin.bind]
  split
  · refine .mono ?_ (le_refl _) (Set.empty_subset _) fun _ _ _ h => h
    split
    next f hf =>
      have hpure : ∀ t', Replays g c' t' ∅ ∅ True True (pure (g.setting.bind name types, f.returns))
          (pure (g.setting.bind name types, f.returns))
          fun p t => t.Knows p.2 ∧ ∃ types, p.1 = g.setting.bind name types := fun t' =>
        .pure_of_valid fun t'' ht'' _ => ⟨knows_library ht'' hf, types, rfl⟩
      split
      · exact (addFlags_replays _).last fun _ t2 _ _ => hpure t2
      · exact hpure t1
    next => exact .pure fun _ _ => ⟨ShapeTable.knows_any, types, rfl⟩
  · have hstart : t1.Knows (if (g.setting.bind name types).callees.isEmpty then any
        else .void) := ShapeTable.knows_any.ite ShapeTable.knows_void
    have hloop : Refinds g c' t1 (forSome (fun _ => ∅) (g.setting.bind name types).callees)
        (forSome (fun _ => {k}) (g.setting.bind name types).callees)
        ((g.setting.bind name types).callees.foldlM
          (fun s callee => return s ∪ (← callOne g.setting k name args types callee)) _)
        ((g.setting.bind name types).callees.foldlM
          (fun s callee => return s ∪ (← callOne c' k name args types callee)) _) :=
      foldlM_replays hstart (pairwise_of_forall fun _ _ => Set.empty_disjoint _)
        fun callee _ s t2 ht2 hs => (callOne_replays (fun a ha => (he.operand ha).named)
          fun a ha => (htypes a ha).mono ht2).last fun r t3 ht3 hr => .pure fun t' ht' =>
            ((hs.mono ht3).union hr).mono ht'
    have hsets : forSome (fun _ => (∅ : Set Nat)) (g.setting.bind name types).callees ⊆ ∅ ∧
        forSome (fun _ => ({k} : Set Nat)) (g.setting.bind name types).callees ⊆ {k} := by
      constructor <;> rintro x ⟨_, _, hx⟩ <;> exact hx
    exact (hloop.widen hsets.1 hsets.2).last
      fun s t2 _ hs => .pure fun t' ht' => ⟨hs.mono ht', types, rfl⟩

/-- Binds a call and records its types, with a step between that writes no fact. -/
def settle (k : Nat) (m : Walk Unit) (p : Target × TypeSet) : Walk TypeSet := do
  bindCall k p.1
  m
  record k p.2
  return p.2

theorem recorded_call_eq (c : Setting) (k : Nat) (name : String) (args : List (Expr Nat))
    (m : Walk Unit) :
    recorded k (do
      let s ← call c k name args (meanings c args)
      m
      return s) = reach c k name args >>= settle k m := by
  rw [call_eq_reach]
  unfold recorded settle
  simp only [bind_assoc, pure_bind]

theorem settle_keeping {m : Walk Unit} (hk : g.tags k) (hs : t.Knows s)
    (htarget : ∀ w, Sane g w → ∀ x ∈ target.callees, x < g.routines)
    (hm : ∀ t, Keeping g t ∅ m fun _ _ => True) :
    Keeping g t {k} (settle k m (target, s)) fun s t => t.Knows s := by
  have hrecord : ∀ t1, t.Extends t1 → Replays g g.setting t1 ∅ {k} True True
      (do record k s; return s) (do record k s; return s) fun s t => t.Knows s := fun t1 ht1 =>
    (record_replays hk (hs.mono ht1)).last
      fun _ t2 ht2 _ => .pure fun t' ht' => hs.mono (ht1.trans (ht2.trans ht'))
  exact ((bindCall_keeping htarget).bind fun _ t1 ht1 _ => (hm t1).bind fun _ t2 ht2 _ =>
    (hrecord t2 (ht1.trans ht2)).first).mono (by simp) fun _ _ _ h => h

theorem settle_replays {m n : Walk Unit} (hk : g.tags k) (hM : k ∉ M) (hs : t.Knows s)
    (htarget : ∀ w, Sane g w → ∀ x ∈ target.callees, x < g.routines)
    (htarget' : ∀ w, Sane (g.moved c') w → ∀ x ∈ target.callees, x < (g.moved c').routines)
    (hm : ∀ t, Replays g c' t M ∅ True q m n fun _ _ => True) :
    Replays g c' t (M ∪ {k}) {k} True q (settle k m (target, s)) (settle k n (target, s))
      fun s t => t.Knows s where
  first := settle_keeping hk hs htarget fun t => (hm t).first
  second := settle_keeping (g := g.moved c') hk hs htarget' fun t => (hm t).second
  echo w a w' v b v' hw hv ht hrun hrun' hrec := by
    obtain ⟨_, w1, hbind, hrun⟩ := ok_of_bind hrun
    obtain ⟨_, w2, hmid, hrun⟩ := ok_of_bind hrun
    obtain ⟨_, w3, hrecord, hrun⟩ := ok_of_bind hrun
    obtain ⟨_, v1, hbind', hrun'⟩ := ok_of_bind hrun'
    obtain ⟨_, v2, hmid', hrun'⟩ := ok_of_bind hrun'
    obtain ⟨_, v3, hrecord', hrun'⟩ := ok_of_bind hrun'
    cases hrun
    cases hrun'
    obtain ⟨-, rfl⟩ := of_record hrecord
    obtain ⟨-, rfl⟩ := of_record hrecord'
    obtain ⟨hw1, hwrites1, -⟩ := bindCall_keeping (t := t) htarget w _ w1 hw ht hbind
    have ht1 := ht.trans hwrites1.table
    obtain ⟨-, hwrites2, -⟩ := (hm t).first w1 _ w2 hw1 ht1 hmid
    have htv : t.Extends v.table := ht1.trans (hwrites2.table.trans hrec.table)
    obtain ⟨hv1, hwritesV, -⟩ := bindCall_keeping (t := t) htarget' v _ v1 hv htv hbind'
    -- what is known of the call at last has both the target and the types
    have hlast : ∀ y, v.routine.facts[k]? = some y → y.target = some target ∧ s ≤ y.types := by
      intro y hy
      have hsame := hrec.same k (.inr rfl)
      rw [hy, facts_withFact, if_pos rfl, hwrites2.facts_eq] at hsame
      cases hbind
      change _ = ((withFact w k fun x => { x with target := some target }).routine.facts[k]?).map _
        at hsame
      rw [facts_withFact, if_pos rfl, Array.getElem?_eq_getElem (hw.tags k hk)] at hsame
      cases hsame
      exact ⟨rfl, le_union_right _ _⟩
    have hfacts1 : v1.routine.facts = v.routine.facts := by
      cases hbind'
      exact facts_withFact_eq fun y hy => by rw [← (hlast y hy).1]
    have hother : ∀ j ∈ M, (withFact w2 k fun x => { x with types := x.types ∪ s }).routine.facts[j]? =
        w2.routine.facts[j]? := fun j hj => by
      rw [facts_withFact, if_neg]
      exact fun h => hM (h ▸ hj)
    obtain ⟨-, hecho⟩ := (hm t).echo w1 _ w2 v1 _ v2 hw1 hv1 ht1 hmid hmid'
      { state := fun _ => by
          cases hbind
          cases hbind'
          exact hrec.state trivial
        table := hrec.table.trans hwritesV.table
        same := fun j hj => by rw [hfacts1, hrec.same j (.inl hj)]; exact hother j hj
        facts := by simp
        returns := hrec.returns }
    have hfacts2 : v2.routine.facts = v.routine.facts := hecho.facts.trans hfacts1
    refine ⟨rfl, ?_, fun x hx => ?_, hecho.state, fun hq => (hecho.table hq).trans ?_⟩
    · refine (facts_withFact_eq fun y hy => ?_).trans hfacts2
      rw [hfacts2] at hy
      rw [union_eq_left (hlast y hy).2]
    · cases hbind'
      exact hecho.reports x hx
    · cases hbind'
      rfl

end Calls

/-! ### Values -/

theorem echoes_ofPlace (he : Fits g e) (hunique : TagsUnique [e]) {quiet : Setting → Walk TypeSet}
    {store : Setting → TypeSet → Walk Unit}
    (hm : ∀ c, e.meaning c =
      { Meaning.ofValue e (step c) with quiet := recorded e.tag (quiet c), store := store c })
    (hstep : ∀ t, Refinds g c' t (inner e) e.tags (step g.setting) (step c'))
    (hquiet : ∀ t, Refinds g c' t (inner e) e.tags (quiet g.setting) (quiet c')) : Echoes g c' e := by
  have hself : e.tags ∪ {e.tag} ⊆ e.tags :=
    Set.union_subset (le_refl _) (Set.singleton_subset_iff.2 e.tag_mem_tags)
  have hrecorded : ∀ {t q} {m n : Walk TypeSet}, Replays g c' t (inner e) e.tags True q m n
      (fun s t => t.Knows s) → Replays g c' t e.tags e.tags True q (recorded e.tag m)
      (recorded e.tag n) fun s t => t.Knows s := fun h =>
    (recorded_replays he.tag hunique.tag_notMem h).widen (inner_subset e) hself
  refine ⟨?_, ?_, ?_⟩ <;> rw [hm, hm]
  · exact fun t => hrecorded (hstep t)
  · exact fun t => hrecorded (hquiet t)
  · intro t b b'
    refine hrecorded ((hstep t).seq (heads e.operands) ∅ (fun s t1 _ hs => ?_)
      (Set.disjoint_empty _) (fun _ => trivial)
      (Set.union_subset (le_refl _) (heads_subset _)) (by simp))
    exact (narrowTo_replays he b b').last
      fun _ t2 ht2 _ => .pure fun t' ht' => hs.mono (ht2.trans ht')

theorem echoes_ofValue (he : Fits g e) (hunique : TagsUnique [e])
    (hm : ∀ c, e.meaning c = .ofValue e (step c))
    (hstep : ∀ t, Refinds g c' t (inner e) (inner e) (step g.setting) (step c')) :
    Echoes g c' e := by
  have hstep : ∀ t, Refinds g c' t (inner e) e.tags (step g.setting) (step c') := fun t =>
    (hstep t).widen (le_refl _) (inner_subset e)
  exact echoes_ofPlace he hunique hm hstep hstep

theorem echoes_ofCondition (he : Fits g e) (hunique : TagsUnique [e])
    {step : Setting → Branch → Walk Unit} (hm : ∀ c, e.meaning c = .ofCondition e (step c))
    (hstep : ∀ t b b', Replays g c' t (inner e) (inner e) True (b = b') (step g.setting b)
      (step c' b') fun _ _ => True) : Echoes g c' e := by
  have hassume : ∀ t b b', Replays g c' t e.tags e.tags True (b = b')
      (recorded e.tag do step g.setting b; return .bool) (recorded e.tag do step c' b'; return .bool)
      fun s t => t.Knows s := by
    intro t b b'
    have hbool : Replays g c' t (inner e) (inner e) True (b = b')
        (do step g.setting b; return bool) (do step c' b'; return bool)
        fun s t => t.Knows s :=
      (hstep t b b').last fun _ _ _ _ => .pure_of_valid fun t' ht' _ => ht'.knows_bool
    exact (recorded_replays he.tag hunique.tag_notMem hbool).widen (inner_subset e)
      (tags_eq e).symm.le
  refine ⟨?_, ?_, ?_⟩ <;> rw [hm, hm]
  · exact fun t => (hassume t .either .either).weaken fun _ => rfl
  · exact fun t => (hassume t .either .either).weaken fun _ => rfl
  · exact hassume

theorem result_again {t' : ShapeTable} (ht : t.Valid) (e : Expr Nat) {types : List TypeSet}
    (h : ∀ s ∈ types, t.Knows s) (hext : (e.result types t).2.Extends t') :
    e.result types t' = ((e.result types t).1, t') := by
  revert hext
  unfold Expr.result
  split <;> intro hext
  case h_2 => rw [hext.binaryTypes _ (h _ (by simp)) (h _ (by simp))]
  case h_3 => rw [hext.unaryTypes _ (h _ (by simp)).plain]
  case h_4 => rw [hext.castTypes _ (h _ (by simp)).plain]
  case h_8 => exact ShapeTable.intern_again hext
  case h_9 k entries =>
    have hheld := @knows_held _ entries _ _ ShapeTable.knows_void h
    exact ShapeTable.arrayOf_again hheld (ShapeTable.arrayOf_spec ht hheld).2.1 hext
  all_goals rfl

theorem gather_replays (hunique : TagsUnique e.operands) (hop : ∀ x ∈ e.operands, Echoes g c' x) :
    Refinds g c' t (inner e) (inner e) (e.gather g.setting) (e.gather c') := by
  have hlook : ∀ x ∈ e.operands, ∀ t, Refinds g c' t x.tags x.tags (e.look (x.meaning g.setting))
      (e.look (x.meaning c')) := by
    rcases e.look_cases with h | h <;> rw [h]
    · exact fun x hx => (hop x hx).value
    · exact fun x hx => (hop x hx).quiet
  refine (mapM_replays hunique.untouched fun x hx t1 _ => hlook x hx t1).last fun types t1 _ h =>
    intern_replays fun t' ht' hext => ?_
  have hknown : ∀ s ∈ types, t'.Knows s := fun s hs => (h s hs).mono hext
  exact ⟨result_spec ht' e hknown, fun _ hext _ => result_again ht' e hknown hext⟩

/-! ### Each kind of expression -/

theorem pair_subset {a b : Expr Nat} (ha : a ∈ es) (hb : b ∈ es) :
    a.tags ∪ b.tags ⊆ forSome tags es := Set.union_subset (tags_subset ha) (tags_subset hb)

section Kinds

variable {k : Nat} {name : String} {a b c : Expr Nat}

theorem echoes_var (he : Fits g (.var k name)) (hunique : TagsUnique [.var k name]) :
    Echoes g c' (.var k name) := by
  have hread : ∀ quiet t, Refinds g c' t (inner (.var k name)) (Expr.var k name).tags
      (readVariable k name quiet) (readVariable k name quiet) :=
    fun quiet t => (readVariable_replays he.tag (he.named name rfl) quiet).widen
      (Set.empty_subset _) (Set.singleton_subset_iff.2 (tag_mem_tags (.var k name)))
  exact echoes_ofPlace he hunique (fun c => by rw [meaning]; rfl) (hread false) (hread true)

theorem echoes_assign (he : Fits g (.assign k a b)) (hunique : TagsUnique [.assign k a b])
    (ha : Absorbs g c' a) (hb : Echoes g c' b) : Echoes g c' (.assign k a b) := by
  have hset : b.tags ⊆ inner (.assign k a b) := tags_subset (.tail _ (.head _))
  refine echoes_ofValue he hunique (fun c => by rw [meaning]) fun t => ?_
  refine (hb.value t).seq ∅ a.tags (fun s t1 _ hs => ?_) hunique.operands.disjoint.symm id
    (by simpa using hset) (pair_subset (.tail _ (.head _)) (.head _))
  exact (ha.store t1 s.plain hs.plain).last fun _ t2 ht2 _ => .pure fun t' ht' =>
    hs.plain.mono (ht2.trans ht')

theorem echoes_update {op : BinOp} (he : Fits g (.update k op a b))
    (hunique : TagsUnique [.update k op a b]) (ha : Absorbs g c' a) (hb : Echoes g c' b) :
    Echoes g c' (.update k op a b) := by
  have hdisjoint := hunique.operands.disjoint.symm
  have hrest : ∀ s t, t.Knows s → Refinds g c' t ∅ a.tags
      (do (a.meaning g.setting).store s; return s) (do (a.meaning c').store s; return s) :=
    fun s t hs => (ha.store t s hs).last fun _ t1 ht1 _ => .pure fun t' ht' => hs.mono (ht1.trans ht')
  have hset : a.tags ⊆ inner (.update k op a b) := tags_subset (.head _)
  have hset' : b.tags ⊆ inner (.update k op a b) := tags_subset (.tail _ (.head _))
  refine echoes_ofValue he hunique (fun c => by rw [meaning]) fun t => ?_
  refine (ha.value t).seq b.tags (b.tags ∪ a.tags) (fun old t1 _ hold => ?_)
    (Set.empty_disjoint _) id (by simpa using hset')
    (Set.union_subset hset (Set.union_subset hset' hset))
  -- how the new value is found depends on the operator, the rest does not
  simp only
  split
  · refine (maybeValue_replays hb).seq ∅ a.tags (fun v t2 ht2 hv => ?_) hdisjoint id
      (by simp) (le_refl _)
    exact hrest _ t2 (((hold.mono ht2).remove _).union hv)
  · refine (hb.value t1).seq ∅ a.tags (fun v t2 ht2 hv => ?_) hdisjoint id (by simp) (le_refl _)
    refine getTable_replays fun t3 t4 ht3 h34 hvalid _ => ?_
    have hold3 := hold.mono (ht2.trans ht3)
    rw [h34.binaryTypes _ hold3 (hv.mono ht3)]
    exact hrest _ t3 (ShapeTable.knows_binaryTypes hvalid _ hold3 (hv.mono ht3))

theorem echoes_step {op : Step} (he : Fits g (.step k op a)) (hunique : TagsUnique [.step k op a])
    (ha : Absorbs g c' a) : Echoes g c' (.step k op a) := by
  refine echoes_ofValue he hunique (fun c => by rw [meaning]) fun t => ?_
  refine ((ha.value t).also fun old t1 _ hold => ?_).widen (Set.empty_subset _)
    (tags_subset (.head _))
  have hrest : ∀ (safe : Bool) t, t1.Extends t → Refinds g c' t ∅ a.tags (do
        (a.meaning g.setting).store (ShapeTable.stepTypes old.plain safe)
        return if op.givesNew then ShapeTable.stepTypes old.plain safe else old.plain) (do
        (a.meaning c').store (ShapeTable.stepTypes old.plain safe)
        return if op.givesNew then ShapeTable.stepTypes old.plain safe else old.plain) := by
    refine fun safe t ht => .of_valid fun t2 hvalid ht2 => ?_
    have hnew := ShapeTable.knows_stepTypes hvalid old.plain safe
    refine (ha.store t2 _ hnew).last fun _ t3 ht3 _ => .pure fun t' ht' => ?_
    exact (hnew.ite (hold.plain.mono (ht.trans ht2))).mono (ht3.trans ht')
  refine (varOf?_replays (he.operand (.head _)).named).next fun o t2 ht2 _ => ?_
  cases o with
  | none => exact hrest false t2 ht2
  | some var =>
    refine getTable_replays fun t3 t4 ht3 h34 hvalid _ => ?_
    rw [h34.isKind (hold.plain.mono (ht2.trans ht3))]
    exact getState_replays.next fun s t5 ht5 _ => hrest _ t5 (ht2.trans (ht3.trans ht5))

theorem echoes_binary {op : BinOp} (hplain : ¬ (Expr.binary k op a b).IsPlain)
    (he : Fits g (.binary k op a b)) (hunique : TagsUnique [.binary k op a b])
    (ha : Echoes g c' a) (hagain : Echoes g g.setting a) (hb : Echoes g c' b) :
    Echoes g c' (.binary k op a b) := by
  have hdisjoint : Disjoint a.tags b.tags := hunique.operands.disjoint
  have hsets : a.tags ∪ b.tags ⊆ inner (.binary k op a b) :=
    pair_subset (.head _) (.tail _ (.head _))
  have hcircuit := fun runs t b b' =>
    (shortCircuit_replays (t := t) ha hagain hb hdisjoint runs b b').widen hsets hsets
  rcases BinOp.of_not_isPlain hplain with rfl | rfl | rfl
  · exact echoes_ofCondition he hunique (fun c => by rw [meaning]) (hcircuit .holds)
  · exact echoes_ofCondition he hunique (fun c => by rw [meaning]) (hcircuit .fails)
  · refine echoes_ofValue he hunique (fun c => by rw [meaning]) fun t => ?_
    refine (ha.quiet t).seq b.tags b.tags (fun s t1 _ hs => ?_) hdisjoint id hsets hsets
    exact (maybeValue_replays hb).last fun s' t2 ht2 hs' => .pure fun t' ht' =>
      (((hs.mono ht2).remove _).union hs').mono ht'

theorem choose_replays {t : ShapeTable} {M T : Set Nat} {yes yes' : Walk TypeSet}
    (ha : Echoes g c' a) (hagain : Echoes g g.setting a) (hyes : ∀ t, Refinds g c' t M T yes yes')
    (hb : Echoes g c' b) (hcond : Disjoint a.tags (T ∪ b.tags)) (hways : Disjoint M b.tags) :
    Refinds g c' t (a.tags ∪ (M ∪ b.tags)) (a.tags ∪ (T ∪ b.tags))
      ((a.meaning g.setting).choose yes (b.meaning g.setting).value)
      ((a.meaning c').choose yes' (b.meaning c').value) := by
  refine (branchStates_replays ha hagain).seq (M ∪ b.tags) (T ∪ b.tags)
    (fun p t1 _ hp => ?_) hcond id (le_refl _) (le_refl _)
  refine (setState_replays hp.1.1 hp.1.2).next fun _ t2 ht2 _ => ?_
  refine (hyes t2).seq b.tags b.tags (fun s t3 ht3 hs => ?_) hways id (le_refl _) (le_refl _)
  refine getState_replays.next fun after t4 ht4 hafter => ?_
  refine (setState_replays hp.2.1 (hp.2.2.mono (ht2.trans (ht3.trans ht4)))).next
    fun _ t5 ht5 _ => ?_
  refine (hb.value t5).last fun s' t6 ht6 hs' => ?_
  refine (joinWith_replays hafter.2.1 (hafter.2.2.mono (ht5.trans ht6))).last
    fun _ t7 ht7 _ => .pure fun t' ht' => ?_
  exact (((hs.mono (ht4.trans (ht5.trans ht6))).union hs').mono (ht7.trans ht')).plain

theorem echoes_choose (he : Fits g (.choose k a b c)) (hunique : TagsUnique [.choose k a b c])
    (ha : Echoes g c' a) (hagain : Echoes g g.setting a) (hb : Echoes g c' b) (hc : Echoes g c' c) :
    Echoes g c' (.choose k a b c) := by
  obtain ⟨hfirst, hrest⟩ := pairwise_cons.1 hunique.operands.untouched
  have hcond : Disjoint a.tags (b.tags ∪ c.tags) :=
    Set.disjoint_union_right.2 ⟨hfirst b (by simp), hfirst c (by simp)⟩
  have hbranches : Disjoint b.tags c.tags := (pairwise_cons.1 hrest).1 c (by simp)
  have hsets : a.tags ∪ (b.tags ∪ c.tags) ⊆ inner (.choose k a b c) :=
    Set.union_subset (tags_subset (.head _)) (pair_subset (by simp [operands]) (by simp [operands]))
  refine echoes_ofValue he hunique (fun c => by rw [meaning]) fun t => ?_
  exact (choose_replays ha hagain hb.value hc hcond hbranches).widen hsets hsets

theorem echoes_orElse (he : Fits g (.orElse k a b)) (hunique : TagsUnique [.orElse k a b])
    (ha : Echoes g c' a) (hagain : Echoes g g.setting a) (hb : Echoes g c' b) :
    Echoes g c' (.orElse k a b) := by
  have hdisjoint : Disjoint a.tags b.tags := hunique.operands.disjoint
  have hhead : {a.tag} ⊆ a.tags := Set.singleton_subset_iff.2 a.tag_mem_tags
  have hsets : a.tags ∪ b.tags ⊆ inner (.orElse k a b) := pair_subset (.head _) (.tail _ (.head _))
  have hyes : ∀ t, Refinds g c' t {a.tag} ∅ (do return (← recordedTypes a.tag).remove .null)
      (do return (← recordedTypes a.tag).remove .null) := fun t =>
    (recordedTypes_replays a.tag).last fun s t1 _ hs => .pure fun t' ht' => (hs.remove _).mono ht'
  refine echoes_ofValue he hunique (fun c => by rw [meaning]) fun t => ?_
  refine (choose_replays ha hagain hyes hb (by simpa using hdisjoint) (hdisjoint.mono_left hhead)).widen
    ((Set.union_subset Set.subset_union_left (Set.union_subset_union_left _ hhead)).trans hsets) ?_
  simpa using hsets

theorem echoes_item (he : Fits g (.item k a b)) (hunique : TagsUnique [.item k a b])
    (ha : Echoes g c' a) (hb : Echoes g c' b) : Echoes g c' (.item k a b) := by
  have hsets : a.tags ∪ b.tags ⊆ inner (.item k a b) := pair_subset (.head _) (.tail _ (.head _))
  have hstep := fun {m n : Walk TypeSet} {t : ShapeTable} (hm : Refinds g c' t a.tags a.tags m n) =>
    element_refinds hm hb.value hunique.operands.disjoint hsets (hsets.trans (inner_subset _))
  exact echoes_ofPlace he hunique (fun c => by rw [meaning]; rfl)
    (fun t => hstep (ha.value t)) fun t => hstep (ha.quiet t)

variable {args : List (Expr Nat)}

theorem settled_replays {m n : Walk Unit} (hakin : g.setting.Akin c')
    (he : Fits g (.call k name args)) (hunique : TagsUnique [.call k name args])
    (hargs : ∀ a ∈ args, Echoes g c' a)
    (hm : ∀ t, Replays g c' t (inner (.call k name args)) ∅ True q m n fun _ _ => True) :
    Replays g c' t (Expr.call k name args).tags (Expr.call k name args).tags True q
      (reach g.setting k name args >>= settle k m) (reach c' k name args >>= settle k n)
      fun s t => t.Knows s := by
  have hself : inner (.call k name args) ∪ (inner (.call k name args) ∪ {k}) ⊆
      (Expr.call k name args).tags := by
    rw [tags_eq (.call k name args)]
    exact Set.union_subset Set.subset_union_left (le_refl _)
  have hk : {k} ⊆ (Expr.call k name args).tags :=
    Set.singleton_subset_iff.2 (tag_mem_tags (.call k name args))
  refine (reach_replays hakin he hargs hunique).seq (inner (.call k name args) ∪ {k}) {k}
    (fun p t1 _ hp => ?_) (Set.disjoint_singleton_right.2 hunique.tag_notMem)
    (fun _ => trivial) hself (Set.union_subset (le_refl _) hk)
  obtain ⟨target, s⟩ := p
  obtain ⟨hs, types, rfl⟩ := hp
  refine settle_replays he.tag hunique.tag_notMem hs
    (fun w hw => callees_lt hw hakin.resolver) (fun v hv => ?_) hm
  rw [← hakin.bind]
  exact callees_lt hv hakin.resolver'

theorem echoes_call (hakin : g.setting.Akin c') (he : Fits g (.call k name args))
    (hunique : TagsUnique [.call k name args]) (hargs : ∀ a ∈ args, Echoes g c' a) :
    Echoes g c' (.call k name args) := by
  have hpure : ∀ c, recorded k (call c k name args (meanings c args)) =
      reach c k name args >>= settle k (pure ()) := fun c => by
    rw [← recorded_call_eq]
    simp
  have hvalue : ∀ t, Refinds g c' t (Expr.call k name args).tags (Expr.call k name args).tags
      (recorded k (call g.setting k name args (meanings g.setting args)))
      (recorded k (call c' k name args (meanings c' args))) := fun t => by
    rw [hpure, hpure]
    exact settled_replays hakin he hunique hargs fun t =>
      (Replays.pure fun _ _ => trivial).widen (Set.empty_subset _) (le_refl _)
  refine ⟨?_, ?_, ?_⟩ <;> rw [meaning, meaning]
  · exact hvalue
  · exact hvalue
  · intro t b b'
    have hnarrow := settled_replays (q := b = b') (t := t) hakin he hunique hargs fun t =>
      (narrowTo_replays he b b').widen (heads_subset _) (le_refl _)
    rwa [← recorded_call_eq, ← recorded_call_eq] at hnarrow

end Kinds

/-- **Going through an expression again finds nothing new.** -/
theorem meaning_echoes (e : Expr Nat) : Fits g e → TagsUnique [e] → e.IsSteady →
    ∀ c', g.setting.Akin c' → Echoes g c' e := by
  induction e using Expr.induct_operands with
  | _ e ih =>
  intro he hunique hsteady c' hakin
  have hboth : ∀ c', g.setting.Akin c' → ∀ x ∈ e.operands, Echoes g c' x := fun c' hakin x hx =>
    ih x hx (he.operand hx) (hunique.operands.of_mem hx) (hsteady.operand hx) c' hakin
  have hop := hboth c' hakin
  have hagain := hboth g.setting (Setting.Akin.refl hakin.resolver)
  have htarget : ∀ x, e.target? = some x → x ∈ e.operands → Absorbs g c' x := fun x hx hmem =>
    place_absorbs x (he.operand hmem) (hsteady.target hx)
  have hgather : ∀ t, Refinds g c' t (inner e) (inner e) (e.gather g.setting) (e.gather c') := fun t =>
    gather_replays hunique.operands hop
  have hgather' : ∀ t, Refinds g c' t (inner e) e.tags (e.gather g.setting) (e.gather c') := fun t =>
    (hgather t).widen (le_refl _) (inner_subset e)
  by_cases hplain : e.IsPlain
  · exact echoes_ofValue he hunique (Expr.meaning_plain hplain) hgather
  cases e with
  | var => exact echoes_var he hunique
  | assign =>
    exact echoes_assign he hunique (htarget _ rfl (.head _)) (hop _ (.tail _ (.head _)))
  | update =>
    exact echoes_update he hunique (htarget _ rfl (.head _)) (hop _ (.tail _ (.head _)))
  | step => exact echoes_step he hunique (htarget _ rfl (.head _))
  | binary =>
    exact echoes_binary hplain he hunique (hop _ (.head _)) (hagain _ (.head _))
      (hop _ (.tail _ (.head _)))
  | unary k op operand =>
    obtain rfl : op = .not := not_not.1 hplain
    have hin : operand.tags ⊆ inner (.unary k .not operand) := tags_subset (.head _)
    refine echoes_ofCondition he hunique (fun c => by rw [meaning]) fun t b b' => ?_
    exact (((hop operand (.head _)).assume t b.negate b'.negate).discard.weaken
      (congrArg Branch.negate)).widen hin hin
  | choose =>
    exact echoes_choose he hunique (hop _ (.head _)) (hagain _ (.head _))
      (hop _ (.tail _ (.head _))) (hop _ (by simp [operands]))
  | orElse =>
    exact echoes_orElse he hunique (hop _ (.head _)) (hagain _ (.head _)) (hop _ (.tail _ (.head _)))
  | call => exact echoes_call hakin he hunique hop
  | field =>
    exact echoes_ofPlace he hunique (fun c => by rw [meaning, ← Expr.gather_field]; rfl)
      hgather' hgather'
  | item => exact echoes_item he hunique (hop _ (.head _)) (hop _ (.tail _ (.head _)))
  | append =>
    exact echoes_ofPlace he hunique (fun c => by rw [meaning, ← Expr.gather_append]; rfl)
      hgather' hgather'
  | _ => exact absurd trivial hplain

end Infer
end ShapeFlow
