/-
# Walks made again

A walk leaves facts behind, and what it finds depends on some of them.  Suppose the
same steps are taken later on, from the same state, in a routine that remembers all
that was written down the first time, with a table that has grown meanwhile and with
signatures that say the same of the routines called.  Then they come to the same
result and write down nothing new.

The first run is given with its end: what it wrote is what the second run reads.
Facts of two kinds have to be told apart.  Some the steps read, and these must be
found exactly as they were left.  The others are only written, and of these it is
enough that no less is known.

Key definitions: `Setting.Akin`, `Writes`, `Recalls`, `Echo`, `Replays`.
Key theorems: `Replays.bind`, `narrowTo_replays`, and one rule for each step that walks
are made of.
-/
import ShapeFlow.Proofs.Longer
import ShapeFlow.Proofs.Steps

namespace ShapeFlow

open ShapeFlow.Flow List TypeSet

/-- What a signature says of a routine before it is known what that returns. -/
def Signature.head (s : Signature) : Signature := { s with returns := .void }

namespace Infer

variable {e : Expr Nat} {k var : Nat} {s : State} {name : String} {w w' : Walker}

/-- The settings differ at most in what routines return. -/
structure Setting.Akin (c c' : Setting) : Prop where
  candidates : ∀ name, c'.directory.candidates name = c.directory.candidates name
  resolver : c.resolver = Resolver.mostSpecific
  resolver' : c'.resolver = Resolver.mostSpecific
  heads : c'.signatures.map Signature.head = c.signatures.map Signature.head

theorem Setting.Akin.refl {c : Setting} (h : c.resolver = Resolver.mostSpecific) : c.Akin c :=
  ⟨fun _ => rfl, h, h, rfl⟩

/-- The place in another setting. -/
def Place.moved (g : Place) (c : Setting) : Place := { g with setting := c }

/-! ### Two runs -/

/-- A step has written facts about expressions of `T`, and of all else has only logged calls
and made shapes. -/
structure Writes (T : Set Nat) (w w' : Walker) : Prop where
  table : w.table.Extends w'.table
  others : ∀ k ∉ T, w'.routine.facts[k]? = w.routine.facts[k]?
  facts : ∀ k : Nat, Climbs w.routine.facts[k]? w'.routine.facts[k]?
  reports : ∀ x ∈ w.reports, x ∈ w'.reports
  /-- A step that writes nothing reports nothing. -/
  silent : T = ∅ → w'.reports = w.reports

/-- Walker `v` remembers the steps from `w` to `w'`: what they read of `M` and wrote of `T`.  If
`inStep`, it is where they began. -/
structure Recalls (c c' : Setting) (inStep : Prop) (M T : Set Nat) (w w' v : Walker) : Prop where
  state : inStep → v.state = w.state
  table : w'.table.Extends v.table
  same : ∀ k ∈ M, v.routine.facts[k]? = w'.routine.facts[k]?
  facts : ∀ k ∈ T, Climbs w'.routine.facts[k]? v.routine.facts[k]?
  returns : ∀ x ∈ w'.reports, c'.signatures[x.1]? = c.signatures[x.1]?

/-- The steps from `v` to `v'` have found nothing that those that ended in `w'` had not.  If
`inStep`, they have come to the same state and met no new shape. -/
structure Echo (inStep : Prop) (w' v v' : Walker) : Prop where
  facts : v'.routine.facts = v.routine.facts
  reports : ∀ x ∈ v'.reports, x ∈ v.reports ∨ x ∈ w'.reports
  state : inStep → v'.state = w'.state
  table : inStep → v'.table = v.table

variable {β γ : Type} {g : Place} {c' : Setting} {t : ShapeTable} {M M1 M2 T T1 T2 : Set Nat}
  {p q : Prop} {m : Walk β} {f : Fact → Fact}

/-- Whenever it ends, the step has kept a walker over a table that extends `t` sane and has
written facts about `T` only; its result is as `R` says. -/
def Keeping (g : Place) (t : ShapeTable) (T : Set Nat) (m : Walk β) (R : β → ShapeTable → Prop) :
    Prop :=
  ∀ w b w', Sane g w → t.Extends w.table → m w = .ok b w' →
    Sane g w' ∧ Writes T w w' ∧ R b w'.table

/-- Step `n`, taken in the setting `c'` after step `m`, has the result of `m` and finds nothing
new.  If `p` they begin in the same state, and then they end in the same state if `q`. -/
structure Replays (g : Place) (c' : Setting) (t : ShapeTable) (M T : Set Nat) (p q : Prop)
    (m n : Walk β) (R : β → ShapeTable → Prop) : Prop where
  first : Keeping g t T m R
  second : Keeping (g.moved c') t T n R
  echo : ∀ w a w' v b v', Sane g w → Sane (g.moved c') v → t.Extends w.table → m w = .ok a w' →
    n v = .ok b v' → Recalls g.setting c' p M T w w' v → b = a ∧ Echo q w' v v'

/-- As `Replays`, for steps that find types. -/
abbrev Refinds (g : Place) (c' : Setting) (t : ShapeTable) (M T : Set Nat) (m n : Walk TypeSet) :
    Prop :=
  Replays g c' t M T True True m n fun s t => t.Knows s

theorem Writes.refl (T : Set Nat) (w : Walker) : Writes T w w :=
  ⟨.refl _, fun _ _ => rfl, fun _ => .refl Fact.le_refl _, fun _ h => h,
    fun _ => rfl⟩

theorem Writes.trans {w'' : Walker} (h : Writes T1 w w') (h' : Writes T2 w' w'') :
    Writes (T1 ∪ T2) w w'' where
  table := h.table.trans h'.table
  others k hk := by
    rw [Set.mem_union, not_or] at hk
    exact (h'.others k hk.2).trans (h.others k hk.1)
  facts k := (h.facts k).trans (fun _ _ _ => Fact.le_trans) (h'.facts k)
  reports x hx := h'.reports x (h.reports x hx)
  silent hT := by
    rw [Set.union_empty_iff] at hT
    exact (h'.silent hT.2).trans (h.silent hT.1)

theorem Writes.mono (h : Writes T1 w w') (hT : T1 ⊆ T) : Writes T w w' :=
  { h with
    others := fun k hk => h.others k fun hk' => hk (hT hk')
    silent := fun hT' => h.silent (Set.subset_empty_iff.1 (hT' ▸ hT)) }

theorem Writes.facts_eq (h : Writes ∅ w w') : w'.routine.facts = w.routine.facts :=
  Array.ext_getElem? fun k => h.others k (Set.notMem_empty k)

theorem Keeping.mono {R R' : β → ShapeTable → Prop} (h : Keeping g t T1 m R) (hT : T1 ⊆ T)
    (hR : ∀ b t', t.Extends t' → R b t' → R' b t') : Keeping g t T m R' := by
  intro w b w' hw ht hrun
  obtain ⟨hw', hwrites, hb⟩ := h w b w' hw ht hrun
  exact ⟨hw', hwrites.mono hT, hR b _ (ht.trans hwrites.table) hb⟩

variable {R : β → ShapeTable → Prop}

theorem Keeping.bind {f : β → Walk γ} {R' : γ → ShapeTable → Prop} (h : Keeping g t T1 m R)
    (hf : ∀ b t1, t.Extends t1 → R b t1 → Keeping g t1 T2 (f b) R') :
    Keeping g t (T1 ∪ T2) (m >>= f) R' := by
  intro w b w' hw ht hrun
  obtain ⟨a, w1, hm, hfa⟩ := ok_of_bind hrun
  obtain ⟨hw1, hwrites1, ha⟩ := h w a w1 hw ht hm
  obtain ⟨hw2, hwrites2, hb⟩ := hf a w1.table (ht.trans hwrites1.table) ha w1 b w' hw1
    (.refl _) hfa
  exact ⟨hw2, hwrites1.trans hwrites2, hb⟩

namespace Replays

variable {m n : Walk β} {R R' : β → ShapeTable → Prop} {r : Prop} {f f' : β → Walk γ}

theorem mono (h : Replays g c' t M1 T1 p q m n R) (hM : M1 ⊆ M) (hT : T1 ⊆ T)
    (hR : ∀ b t', t.Extends t' → R b t' → R' b t') : Replays g c' t M T p q m n R' where
  first := h.first.mono hT hR
  second := h.second.mono hT hR
  echo w a w' v b v' hw hv ht hm hn hrec := h.echo w a w' v b v' hw hv ht hm hn
    { hrec with same := fun k hk => hrec.same k (hM hk), facts := fun k hk => hrec.facts k (hT hk) }

theorem widen (h : Replays g c' t M1 T1 p q m n R) (hM : M1 ⊆ M) (hT : T1 ⊆ T) :
    Replays g c' t M T p q m n R := h.mono hM hT fun _ _ _ h => h

theorem later {t1 : ShapeTable} (h : Replays g c' t M T p q m n R) (ht : t.Extends t1) :
    Replays g c' t1 M T p q m n R where
  first w b w' hw ht1 hrun := h.first w b w' hw (ht.trans ht1) hrun
  second v b v' hv ht1 hrun := h.second v b v' hv (ht.trans ht1) hrun
  echo w a w' v b v' hw hv ht1 := h.echo w a w' v b v' hw hv (ht.trans ht1)

theorem of_valid (h : ∀ t1, t1.Valid → t.Extends t1 → Replays g c' t1 M T p q m n R) :
    Replays g c' t M T p q m n R where
  first w b w' hw ht := (h w.table hw.table ht).first w b w' hw (.refl _)
  second v b v' hv ht := (h v.table hv.table ht).second v b v' hv (.refl _)
  echo w a w' v b v' hw hv ht := (h w.table hw.table ht).echo w a w' v b v' hw hv (.refl _)

/-- **One step after the other.**  What the first one reads the second one does not write. -/
theorem bind {R' : γ → ShapeTable → Prop} (h : Replays g c' t M1 T1 p q m n R)
    (hf : ∀ b t1, t.Extends t1 → R b t1 → Replays g c' t1 M2 T2 q r (f b) (f' b) R')
    (hfree : Disjoint M1 T2) (hr : r → q) :
    Replays g c' t (M1 ∪ M2) (T1 ∪ T2) p r (m >>= f) (n >>= f') R' where
  first := h.first.bind fun b t1 ht hb => (hf b t1 ht hb).first
  second := h.second.bind fun b t1 ht hb => (hf b t1 ht hb).second
  echo w a w' v b v' hw hv ht hm hn hrec := by
    obtain ⟨a1, w1, hm1, hm2⟩ := ok_of_bind hm
    obtain ⟨b1, v1, hn1, hn2⟩ := ok_of_bind hn
    obtain ⟨hw1, hwrites1, ha1⟩ := h.first w a1 w1 hw ht hm1
    have hrest := hf a1 w1.table (ht.trans hwrites1.table) ha1
    obtain ⟨-, hwrites2, -⟩ := hrest.first w1 a w' hw1 (.refl _) hm2
    have hrec1 : Recalls g.setting c' p M1 T1 w w1 v :=
      { state := hrec.state
        table := hwrites2.table.trans hrec.table
        same := fun k hk => (hrec.same k (.inl hk)).trans
          (hwrites2.others k (hfree.notMem_of_mem_left hk))
        facts := fun k hk => (hwrites2.facts k).trans (fun _ _ _ => Fact.le_trans)
          (hrec.facts k (.inl hk))
        returns := fun x hx => hrec.returns x (hwrites2.reports x hx) }
    obtain ⟨rfl, hecho1⟩ := h.echo w a1 w1 v b1 v1 hw hv ht hm1 hn1 hrec1
    obtain ⟨hv1, hwritesV, -⟩ := h.second v b1 v1 hv
      (ht.trans (hwrites1.table.trans hrec1.table)) hn1
    have hrec2 : Recalls g.setting c' q M2 T2 w1 w' v1 :=
      { state := hecho1.state
        table := hrec.table.trans hwritesV.table
        same := fun k hk => by rw [hecho1.facts]; exact hrec.same k (.inr hk)
        facts := fun k hk => by rw [hecho1.facts]; exact hrec.facts k (.inr hk)
        returns := hrec.returns }
    obtain ⟨rfl, hecho2⟩ := hrest.echo w1 a w' v1 b v' hw1 hv1 (.refl _) hm2 hn2
      hrec2
    refine ⟨rfl, hecho2.facts.trans hecho1.facts, fun x hx => ?_, hecho2.state,
      fun hstep => (hecho2.table hstep).trans (hecho1.table (hr hstep))⟩
    rcases hecho2.reports x hx with hx | hx
    · exact (hecho1.reports x hx).imp_right (hwrites2.reports x)
    · exact .inr hx

/-- As `bind`, where more may be read and written than is. -/
theorem seq (h : Replays g c' t M1 T1 p q m n R) (M2 T2 : Set Nat) {R' : γ → ShapeTable → Prop}
    (hf : ∀ b t1, t.Extends t1 → R b t1 → Replays g c' t1 M2 T2 q r (f b) (f' b) R')
    (hfree : Disjoint M1 T2) (hr : r → q) (hM : M1 ∪ M2 ⊆ M) (hT : T1 ∪ T2 ⊆ T) :
    Replays g c' t M T p r (m >>= f) (n >>= f') R' :=
  (h.bind hf hfree hr).widen hM hT

section Parts

variable {f f' : β → Walk γ} {R' : γ → ShapeTable → Prop}

/-- As `bind`, where the second step has to do with no facts. -/
theorem last (h : Replays g c' t M T p q m n R)
    (hf : ∀ b t1, t.Extends t1 → R b t1 → Replays g c' t1 ∅ ∅ q q (f b) (f' b) R') :
    Replays g c' t M T p q (m >>= f) (n >>= f') R' :=
  h.seq ∅ ∅ hf (Set.disjoint_empty _) id (by simp) (by simp)

theorem also (h : Replays g c' t ∅ T p q m n R)
    (hf : ∀ b t1, t.Extends t1 → R b t1 → Replays g c' t1 ∅ T q q (f b) (f' b) R') :
    Replays g c' t ∅ T p q (m >>= f) (n >>= f') R' :=
  h.seq ∅ T hf (Set.empty_disjoint _) id (by simp) (by simp)

/-- As `bind`, where the first step has to do with no facts. -/
theorem next (h : Replays g c' t ∅ ∅ p q m n R)
    (hf : ∀ b t1, t.Extends t1 → R b t1 → Replays g c' t1 M T q q (f b) (f' b) R') :
    Replays g c' t M T p q (m >>= f) (n >>= f') R' :=
  h.seq M T hf (Set.empty_disjoint _) id (by simp) (by simp)

end Parts

theorem weaken (h : Replays g c' t M T p q m n R) (hq : r → q) :
    Replays g c' t M T p r m n R where
  first := h.first
  second := h.second
  echo w a w' v b v' hw hv ht hm hn hrec := by
    obtain ⟨hb, hecho⟩ := h.echo w a w' v b v' hw hv ht hm hn hrec
    exact ⟨hb, hecho.facts, hecho.reports, fun hr => hecho.state (hq hr), fun hr => hecho.table (hq hr)⟩

end Replays

/-! ### Rules -/

theorem writes_same (htable : w.table.Extends w'.table)
    (hfacts : w'.routine.facts = w.routine.facts) (hreports : w'.reports = w.reports) :
    Writes T w w' where
  table := htable
  others k _ := by rw [hfacts]
  facts k := by
    rw [hfacts]
    exact .refl Fact.le_refl _
  reports x hx := hreports.symm ▸ hx
  silent _ := hreports

theorem Echo.refl {v : Walker} (h : p → v.state = w'.state) : Echo p w' v v :=
  ⟨rfl, fun _ hx => .inl hx, h, fun _ => rfl⟩

namespace Replays

variable {m n : Walk β} {R : β → ShapeTable → Prop} {b : β}

theorem of_keeping (hkeep : ∀ c, Keeping (g.moved c) t T m R)
    (hecho : ∀ w a w' v b v', Sane g w → Sane (g.moved c') v → t.Extends w.table →
      m w = .ok a w' → m v = .ok b v' → Recalls g.setting c' p M T w w' v →
      b = a ∧ Echo q w' v v') : Replays g c' t M T p q m m R :=
  ⟨hkeep g.setting, hkeep c', hecho⟩

theorem pure_of_valid (hR : ∀ t', t'.Valid → t.Extends t' → R b t') :
    Replays g c' t ∅ ∅ p p (Pure.pure b) (Pure.pure b) R := by
  refine of_keeping (fun c w a w' hw ht hrun => ?_) fun w a w' v b' v' hw hv ht hm hn hrec => ?_
  · cases hrun
    exact ⟨hw, .refl _ _, hR _ hw.table ht⟩
  · cases hm
    cases hn
    exact ⟨rfl, .refl hrec.state⟩

theorem pure (hR : ∀ t', t.Extends t' → R b t') :
    Replays g c' t ∅ ∅ p p (Pure.pure b) (Pure.pure b) R := pure_of_valid fun t' _ => hR t'

theorem map {f : β → γ} {R' : γ → ShapeTable → Prop} (h : Replays g c' t M T p q m n R)
    (hR : ∀ b t', R b t' → ∀ t'', t'.Extends t'' → R' (f b) t'') :
    Replays g c' t M T p q (f <$> m) (f <$> n) R' := by
  rw [map_eq_pure_bind, map_eq_pure_bind]
  refine (h.bind (fun b t1 _ hb => .pure (hR b t1 hb)) (Set.disjoint_empty _) id).mono ?_ ?_
    fun _ _ _ hb => hb
  all_goals rw [Set.union_empty]

theorem discard (h : Replays g c' t M T p q m n R) :
    Replays g c' t M T p q (discard m) (discard n) fun _ _ => True := h.map fun _ _ _ _ _ => trivial

end Replays

/-! The state -/

theorem getState_replays : Replays g c' t ∅ ∅ True True getState getState fun s t =>
    t.Valid ∧ State.Fits g.routine g.vars s ∧ State.Known t s := by
  refine .of_keeping (fun c w a w' hw ht hrun => ?_) fun w a w' v b' v' hw hv ht hm hn hrec => ?_
  · cases hrun
    exact ⟨hw, .refl _ _, hw.table, hw.fits, hw.known⟩
  · cases hm
    cases hn
    exact ⟨hrec.state trivial, .refl hrec.state⟩

theorem setState_replays (hfits : State.Fits g.routine g.vars s) (hknown : State.Known t s) :
    Replays g c' t ∅ ∅ p True (setState s) (setState s) fun _ _ => True := by
  refine .of_keeping (fun c w a w' hw ht hrun => ?_) fun w a w' v b' v' hw hv ht hm hn hrec => ?_
  · cases hrun
    exact ⟨hw.withState hfits (hknown.mono ht), writes_same (.refl _) rfl rfl, trivial⟩
  · cases hm
    cases hn
    exact ⟨rfl, rfl, fun _ hx => .inl hx, fun _ => rfl, fun _ => rfl⟩

theorem of_joinWith {u : Unit} (h : joinWith s w = .ok u w') :
    ∃ c, s.join w.state = .ok c ∧ w' = { w with state := c } := by
  obtain ⟨c, hjoin, h⟩ := ok_of_ofExcept (x := s.join w.state) h
  cases h
  exact ⟨c, hjoin, rfl⟩

theorem joinWith_replays (hfits : State.Fits g.routine g.vars s) (hknown : State.Known t s) :
    Replays g c' t ∅ ∅ True True (joinWith s) (joinWith s) fun _ _ => True := by
  refine .of_keeping (fun c w a w' hw ht hrun => ?_) fun w a w' v b' v' hw hv ht hm hn hrec => ?_
  · obtain ⟨hw', -, -⟩ := (joinWith_runs (g := g.moved c) hw hfits (hknown.mono ht)).ok hrun
    obtain ⟨d, -, rfl⟩ := of_joinWith hrun
    exact ⟨hw', writes_same (.refl _) rfl rfl, trivial⟩
  · obtain ⟨d, hd, rfl⟩ := of_joinWith hm
    obtain ⟨d', hd', rfl⟩ := of_joinWith hn
    refine ⟨rfl, rfl, fun _ hx => .inl hx, fun _ => ?_, fun _ => rfl⟩
    rw [hrec.state trivial, hd] at hd'
    exact (Except.ok.inj hd').symm

/-! The table -/

/-- A step that depends on the table comes to the same with a longer one. -/
theorem getTable_replays {f f' : ShapeTable → Walk β}
    (hf : ∀ t1 t2, t.Extends t1 → t1.Extends t2 → t1.Valid → t2.Valid →
      Replays g c' t1 M T p q (f t1) (f' t2) R) :
    Replays g c' t M T p q (getTable >>= f) (getTable >>= f') R where
  first w a w' hw ht hrun := (hf _ _ ht (.refl _) hw.table hw.table).first w a w' hw (.refl _) hrun
  second w a w' hw ht hrun := (hf _ _ ht (.refl _) hw.table hw.table).second w a w' hw (.refl _) hrun
  echo w a w' v b v' hw hv ht hm hn hrec := by
    have hwrites := ((hf _ _ ht (.refl _) hw.table hw.table).first w a w' hw (.refl _) hm).2.1
    exact (hf w.table v.table ht (hwrites.table.trans hrec.table) hw.table hv.table).echo
      w a w' v b v' hw hv (.refl _) hm hn hrec

theorem lookState_replays {f : ShapeTable → State → State}
    (hf : ∀ t' s, t'.Valid → t.Extends t' → State.Fits g.routine g.vars s → State.Known t' s →
      State.Fits g.routine g.vars (f t' s) ∧ State.Known t' (f t' s) ∧
        ∀ t'', t'.Extends t'' → f t'' s = f t' s) :
    Replays g c' t ∅ ∅ True True (getTable >>= fun t => modifyState (f t))
      (getTable >>= fun t => modifyState (f t)) fun _ _ => True := by
  refine .of_keeping (fun c w a w' hw ht hrun => ?_) fun w a w' v b' v' hw hv ht hm hn hrec => ?_
  · cases hrun
    obtain ⟨hfits, hknown, -⟩ := hf _ _ hw.table ht hw.fits hw.known
    exact ⟨hw.withState hfits hknown, writes_same (.refl _) rfl rfl, trivial⟩
  · cases hm
    cases hn
    obtain ⟨-, -, hsame⟩ := hf _ _ hw.table ht hw.fits hw.known
    refine ⟨rfl, rfl, fun _ hx => .inl hx, fun _ => ?_, fun _ => rfl⟩
    show f v.table v.state = f w.table w.state
    rw [hrec.state trivial, hsame v.table hrec.table]

theorem modifyState_replays {f : State → State}
    (hf : ∀ t' s, t'.Valid → t.Extends t' → State.Fits g.routine g.vars s → State.Known t' s →
      State.Fits g.routine g.vars (f s) ∧ State.Known t' (f s)) :
    Replays g c' t ∅ ∅ True True (modifyState f) (modifyState f) fun _ _ => True :=
  lookState_replays (f := fun _ => f) fun t' s ht hext hfits hknown =>
    ⟨(hf t' s ht hext hfits hknown).1, (hf t' s ht hext hfits hknown).2, fun _ _ => rfl⟩

theorem intern_replays {f : ShapeTable → TypeSet × ShapeTable}
    (hf : ∀ t', t'.Valid → t.Extends t' →
      ((f t').2.Valid ∧ t'.Extends (f t').2 ∧ (f t').2.Knows (f t').1) ∧
        ∀ t'', (f t').2.Extends t'' → t''.Valid → f t'' = ((f t').1, t'')) :
    Replays g c' t ∅ ∅ p p (intern f) (intern f) fun s t => t.Knows s := by
  refine .of_keeping (fun c w a w' hw ht hrun => ?_) fun w a w' v b' v' hw hv ht hm hn hrec => ?_
  · cases hrun
    obtain ⟨⟨hvalid, hext, hknown⟩, -⟩ := hf _ hw.table ht
    exact ⟨hw.withTable hvalid hext, writes_same hext rfl rfl, hknown⟩
  · cases hm
    cases hn
    have hagain := (hf _ hw.table ht).2 v.table hrec.table hv.table
    refine ⟨?_, rfl, fun _ hx => .inl hx, hrec.state, fun _ => ?_⟩
    · show (f v.table).1 = (f w.table).1
      rw [hagain]
    · show (f v.table).2 = v.table
      rw [hagain]

theorem named_replays (className : String) :
    Replays g c' t ∅ ∅ p p (intern (·.named className)) (intern (·.named className))
      fun s t => t.Knows s :=
  intern_replays fun _ ht' _ => ⟨ShapeTable.named_spec ht' className,
    fun _ hext _ => ShapeTable.intern_again hext⟩

theorem of_elementOf {s r : TypeSet} (h : elementOf s w = .ok r w') :
    w.table.element s = some r ∧ w' = w := by
  unfold elementOf inspect at h
  rw [getTable_bind] at h
  rcases helem : w.table.element s with _ | x <;> simp only [helem] at h
  · cases h
  · cases h
    exact ⟨rfl, rfl⟩

theorem elementOf_replays {s : TypeSet} (hs : t.Knows s) :
    Replays g c' t ∅ ∅ p p (elementOf s) (elementOf s) fun s t => t.Knows s := by
  refine .of_keeping (fun c w a w' hw ht hrun => ?_) fun w a w' v b' v' hw hv ht hm hn hrec => ?_
  · obtain ⟨hw', -, hknown⟩ := (elementOf_runs (g := g.moved c) hw (hs.mono ht)).ok hrun
    obtain ⟨-, rfl⟩ := of_elementOf hrun
    exact ⟨hw', .refl _ _, hknown⟩
  · obtain ⟨ha, rfl⟩ := of_elementOf hm
    obtain ⟨hb, rfl⟩ := of_elementOf hn
    rw [hrec.table.element (hs.mono ht), ha] at hb
    exact ⟨(Option.some.inj hb).symm, .refl hrec.state⟩

/-! Facts -/

theorem writes_withFact (hf : ∀ x, x ≤ f x) : Writes {k} w (withFact w k f) where
  table := .refl _
  others j hj := by
    rw [facts_withFact, if_neg]
    exact fun h => hj h.symm
  facts j := persists_modify Fact.le_refl hf k j
  reports _ hx := hx
  silent _ := rfl

theorem facts_withFact_eq (hf : ∀ x, w.routine.facts[k]? = some x → f x = x) :
    (withFact w k f).routine.facts = w.routine.facts := by
  apply Array.ext_getElem?
  intro j
  rw [facts_withFact]
  split
  next h =>
    subst h
    rcases hx : w.routine.facts[k]? with _ | x
    · rfl
    · rw [Option.map_some, hf x hx]
  next => rfl

/-- A write that is absorbed where as much is known already. -/
theorem withFact_replays {m : Walk Unit} (hk : g.tags k)
    (hrun : ∀ w u w', m w = .ok u w' → w' = withFact w k f)
    (hvalid : ∀ c t' x, t.Extends t' → Fact.Valid t' (g.moved c).vars (g.moved c).routines x →
      (f x).Valid t' (g.moved c).vars (g.moved c).routines) (hf : ∀ x, x ≤ f x)
    (habsorb : ∀ x y, f x ≤ y → f y = y) : Replays g c' t ∅ {k} p p m m fun _ _ => True := by
  refine .of_keeping (fun c w a w' hw ht hm => ?_) fun w a w' v b' v' hw hv ht hm hn hrec => ?_
  · obtain rfl := hrun _ _ _ hm
    exact ⟨hw.withFact fun x => hvalid c _ x ht, writes_withFact hf, trivial⟩
  · obtain rfl := hrun _ _ _ hm
    obtain rfl := hrun _ _ _ hn
    refine ⟨rfl, facts_withFact_eq fun y hy => ?_, fun _ hx => .inl hx, hrec.state, fun _ => rfl⟩
    have hclimbs := hrec.facts k rfl
    rw [facts_withFact, if_pos rfl, hy, Array.getElem?_eq_getElem (hw.tags k hk)] at hclimbs
    obtain ⟨z, hz, hle⟩ := hclimbs _ rfl
    cases hz
    exact habsorb _ _ hle

theorem record_replays (hk : g.tags k) {s : TypeSet} (hs : t.Knows s) :
    Replays g c' t ∅ {k} p p (record k s) (record k s) fun _ _ => True :=
  withFact_replays hk (fun _ _ _ h => (of_record h).2)
    (fun _ _ _ ht hx => { hx with types := hx.types.union (hs.mono ht) })
    (fun _ => ⟨le_union_left _ _, .refl ReadSite.le_refl _⟩)
    fun x y hle => by
      have hsub : s ≤ y.types := le_trans (le_union_right x.types s) hle.types
      rw [union_eq_left hsub]

theorem noteRead_replays (hk : g.tags k) (hvar : var < g.vars) (a b : Bool) :
    Replays g c' t ∅ {k} p p (noteRead k var a b) (noteRead k var a b) fun _ _ => True := by
  refine withFact_replays hk (fun _ _ _ h => by cases h; rfl) (fun c t' x _ hx => ?_) (fun x => ?_)
    fun x y hle => ?_
  · refine { hx with read := fun r hr => ?_ }
    cases hr
    rcases hread : x.read with _ | s
    · exact hvar
    · exact hx.read s hread
  · refine ⟨le_refl _, fun s hs => ⟨_, rfl, ?_⟩⟩
    rw [Option.mem_def] at hs
    rw [hs]
    exact ⟨rfl, fun h => by simp [h], fun h => by simpa using (Bool.and_eq_true_iff.1 h).1⟩
  · obtain ⟨s, hs, hsite⟩ := hle.read _ rfl
    rw [Option.mem_def] at hs
    have ha : a = true → s.possibly = true := by
      refine fun h => hsite.possibly ?_
      rcases x.read with _ | r <;> simp [h]
    have hb : s.certainly = true → b = true := by
      intro h
      have := hsite.certainly h
      rcases hread : x.read with _ | r <;> rw [hread] at this
      · exact this
      · exact (Bool.and_eq_true_iff.1 this).2
    have hpossibly : (s.possibly || a) = s.possibly := by
      cases a <;> simp_all
    have hcertainly : (s.certainly && b) = s.certainly := by
      cases hc : s.certainly <;> simp_all
    simp only [hs, hpossibly, hcertainly]
    rw [← hs]

theorem recorded_replays (hk : g.tags k) (hM : k ∉ M) {m n : Walk TypeSet}
    (h : Replays g c' t M T p q m n fun s t => t.Knows s) :
    Replays g c' t M (T ∪ {k}) p q (recorded k m) (recorded k n) fun s t => t.Knows s := by
  unfold recorded
  refine h.seq ∅ {k} (fun s t1 _ hs => ?_) (by simpa using hM) id (by simp) (le_refl _)
  refine (record_replays hk hs).last fun _ t2 h2 _ => Replays.pure fun t' ht' =>
    hs.mono (h2.trans ht')

theorem recordedTypes_replays (k : Nat) :
    Replays g c' t {k} ∅ p p (recordedTypes k) (recordedTypes k) fun s t => t.Knows s := by
  refine .of_keeping (fun c w a w' hw ht hm => ?_) fun w a w' v b' v' hw hv ht hm hn hrec => ?_
  · obtain ⟨hw', -, rfl, hknown⟩ := (recordedTypes_runs (g := g.moved c) hw k).ok hm
    exact ⟨hw', .refl _ _, hknown⟩
  · cases hm
    cases hn
    refine ⟨?_, .refl hrec.state⟩
    show (v.routine.facts[k]?.map (·.types)).getD .any = _
    rw [hrec.same k rfl]

theorem bindCall_keeping {target : Target}
    (htarget : ∀ w, Sane g w → ∀ x ∈ target.callees, x < g.routines) :
    Keeping g t {k} (bindCall k target) fun _ _ => True := by
  intro w u w' hw ht hm
  cases hm
  refine ⟨hw.withFact fun x hx => { hx with target := fun r hr => ?_ }, writes_withFact fun x =>
    ⟨le_refl _, .refl ReadSite.le_refl _⟩, trivial⟩
  cases hr
  exact htarget w hw

/-! Variables -/

theorem of_useVar (hw : Sane g w) (hname : name ∈ g.names) {i : Nat} (h : useVar name w = .ok i w') :
    i = g.names.idxOf name ∧
      w' = { w with routine := { w.routine with scope := { w.routine.scope with
        used := w.routine.scope.used.insert (g.names.idxOf name) } } } := by
  have huse := Scope.use_eq (hw.names ▸ hname : name ∈ w.routine.scope.names)
  rw [hw.names] at huse
  change EStateM.Result.ok (w.routine.scope.use name).1 { w with routine := { w.routine with
    scope := (w.routine.scope.use name).2 } } = _ at h
  rw [huse] at h
  cases h
  exact ⟨rfl, rfl⟩

theorem useVar_replays (hname : name ∈ g.names) :
    Replays g c' t ∅ ∅ p p (useVar name) (useVar name) fun i _ => i < g.vars := by
  refine .of_keeping (fun c w a w' hw ht hm => ?_) fun w a w' v b v' hw hv ht hm hn hrec => ?_
  · obtain ⟨rfl, rfl⟩ := of_useVar hw hname hm
    exact ⟨hw.withScope _ _, writes_same (.refl _) rfl rfl, idxOf_lt_length_iff.2 hname⟩
  · obtain ⟨rfl, rfl⟩ := of_useVar hw hname hm
    obtain ⟨rfl, rfl⟩ := of_useVar hv hname hn
    exact ⟨rfl, rfl, fun _ hx => .inl hx, hrec.state, fun _ => rfl⟩

theorem varOf?_replays (he : Named g e) :
    Replays g c' t ∅ ∅ p p (varOf? e) (varOf? e) fun o _ => ∀ i ∈ o, i < g.vars := by
  unfold varOf?
  rcases hname : e.varName? with _ | name
  · exact .pure fun _ _ => by simp
  · exact (useVar_replays (he name hname)).map fun i _ hi _ _ j hj => by
      cases hj
      exact hi

theorem withVar_replays (he : Named g e) {f : Option Nat → Walk Unit} (hnone : f none = pure ())
    (hsome : ∀ var < g.vars, Replays g c' t ∅ ∅ True True (f (some var)) (f (some var)) fun _ _ => True) :
    Replays g c' t ∅ ∅ True True (varOf? e >>= f) (varOf? e >>= f) fun _ _ => True := by
  refine (varOf?_replays he).last fun o t1 ht ho => ?_
  cases o with
  | none =>
    rw [hnone]
    exact .pure fun _ _ => trivial
  | some var => exact (hsome var (ho var rfl)).later ht

theorem markAliased_replays (hvar : var < g.vars) :
    Replays g c' t ∅ ∅ p p (markAliased var) (markAliased var) fun _ _ => True := by
  refine .of_keeping (fun c w a w' hw ht hm => ?_) fun w a w' v b v' hw hv ht hm hn hrec => ?_
  · obtain ⟨hw', -, -⟩ := (markAliased_runs (g := g.moved c) hw hvar).ok hm
    obtain ⟨scope, -, rfl⟩ := of_updateScope hm
    exact ⟨hw', writes_same (.refl _) rfl rfl, trivial⟩
  · obtain ⟨_, -, rfl⟩ := of_updateScope hm
    obtain ⟨_, -, rfl⟩ := of_updateScope hn
    exact ⟨rfl, rfl, fun _ hx => .inl hx, hrec.state, fun _ => rfl⟩

theorem addFlags_replays (f : Flags) :
    Replays g c' t ∅ ∅ p p (addFlags f) (addFlags f) fun _ _ => True := by
  refine .of_keeping (fun c w a w' hw ht hm => ?_) fun w a w' v b v' hw hv ht hm hn hrec => ?_
  · cases hm
    exact ⟨{ hw with }, writes_same (.refl _) rfl rfl, trivial⟩
  · cases hm
    cases hn
    exact ⟨rfl, rfl, fun _ hx => .inl hx, hrec.state, fun _ => rfl⟩

theorem assign_replays (hvar : var < g.vars) {s : TypeSet} (hs : t.Knows s) :
    Replays g c' t ∅ ∅ True True (modifyState (·.assign var s)) (modifyState (·.assign var s))
      fun _ _ => True :=
  modifyState_replays fun _ _ _ ht hfits hknown =>
    ⟨hfits.assign hvar s, hknown.assign (hs.mono ht) var⟩

theorem readVariable_replays (hk : g.tags k) (hname : name ∈ g.names) (quiet : Bool) :
    Refinds g c' t ∅ {k} (readVariable k name quiet)
      (readVariable k name quiet) := by
  refine (useVar_replays hname).next fun var t1 _ hvar => ?_
  refine getState_replays.next fun s t2 _ hs => ?_
  have hcur : ∀ t', t2.Extends t' → t'.Knows (current s var) := by
    intro t' ht'
    have hget := (hs.2.2.get var).plain
    exact (hget.ite (hget.union hs.1.knows_null)).mono ht'
  cases quiet
  · exact (noteRead_replays hk hvar _ _).last fun _ t3 ht3 _ => Replays.pure fun t' ht' =>
      hcur t' (ht3.trans ht')
  · exact (Replays.pure hcur).widen (by simp) (by simp)

/-! ### Steps for each element of a list -/

section Lists

variable {α : Type} {reads writes : α → Set Nat}

/-- What is read, or written, for some element of the list. -/
def forSome (f : α → Set Nat) (l : List α) : Set Nat := {k | ∃ a ∈ l, k ∈ f a}

/-- What is read for one element, is not written for the later ones. -/
abbrev Untouched (reads writes : α → Set Nat) (l : List α) : Prop :=
  l.Pairwise fun a b => Disjoint (reads a) (writes b)

theorem union_forSome (f : α → Set Nat) (a : α) (l : List α) :
    f a ∪ forSome f l ⊆ forSome f (a :: l) := by
  rintro k (hk | ⟨b, hb, hk⟩)
  · exact ⟨a, .head _, hk⟩
  · exact ⟨b, .tail _ hb, hk⟩

variable {l : List α} {f : α → Walk PUnit}

theorem disjoint_forSome {a : α} (h : ∀ b ∈ l, Disjoint (reads a) (writes b)) :
    Disjoint (reads a) (forSome writes l) := by
  rw [Set.disjoint_left]
  rintro k hk ⟨b, hb, hk'⟩
  exact Set.disjoint_left.1 (h b hb) hk hk'

theorem forM_replays {f' : α → Walk PUnit} : ∀ {l : List α} {t : ShapeTable},
    Untouched reads writes l →
    (∀ a ∈ l, ∀ t1, t.Extends t1 →
      Replays g c' t1 (reads a) (writes a) True True (f a) (f' a) fun _ _ => True) →
    Replays g c' t (forSome reads l) (forSome writes l) True True (l.forM f) (l.forM f') fun _ _ => True
  | [], t, _, _ => (Replays.pure fun _ _ => trivial).widen (Set.empty_subset _) (Set.empty_subset _)
  | a :: l, t, huntouched, h => by
    obtain ⟨hfirst, hrest⟩ := pairwise_cons.1 huntouched
    exact (h a (.head _) t (.refl t)).seq _ _ (fun _ t1 ht1 _ =>
      forM_replays hrest fun b hb t2 ht2 => h b (.tail _ hb) t2 (ht1.trans ht2))
      (disjoint_forSome hfirst) id (union_forSome _ _ _) (union_forSome _ _ _)

theorem mapM_replays {f f' : α → Walk TypeSet} : ∀ {l : List α} {t : ShapeTable},
    Untouched reads writes l →
    (∀ a ∈ l, ∀ t1, t.Extends t1 →
      Refinds g c' t1 (reads a) (writes a) (f a) (f' a)) →
    Replays g c' t (forSome reads l) (forSome writes l) True True (l.mapM f) (l.mapM f')
      fun ss t => ∀ s ∈ ss, t.Knows s
  | [], t, _, _ => by
    rw [mapM_nil, mapM_nil]
    exact (Replays.pure fun _ _ => by simp).widen (Set.empty_subset _) (Set.empty_subset _)
  | a :: l, t, huntouched, h => by
    obtain ⟨hfirst, hrest⟩ := pairwise_cons.1 huntouched
    rw [mapM_cons, mapM_cons]
    refine (h a (.head _) t (.refl t)).seq (forSome reads l) (forSome writes l)
      (fun s t1 ht1 hs => ?_) (disjoint_forSome hfirst) id (union_forSome _ _ _)
      (union_forSome _ _ _)
    refine (mapM_replays hrest fun b hb t2 ht2 =>
      h b (.tail _ hb) t2 (ht1.trans ht2)).last fun ss t2 ht2 hss =>
        Replays.pure fun t' ht' x hx => ?_
    rcases mem_cons.1 hx with rfl | hx
    · exact hs.mono (ht2.trans ht')
    · exact (hss x hx).mono ht'

theorem foldlM_replays {f f' : TypeSet → α → Walk TypeSet} : ∀ {l : List α} {t : ShapeTable}
    {s : TypeSet}, t.Knows s → Untouched reads writes l →
    (∀ a ∈ l, ∀ s t1, t.Extends t1 → t1.Knows s →
      Refinds g c' t1 (reads a) (writes a) (f s a) (f' s a)) →
    Refinds g c' t (forSome reads l) (forSome writes l) (l.foldlM f s) (l.foldlM f' s)
  | [], t, s, hs, _, _ => by
    rw [foldlM_nil, foldlM_nil]
    exact (Replays.pure fun _ ht => hs.mono ht).widen (Set.empty_subset _) (Set.empty_subset _)
  | a :: l, t, s, hs, huntouched, h => by
    obtain ⟨hfirst, hrest⟩ := pairwise_cons.1 huntouched
    rw [foldlM_cons, foldlM_cons]
    exact (h a (.head _) s t (.refl t) hs).seq _ _ (fun s1 t1 ht1 hs1 =>
      foldlM_replays hs1 hrest fun b hb s t2 ht2 =>
        h b (.tail _ hb) s t2 (ht1.trans ht2))
      (disjoint_forSome hfirst) id (union_forSome _ _ _) (union_forSome _ _ _)

theorem forM_replays_silent
    (h : ∀ a ∈ l, ∀ t1, t.Extends t1 → Replays g c' t1 ∅ ∅ True True (f a) (f a) fun _ _ => True) :
    Replays g c' t ∅ ∅ True True (l.forM f) (l.forM f) fun _ _ => True := by
  have hnone : forSome (fun _ : α => (∅ : Set Nat)) l = ∅ := by
    ext k
    simp [forSome]
  have hall : Replays g c' t (forSome (fun _ => ∅) l) (forSome (fun _ => ∅) l) True True (l.forM f)
      (l.forM f) fun _ _ => True :=
    forM_replays (pairwise_of_forall fun _ _ => Set.disjoint_empty _) h
  rwa [hnone] at hall

end Lists

/-! ### Conditions -/

theorem change_longer {t' : ShapeTable} (hext : t.Extends t') (hcur : t.Knows (current s var))
    (q : Test) (outcome : Bool) : q.change t' var s outcome = q.change t var s outcome := by
  cases q with
  | null op => cases op <;> cases outcome <;> rfl
  | kind kind => cases outcome <;> simp only [Test.change, hext.restrict hcur, hext.remove_ofKind hcur]

theorem isIntSoFar_replays (k : Nat) :
    Replays g c' t {k} ∅ p p (isIntSoFar k) (isIntSoFar k) fun _ _ => True := by
  refine .of_keeping (fun c w a w' hw ht hm => ?_) fun w a w' v b v' hw hv ht hm hn hrec => ?_
  · cases hm
    exact ⟨hw, .refl _ _, trivial⟩
  · obtain ⟨-, -, -, hknown⟩ := (recordedTypes_runs hw k).ok rfl
    cases hm
    cases hn
    refine ⟨?_, .refl hrec.state⟩
    show v.table.isKind ((v.routine.facts[k]?.map (·.types)).getD .any) .int =
      w.table.isKind ((w.routine.facts[k]?.map (·.types)).getD .any) .int
    rw [hrec.same k rfl, hrec.table.isKind hknown]

/-- The numbers of the expressions. -/
def heads (es : List (Expr Nat)) : Set Nat := {k | ∃ x ∈ es, x.tag = k}

theorem learn_replays {clue : Clue} (he : Named g e)
    (h : ∀ limit other, clue = .limit limit other → other.tag ∈ M) :
    Replays g c' t M ∅ True True (learn e clue) (learn e clue) fun _ _ => True := by
  cases clue with
  | test q outcome =>
    refine (withVar_replays he rfl fun var hvar => ?_).widen (Set.empty_subset _) (le_refl _)
    exact lookState_replays fun t' s ht _ hfits hknown =>
      ⟨Test.fits_change hfits hvar q outcome, Test.known_change ht hknown q outcome,
        fun t'' hext => change_longer hext (hknown.current ht var) q outcome⟩
  | isA className =>
    refine (withVar_replays he rfl fun var hvar => ?_).widen (Set.empty_subset _) (le_refl _)
    exact (named_replays _).seq _ _ (fun s t1 _ hs => assign_replays hvar hs)
      (Set.disjoint_empty _) id (by simp) (by simp)
  | limit limit other =>
    refine ((isIntSoFar_replays other.tag).last fun known t1 _ _ => ?_).widen ?_ (le_refl _)
    · cases known
      · exact .pure fun _ _ => trivial
      · refine withVar_replays he rfl fun var hvar => modifyState_replays fun _ _ _ _ hfits hknown => ?_
        exact ⟨hfits.addNote hvar, hknown⟩
    · exact Set.singleton_subset_iff.2 (h limit other rfl)

theorem narrow_replays (he : Fits g e) (outcome : Bool) :
    Replays g c' t (heads e.operands) ∅ True True (narrow e outcome) (narrow e outcome)
      fun _ _ => True := by
  rw [narrow_eq]
  refine (forM_replays
    (pairwise_of_forall (fun _ _ => Set.disjoint_empty _) : Untouched (fun _ => heads e.operands) _ _)
    fun p hp t1 _ => learn_replays ?_
      fun limit other hclue => ⟨other, Expr.limit_mem_clues hp hclue, rfl⟩).widen ?_ ?_
  · rcases Expr.mem_clues hp with heq | hop
    · exact heq ▸ he.named
    · exact (he.operand hop).named
  · exact fun k ⟨_, _, hk⟩ => hk
  · exact fun k ⟨_, _, hk⟩ => hk

theorem narrowTo_replays (he : Fits g e) (b b' : Branch) :
    Replays g c' t (heads e.operands) ∅ True (b = b') (narrowTo e b) (narrowTo e b')
      fun _ _ => True := by
  have hsame : ∀ b, Replays g c' t (heads e.operands) ∅ True True (narrowTo e b) (narrowTo e b)
      fun _ _ => True := by
    intro b
    cases b with
    | either =>
      exact (Replays.pure fun _ _ => trivial).widen (Set.empty_subset _) (Set.empty_subset _)
    | holds => exact narrow_replays he true
    | fails => exact narrow_replays he false
  refine ⟨(hsame b).first, (hsame b').second, fun w _ w' v _ v' hw hv ht hm hn hrec => ⟨rfl, ?_⟩⟩
  by_cases hb : b = b'
  · subst hb
    obtain ⟨-, hecho⟩ := (hsame b).echo w _ w' v _ v' hw hv ht hm hn hrec
    exact { hecho with state := fun _ => hecho.state trivial, table := fun _ => hecho.table trivial }
  · have hwrites := ((hsame b').second v _ v' hv (ht.trans ?_) hn).2.1
    · exact ⟨hwrites.facts_eq, fun x hx => .inl (hwrites.silent rfl ▸ hx), fun h => absurd h hb,
        fun h => absurd h hb⟩
    · exact (((hsame b).first w _ w' hw ht hm).2.1).table.trans hrec.table

end Infer
end ShapeFlow
