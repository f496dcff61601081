/-
# Variables beyond the bit sets

The sets of variables that a state keeps have 64 bits.  Of a variable beyond them a
state says nothing: it may hold anything and counts as initialized.  So a read of it
finds anything and gives no cause for concern.

The state has a slot for such a variable all the same, and what the variable has
throughout its routine is taken from the slots, whatever the states say.  A block adds
to it just what the states hold in which the block is left, with the mark of a reference.
So the types of the whole routine can be narrower than those of any state.

Key definitions: `Fact.ReadsAny`, `Routine.Adds`, `Routine.Gathers`, `Infer.Leads`.
Key theorems: `Infer.Composed.readsAny`, `Infer.block_adds`, `Program.History.untracked_gathered`.
-/
import ShapeFlow.Proofs.Locality
import ShapeFlow.Proofs.References
import ShapeFlow.Proofs.Revisits
import ShapeFlow.Proofs.Subsumption

namespace ShapeFlow

open ShapeFlow.Flow Infer List TypeSet

/-! ### What is read -/

/-- If the expression is a variable that has been read, it has been found to be anything, and
initialized. -/
def Fact.ReadsAny (f : Fact) : Prop := ∀ site ∈ f.read, f.types.isAny = true ∧ site.certainly = true

/-- So it has been wherever `E` mentions a variable beyond the bit sets. -/
def Routine.ReadsAny (E : Set (Expr Nat)) (r : Routine) : Prop :=
  ∀ k name, .var k name ∈ E → VarSet.width ≤ r.index name → ∀ f ∈ r.facts[k]?, f.ReadsAny

theorem Fact.ReadsAny.widen {f : Fact} (h : f.ReadsAny) (s : TypeSet) :
    Fact.ReadsAny { f with types := f.types ∪ s } := fun site hsite =>
  ⟨isAny_of_le (le_union_left _ _) (h site hsite).1, (h site hsite).2⟩

variable {i : Nat}

theorem VarSet.not_tracked (h : VarSet.width ≤ i) : VarSet.tracked i = false :=
  decide_eq_false (Nat.not_lt.2 h)

namespace Infer

variable {c : Setting} {E : Set (Expr Nat)} {w w' : Walker}

theorem current_of_untracked (s : State) {i : Nat} (h : VarSet.width ≤ i) : current s i = .any := by
  have hcertainly : s.certainly.contains i = true :=
    VarSet.contains_of_not_tracked _ (VarSet.not_tracked h)
  rw [current, State.get_of_untracked h, if_pos hcertainly]
  rfl

section Composed

variable {β γ : Type} {m : Walk β} {f : β → Walk γ} {b : β} {k : Nat}

theorem Declaring.bind (hm : Declaring m) (hf : ∀ b, Declaring (f b)) : Declaring (m >>= f) := by
  intro w
  have hfirst := hm w
  show w.routine.Declares (walkerOf (EStateM.bind m f w)).routine
  unfold EStateM.bind
  rcases hrun : m w with ⟨b, w1⟩ | ⟨e, w1⟩
  · rw [hrun] at hfirst
    exact hfirst.trans (hf b w1)
  · rw [hrun] at hfirst
    exact hfirst

theorem declaring_record (k : Nat) (s : TypeSet) : Declaring (record k s) := by
  refine declaring_of_scope fun w => ?_
  rw [record_result]
  split <;> exact ⟨rfl, rfl⟩

theorem Composed.declaring (h : Composed c E m) : Declaring m := by
  induction h with
  | blind _ hdeclaring _ => exact hdeclaring
  | record s _ => exact declaring_record _ s
  | recordedTypes | bindCall | markCall => exact declaring_of_scope fun _ => ⟨rfl, rfl⟩
  | @read k name quiet rest _ _ hdeclaring _ =>
    have hread : Declaring (readVariable k name quiet) := by
      refine (declaring_useVar name).bind fun var => declaring_of_scope fun w => ?_
      cases quiet <;> exact ⟨rfl, rfl⟩
    have hpure : ∀ s : TypeSet, Declaring (pure s) :=
      fun s => declaring_of_scope fun _ => ⟨rfl, rfl⟩
    refine .bind (hread.bind fun s => hdeclaring.bind fun _ => hpure s) fun s => ?_
    exact (declaring_record k s).bind fun _ => hpure s
  | bind _ _ ihm ihf => exact ihm.bind ihf

theorem Composed.declares (h : Composed c E m) (hrun : m w = .ok b w') :
    w.routine.Declares w'.routine := by
  have := h.declaring w
  rwa [hrun] at this

theorem Blind.facts (h : Blind m) (hrun : m w = .ok b w') (k : Nat) :
    w'.routine.facts[k]? = w.routine.facts[k]? := by
  have := (h.isLocal (K := Set.univ)).frame w k (Set.mem_univ k)
  rwa [hrun] at this

/-- The variables keep their places, so what is written of reads is all that matters. -/
theorem readsAny_of_facts (hnames : ∀ k name, .var k name ∈ E → name ∈ w.routine.scope.names)
    (h : w.routine.ReadsAny E) (hscope : w.routine.scope ≤ w'.routine.scope)
    (hfacts : ∀ (k : Nat) (f' : Fact), w'.routine.facts[k]? = some f' →
      ∃ f : Fact, w.routine.facts[k]? = some f ∧ (f.ReadsAny → f'.ReadsAny)) :
    w'.routine.ReadsAny E := by
  intro k name hmem hwidth f' hf'
  rw [(Routine.index_of_le hscope (hnames k name hmem)).2] at hwidth
  obtain ⟨f, hf, himp⟩ := hfacts k f' hf'
  exact himp (h k name hmem hwidth f hf)

theorem readsAny_withFact (hnames : ∀ k name, .var k name ∈ E → name ∈ w.routine.scope.names)
    (h : w.routine.ReadsAny E) {g : Fact → Fact} (hg : ∀ f : Fact, f.ReadsAny → (g f).ReadsAny) :
    (withFact w k g).routine.ReadsAny E := by
  refine readsAny_of_facts hnames h (Scope.le_refl _) fun j f' hf' => ?_
  rw [facts_withFact] at hf'
  split at hf'
  · obtain ⟨f, hf, rfl⟩ := Option.map_eq_some_iff.1 hf'
    exact ⟨f, hf, hg f⟩
  · exact ⟨f', hf', fun hf => hf⟩

/-- What is written where a variable is read. -/
def noted (var : Nat) (possibly certainly : Bool) (f : Fact) : Fact :=
  { f with read := some (match f.read with
      | some s =>
        { s with possibly := s.possibly || possibly, certainly := s.certainly && certainly }
      | none => { var, possibly, certainly }) }

theorem certainly_noted {f : Fact} (h : f.ReadsAny) {var : Nat} {possibly : Bool} {site : ReadSite}
    (hsite : site ∈ (noted var possibly true f).read) : site.certainly = true := by
  cases hsite
  rcases hread : f.read with _ | old
  · rfl
  · show (old.certainly && true) = true
    rw [(h old hread).2]
    rfl

theorem readVariable_eq (k : Nat) (name : String) (quiet : Bool) (w : Walker) :
    readVariable k name quiet w = .ok (current w.state ((lookedUp w name).routine.index name))
      (if quiet then lookedUp w name else withFact (lookedUp w name) k
        (noted ((lookedUp w name).routine.index name)
          (w.state.possibly.contains ((lookedUp w name).routine.index name))
          (w.state.certainly.contains ((lookedUp w name).routine.index name)))) := by
  unfold readVariable
  rw [bind_of_ok (useVar_lookedUp w name)]
  cases quiet <;> rfl

theorem facts_of_read {name : String} {quiet : Bool} {rest : Walk Unit} {s : TypeSet}
    (hrest : Blind rest) (h : recorded k (do
      let s ← readVariable k name quiet
      rest
      return s) w = .ok s w') :
    (∀ j ≠ k, w'.routine.facts[j]? = w.routine.facts[j]?) ∧
      ∀ f' ∈ w'.routine.facts[k]?, ∃ f ∈ w.routine.facts[k]?,
        f'.types = f.types ∪ current w.state ((lookedUp w name).routine.index name) ∧
        (f'.read = f.read ∨ f'.read = (noted ((lookedUp w name).routine.index name)
          (w.state.possibly.contains ((lookedUp w name).routine.index name))
          (w.state.certainly.contains ((lookedUp w name).routine.index name)) f).read) := by
  obtain ⟨_, w2, hread, hrecord⟩ := ok_of_bind h
  obtain ⟨_, w1, hfirst, hread⟩ := ok_of_bind hread
  obtain ⟨_, _, hthen, hread⟩ := ok_of_bind hread
  cases hread
  obtain ⟨_, _, hrecord, hlast⟩ := ok_of_bind hrecord
  cases hlast
  rw [readVariable_eq] at hfirst
  cases hfirst
  rw [record_result] at hrecord
  split at hrecord
  · cases hrecord
    simp only [facts_withFact, hrest.facts hthen]
    refine ⟨fun j hj => ?_, fun f' hf' => ?_⟩
    · rw [if_neg (Ne.symm hj)]
      cases quiet
      · exact (facts_withFact ..).trans (if_neg (Ne.symm hj))
      · rfl
    · rw [if_pos trivial] at hf'
      obtain ⟨f1, hf1, rfl⟩ := Option.map_eq_some_iff.1 hf'
      cases quiet with
      | true => exact ⟨f1, hf1, rfl, .inl rfl⟩
      | false =>
        obtain ⟨f, hf, rfl⟩ := Option.map_eq_some_iff.1
          (((facts_withFact ..).trans (if_pos rfl)).symm.trans hf1)
        exact ⟨f, hf, rfl, .inr rfl⟩
  · cases hrecord

/-- **Reads of variables beyond the bit sets find anything**, whatever is done besides. -/
theorem Composed.readsAny (h : Composed c E m) (hunique : ∀ x ∈ E, ∀ y ∈ E, x.tag = y.tag → x = y)
    (hrun : m w = .ok b w') (hnames : ∀ k name, .var k name ∈ E → name ∈ w.routine.scope.names)
    (hw : w.routine.ReadsAny E) :
    w'.routine.ReadsAny E := by
  induction h generalizing w w' with
  | blind hblind hdeclaring hmade =>
    have hscope := (Composed.blind (c := c) (E := E) hblind hdeclaring hmade).declares hrun
    refine readsAny_of_facts hnames hw hscope.scope fun k f' hf' => ⟨f', ?_, fun hf => hf⟩
    rwa [← hblind.facts hrun]
  | record s he =>
    rw [record_result] at hrun
    split at hrun
    · cases hrun
      exact readsAny_withFact hnames hw fun f hf => hf.widen s
    · cases hrun
  | recordedTypes he =>
    cases hrun
    exact hw
  | bindCall | markCall =>
    cases hrun
    exact readsAny_withFact hnames hw fun f hf => hf
  | @read k name quiet rest he hblind hdeclaring hmade =>
    have hscope := ((Composed.read (c := c) quiet he hblind hdeclaring hmade).declares hrun).scope
    obtain ⟨hothers, hhere⟩ := facts_of_read hblind hrun
    intro j x hx hwidth f' hf'
    rw [(Routine.index_of_le hscope (hnames j x hx)).2] at hwidth
    by_cases hj : j = k
    · subst hj
      obtain rfl : x = name := by
        have := hunique _ hx _ he rfl
        injection this
      -- the variable is where it was before it was looked up
      obtain ⟨f, hf, htypes, hread⟩ := hhere f' hf'
      rw [show (lookedUp w x).routine.index x = w.routine.index x from
        (Routine.index_of_le (Scope.le_use _ _) (hnames j x hx)).2] at htypes hread
      have hcertainly : w.state.certainly.contains (w.routine.index x) = true :=
        VarSet.contains_of_not_tracked _ (VarSet.not_tracked hwidth)
      rw [current_of_untracked _ hwidth] at htypes
      rw [hcertainly] at hread
      have hold := hw j x hx hwidth f hf
      intro site hsite
      refine ⟨?_, ?_⟩
      · rw [htypes]
        exact isAny_of_le (le_union_right _ _) isAny_any
      · rcases hread with hread | hread
        · exact (hold site (hread ▸ hsite)).2
        · exact certainly_noted hold (hread ▸ hsite)
    · rw [hothers j hj] at hf'
      exact hw j x hx hwidth f' hf'
  | bind hm _ ihm ihf =>
    obtain ⟨b1, w1, hfirst, hsecond⟩ := ok_of_bind hrun
    have hscope := (hm.declares hfirst).scope
    exact ihf b1 hsecond (fun k name hmem => (Routine.index_of_le hscope (hnames k name hmem)).1)
      (ihm hfirst hnames hw)

end Composed

/-! ### Evaluating a block -/

section Evaluate

theorem composed_evaluate (s : State) {blk : Block Nat}
    (hblk : ∀ e ∈ blk.roots, ∀ x ∈ e.walk, x ∈ E) : Composed c E (evaluate c s blk) := by
  refine (composed_setState s).bind fun _ => .bind ?_ fun _ => ?_
  · refine .forM fun o ho => composed_op fun e he => ?_
    exact hblk e (mem_append_left _ (mem_flatMap.2 ⟨o, ho, he⟩))
  · exact composed_wayOut fun e he => hblk e (mem_append_right _ he)

end Evaluate

end Infer

/-! ### Leaving a block -/

/-- Beyond the bit sets, no variable is in doubt where states meet. -/
theorem Flow.State.slot_join_of_untracked {a b c : State} (h : a.join b = .ok c)
    (hi : VarSet.width ≤ i) : c.slot i = a.slot i ∪ b.slot i := by
  have hscope : a.scope = b.scope := by
    by_contra hne
    rw [State.join, if_neg hne] at h
    cases h
  obtain ⟨c', hc', -, -, -, -, -, hslot⟩ := State.join_slots hscope
  obtain rfl := Except.ok.inj (hc'.symm.trans h)
  have hdoubt : c'.inDoubt i = false := by
    rw [State.inDoubt, VarSet.contains_of_not_tracked c'.certainly (VarSet.not_tracked hi)]
    exact Bool.and_false _
  rw [hslot, if_neg (by simp [hdoubt])]

namespace Routine

variable {r r' r'' : Routine} {H H' : Nat → Nat → Prop} {i b d : Nat} {v u : Variable}
  {s s' : State} {t : TypeSet}

/-- Each variable `i` has got the shapes `H i` throughout the routine, and no others; beyond the bit
sets it has got the mark of a reference with them. -/
structure Adds (H : Nat → Nat → Prop) (r r' : Routine) : Prop where
  facts : r'.facts = r.facts
  names : r'.scope.names = r.scope.names
  inputs : r'.inputs = r.inputs
  merged : ∀ i x, x ∈ r'.merged i ↔ x ∈ r.merged i ∨ H i x
  marked : ∀ i, VarSet.width ≤ i → r'.merged i = r.merged i ∨ (r'.merged i).byRef = true

theorem Adds.trans (h : Adds H r r') (h' : Adds H' r' r'') :
    Adds (fun i x => H i x ∨ H' i x) r r'' where
  facts := h'.facts.trans h.facts
  names := h'.names.trans h.names
  inputs := h'.inputs.trans h.inputs
  merged i x := by rw [h'.merged, h.merged, or_assoc]
  marked i hi := by
    rcases h'.marked i hi with hsame | hmark
    · rw [hsame]
      exact h.marked i hi
    · exact .inr hmark

theorem Adds.congr (h : Adds H r r') (hH : ∀ i x, H i x ↔ H' i x) : Adds H' r r' :=
  { h with merged := fun i x => (h.merged i x).trans (or_congr_right (hH i x)) }

theorem merged_setVar (hv : r.scope.vars[i]? = some v) (aliased : VarSet) (j : Nat) :
    (r.setVar i u aliased).merged j = if i = j then u.types else r.merged j := by
  unfold merged
  rw [show (r.setVar i u aliased).scope.vars = r.scope.vars.set i u from rfl, getElem?_set]
  split
  · rw [if_pos (lt_of_getElem? hv)]
    rfl
  · rfl

theorem adds_setVar (hv : r.scope.vars[i]? = some v) (ht : VarSet.width ≤ i → t.byRef = true) :
    r.Adds (fun j x => j = i ∧ x ∈ t)
      (r.setVar i { v with types := v.types ∪ t } r.scope.aliased) where
  facts := rfl
  names := names_setVar _ hv rfl
  inputs := rfl
  merged j x := by
    rw [merged_setVar hv]
    by_cases hj : i = j
    · subst hj
      rw [if_pos rfl, merged, hv]
      simp
    · simp [hj, Ne.symm hj]
  marked j hwidth := by
    rw [merged_setVar hv]
    split
    next heq =>
      right
      rw [byRef_union, ht (heq ▸ hwidth), Bool.or_true]
    next => exact .inl rfl

theorem adds_committed (hv : r.scope.vars[i]? = some v) (ht : VarSet.width ≤ i → t.byRef = true) :
    r.Adds (fun j x => j = i ∧ x ∈ t) (committed r i t v) := by
  have hset := adds_setVar hv ht
  unfold committed
  dsimp only
  split
  · exact hset
  · split
    · exact { hset with }
    · exact hset

theorem input?_of_setInput (h : (r.setInput b s).input? d = some s') :
    b = d ∧ s' = s ∨ r.input? d = some s' := by
  unfold input? setInput at *
  rw [Array.getElem?_setIfInBounds] at h
  split at h
  next heq =>
    split at h
    · exact .inl ⟨heq, (Option.some.inj h).symm⟩
    · cases h
  next => exact .inr h

theorem slot_of_flowInto {changed : Bool} (h : r.flowInto b s = .ok (changed, r'))
    (hi : VarSet.width ≤ i) {x : Nat} (hs' : r'.input? d = some s') (hx : x ∈ s'.slot i) :
    (∃ s0, r.input? d = some s0 ∧ x ∈ s0.slot i) ∨ x ∈ s.slot i := by
  rcases flowInto_cases h with rfl | ⟨new, rfl, hnew⟩
  · exact .inl ⟨s', hs', hx⟩
  rcases input?_of_setInput (r := r) (b := b) hs' with ⟨rfl, rfl⟩ | hs'
  · rcases hnew with ⟨-, rfl⟩ | ⟨old, hold, hjoin⟩
    · exact .inr hx
    · rw [State.slot_join_of_untracked hjoin hi, mem_union] at hx
      exact hx.imp_left fun hx => ⟨old, hold, hx⟩
  · exact .inl ⟨s', hs', hx⟩

end Routine

namespace Infer

variable {c : Setting} {w w' : Walker} {g : Place} {t : ShapeTable} {s : State} {u : Unit}
  {way : Way} {i : Nat}

theorem of_commitOne {types : TypeSet} (h : commitOne i types w = .ok u w') :
    w.routine.Adds (fun j x => j = i ∧ x ∈ types) w'.routine := by
  have hvar : ∃ v, w.routine.scope.vars[i]? = some v := by
    unfold commitOne at h
    rw [getRoutine_bind] at h
    obtain ⟨grew, w1, hadd, -⟩ := ok_of_bind h
    obtain ⟨scope, hscope, -⟩ := of_updateScope hadd
    exact (Scope.addTypes_ok hscope).imp fun _ h => h.1
  obtain ⟨v, hv⟩ := hvar
  rw [commitOne_eq hv] at h
  cases h
  refine (Routine.adds_committed hv fun hwidth => ?_).congr fun j x => and_congr_right fun _ => ?_
  · -- a variable beyond the bit sets counts as aliased
    have haliased : w.routine.scope.isAliased i = true :=
      VarSet.contains_of_not_tracked _ (VarSet.not_tracked hwidth)
    rw [if_pos haliased]
    rfl
  · split <;> rfl

theorem forM_adds {β : Type} {f : β → Walk PUnit} {H : β → Nat → Nat → Prop} :
    ∀ {l : List β} {w w' : Walker} {u : PUnit},
    (∀ a ∈ l, ∀ w w' u, f a w = .ok u w' → w.routine.Adds (H a) w'.routine) →
    l.forM f w = .ok u w' → w.routine.Adds (fun i x => ∃ a ∈ l, H a i x) w'.routine
  | [], w, w', u, _, h => by
    cases h
    exact ⟨rfl, rfl, rfl, fun i x => by simp, fun _ _ => .inl rfl⟩
  | a :: l, w, w', u, hf, h => by
    obtain ⟨u1, w1, ha, hl⟩ := ok_of_bind h
    have hrest := forM_adds (fun b hb => hf b (.tail _ hb)) hl
    exact ((hf a (.head _) w w1 u1 ha).trans hrest).congr fun i x => by simp

theorem mem_entries_iff {x : Nat} : (∃ p ∈ s.entries, i = p.1 ∧ x ∈ p.2) ↔ s.Holds i x := by
  constructor
  · rintro ⟨p, hp, rfl, hx⟩
    obtain ⟨⟨t, j⟩, hmem, heq⟩ := mem_filterMap.1 hp
    have hget := mem_zipIdx_iff_getElem?.1 hmem
    dsimp only at heq hget
    split at heq
    · cases heq
    · cases heq
      refine ⟨(lt_of_getElem? hget), ?_⟩
      rw [State.slot, getD_eq_getElem?_getD, hget]
      exact hx
  · intro h
    exact ⟨(i, s.slot i), mem_entries_of_holds h, rfl, h.2⟩

/-- **What a state holds is added to the variables, no more and no less.** -/
theorem commit_adds (h : commit s w = .ok u w') : w.routine.Adds s.Holds w'.routine := by
  rw [commit_eq] at h
  exact (forM_adds (fun _ _ _ _ _ h => of_commitOne h) h).congr fun i x => mem_entries_iff

/-- The states that are handed on. -/
def Way.passed : Way → List State
  | onward _ yes no => [yes, no]
  | back .. => []

/-- What leaving a block does to its routine. -/
structure Way.Departs (way : Way) (r r' : Routine) : Prop where
  facts : r'.facts = r.facts
  names : r'.scope.names = r.scope.names
  merged : ∀ i x, x ∈ r'.merged i ↔ x ∈ r.merged i ∨ ∃ s ∈ way.left, s.Holds i x
  marked : ∀ i, VarSet.width ≤ i → r'.merged i = r.merged i ∨ (r'.merged i).byRef = true
  /-- What the slots beyond the bit sets take in has been handed on. -/
  slots : ∀ {i d x : Nat} {s' : State}, VarSet.width ≤ i → r'.input? d = some s' → x ∈ s'.slot i →
    (∃ s, r.input? d = some s ∧ x ∈ s.slot i) ∨ ∃ s ∈ way.passed, x ∈ s.slot i

theorem forM_flowInto {yes no : State} : ∀ {l : List (Nat × Label)} {w w' : Walker} {u : PUnit},
    l.forM (fun p => flowInto p.1 (if p.2 = .onFalse then no else yes)) w = .ok u w' →
    w'.routine.facts = w.routine.facts ∧ w'.routine.scope = w.routine.scope ∧
      ∀ {i d x : Nat} {s' : State}, VarSet.width ≤ i → w'.routine.input? d = some s' →
        x ∈ s'.slot i →
        (∃ s, w.routine.input? d = some s ∧ x ∈ s.slot i) ∨ x ∈ yes.slot i ∨ x ∈ no.slot i
  | [], w, w', u, h => by
    cases h
    exact ⟨rfl, rfl, fun _ hs' hx => .inl ⟨_, hs', hx⟩⟩
  | p :: l, w, w', u, h => by
    obtain ⟨_, w1, hp, hl⟩ := ok_of_bind h
    obtain ⟨changed, r, hflow, rfl⟩ := of_flowInto hp
    obtain ⟨hfacts, hscope, hslots⟩ := forM_flowInto hl
    have hframe := Routine.flowInto_frame hflow
    refine ⟨hfacts.trans (by rw [hframe]), hscope.trans (by rw [hframe]), fun hi hs' hx => ?_⟩
    rcases hslots hi hs' hx with ⟨s1, hs1, hx1⟩ | hx
    · refine (Routine.slot_of_flowInto hflow hi hs1 hx1).imp_right fun hx => ?_
      split at hx
      · exact .inr hx
      · exact .inl hx
    · exact .inr hx

theorem merged_of_scope {r r' : Routine} (h : r'.scope = r.scope) (i : Nat) :
    r'.merged i = r.merged i := by
  rw [Routine.merged, h]
  rfl

/-- **Leaving a block.** -/
theorem depart_departs (h : depart c way w = .ok u w') : way.Departs w.routine w'.routine := by
  cases way with
  | onward held yes no =>
    obtain ⟨_, w1, hcommit, hprop⟩ := ok_of_bind h
    have hadds := forM_adds (fun _ _ _ _ _ h => commit_adds h) hcommit
    obtain ⟨hfacts, hscope, hslots⟩ := forM_flowInto hprop
    refine ⟨hfacts.trans hadds.facts, ?_, fun i x => ?_, fun i hi => ?_, fun hi hs' hx => ?_⟩
    · rw [hscope, hadds.names]
    · rw [merged_of_scope hscope, hadds.merged]
      rfl
    · rw [merged_of_scope hscope]
      exact hadds.marked i hi
    · rcases hslots hi hs' hx with ⟨s, hs, hx⟩ | hx | hx
      · rw [Routine.input?, hadds.inputs] at hs
        exact .inl ⟨s, hs, hx⟩
      · exact .inr ⟨yes, .head _, hx⟩
      · exact .inr ⟨no, .tail _ mem_cons_self, hx⟩
  | back held returned =>
    obtain ⟨_, w1, hcommit, hret⟩ := ok_of_bind h
    have hadds := commit_adds hcommit
    cases hret
    refine ⟨hadds.facts, hadds.names, fun i x => ?_, hadds.marked,
      fun _ hs' hx => .inl ⟨_, ?_, hx⟩⟩
    · exact (hadds.merged i x).trans (or_congr_right (by simp [Way.left]))
    · rwa [Routine.input?, ← hadds.inputs]

/-- Going through block `c.block` leads to its exit that way. -/
def Leads (c : Setting) (w : Walker) (way : Way) (w₁ : Walker) : Prop :=
  ∃ s blk, w.routine.input? c.block = some s ∧ w.routine.graph.blocks[c.block]? = some blk ∧
    evaluate c s blk w = .ok way w₁

theorem exists_leads (h : w.routine.Held t) (hrun : block c w = .ok () w') :
    ∃ way w1, Leads c w way w1 ∧ depart c way w1 = .ok () w' := by
  rcases hs : w.routine.input? c.block with _ | s
  · rw [block, getRoutine_bind, hs] at hrun
    cases hrun
  · have hlt : c.block < w.routine.graph.blocks.length := by
      have := Routine.input?_lt (r := w.routine) (b := c.block) (by rw [hs]; rfl)
      rwa [h.size] at this
    have hblk := getElem?_eq_getElem hlt
    obtain ⟨way, w1, heval, hdepart⟩ := ok_of_bind ((block_eq_evaluate hs hblk).symm.trans hrun)
    exact ⟨way, w1, ⟨s, _, hs, hblk, heval⟩, hdepart⟩

theorem Leads.composed {w1 : Walker} (h : Leads c w way w1) :
    ∃ m : Walk Way, Composed c {x | x ∈ w.routine.graph.exprs} m ∧ m w = .ok way w1 := by
  obtain ⟨s, blk, -, hblk, heval⟩ := h
  refine ⟨_, composed_evaluate s fun e he x hx => ?_, heval⟩
  exact Graph.mem_exprs_of_mem_exprsOf ((Graph.mem_exprsOf hblk).2 ⟨e, he, hx⟩)

/-- **A block adds to a variable what the states hold in which it is left**, and nothing else. -/
theorem block_adds (h : w.routine.Held t) (hrun : block c w = .ok () w') :
    ∃ way w1, Leads c w way w1 ∧
      (∀ name ∈ w.routine.scope.names,
        name ∈ w'.routine.scope.names ∧ w'.routine.index name = w.routine.index name) ∧
      ∀ i x, x ∈ w'.routine.merged i ↔ x ∈ w.routine.merged i ∨ ∃ s ∈ way.left, s.Holds i x := by
  obtain ⟨way, w1, hleads, hdepart⟩ := exists_leads h hrun
  obtain ⟨m, hm, hevaluate⟩ := hleads.composed
  have hdeclares := hm.declares hevaluate
  have hdeparts := depart_departs hdepart
  refine ⟨way, w1, hleads, fun name hname => ?_, fun i x => ?_⟩
  · rw [Routine.index, hdeparts.names]
    exact Routine.index_of_le hdeclares.scope hname
  · rw [hdeparts.merged, hdeclares.merged]

theorem evaluate_goes (hw : Whole g w) (hg : g.Covers w.routine.graph) {blk : Block Nat}
    (hs : w.routine.input? g.setting.block = some s)
    (hblk : w.routine.graph.blocks[g.setting.block]? = some blk) :
    Goes g (evaluate g.setting s blk) w fun way w' => way.Held g w'.table := by
  have henter := hw.enter hs
  refine ((setState_runs hw.toSane henter.fits henter.known).goes hw).bind fun _ w1 hw1 _ _ => ?_
  refine (Goes.forM (P := fun _ _ => True) hw1 (fun _ _ _ _ _ _ => trivial)
    fun o ho w2 hw2 _ => ?_).bind fun _ w3 hw3 _ _ => ?_
  · have hfits := hg.fits_op hblk ho
    exact (op_goes hg.free hw2 hfits.1 hfits.2).mono fun _ _ _ _ _ => trivial
  · have hfits := hg.fits_exit hblk
    exact ((wayOut_runs hg.free hw3.toSane hfits.1 hfits.2).mono fun _ _ _ _ h => h.1).goes hw3

theorem Way.Held.passed (h : way.Held g t) (hs : s ∈ way.passed) :
    s ∈ way.left ∧ State.Fits g.routine g.vars s := by
  cases way with
  | onward held yes no =>
    have hleft : s ∈ held := by
      rcases mem_cons.1 hs with rfl | hs
      · exact h.2.1
      · exact mem_singleton.1 hs ▸ h.2.2
    exact ⟨hleft, (h.1 s hleft).1⟩
  | back => cases hs

end Infer

/-! ### At any time -/

namespace Routine

variable {r r' : Routine} {n j : Nat} {m : Mid}

/-- Beyond the bit sets, reads find anything, and what flows from block to block is with the
variables throughout the routine, marked as a reference. -/
structure Gathers (r : Routine) : Prop where
  reads : r.ReadsAny {x | x ∈ r.graph.exprs}
  slots : ∀ {i b x : Nat} {s : State}, VarSet.width ≤ i → b ≠ Graph.entry → r.input? b = some s →
    s.Holds i x → x ∈ r.merged i
  marked : ∀ i, VarSet.width ≤ i → r.merged i = .void ∨ (r.merged i).byRef = true

theorem gathers_of_blank (hfacts : r.facts = Array.replicate n {})
    (hinputs : ∀ b, r.input? b = none) (hvars : ∀ v ∈ r.scope.vars, v.types = .void) :
    r.Gathers where
  reads := by
    intro k name _ _ f hf site hsite
    rw [hfacts, Option.mem_def, Array.getElem?_replicate] at hf
    split at hf
    · cases hf
      cases hsite
    · cases hf
  slots _ _ hs := by
    rw [hinputs] at hs
    cases hs
  marked i _ := by
    left
    unfold merged
    rcases hv : r.scope.vars[i]? with _ | v
    · rfl
    · exact hvars v (mem_of_getElem? hv)

theorem Valid.mem_names_of_var {t : ShapeTable} {k : Nat} {name : String} (h : r.Valid t n)
    (hmem : .var k name ∈ r.graph.exprs) : name ∈ r.scope.names := by
  obtain ⟨e, he, hwalk⟩ := mem_flatMap.1 hmem
  obtain ⟨blk, hblk, he⟩ := mem_flatMap.1 he
  obtain ⟨b, hb⟩ := getElem?_of_mem hblk
  exact (h.suits hb).mentions he _ hwalk name rfl

theorem Stirs.input?_eq (h : r.Stirs m r') (hm : m.Kept) (hr : m.program.routines[j]? = some r)
    {b : Nat} (hb : b ≠ Graph.entry) :
    r'.input? b = r.input? b ∨ r'.input? b = none := by
  have hvalid := hm.program.valid hr
  cases h with
  | tweak ht =>
    left
    cases ht with
    | queue hq =>
      rw [hq.frame]
      rfl
    | mark hmarks =>
      rw [hmarks.frame]
      rfl
    | seed hseed => exact (hvalid.seed_flows hm.program.table hseed).2.others b hb
  | forget observed heq =>
    subst heq
    exact .inr (input?_replicate (m := r.graph.size) rfl b)
  | observe _ heq =>
    subst heq
    exact .inl rfl
  | enter hobserving hseed =>
    exact .inl ((hobserving.seed_flows hm.program.table hseed).2.others b hb)

theorem Gathers.walk {c : Setting} {w w' : Walker} (h : w.routine.Gathers) (hwalk : Walks c w w') :
    w'.routine.Gathers := by
  have hvalid := hwalk.before.routine
  have hgraph := hwalk.advances.graph
  obtain ⟨way, w1, hleads, hdepart⟩ := exists_leads hvalid.toHeld hwalk.run
  obtain ⟨m, hm, hrun⟩ := hleads.composed
  have hdeclares := hm.declares hrun
  have hdeparts := depart_departs hdepart
  constructor
  · have hunique : ∀ x ∈ w.routine.graph.exprs, ∀ y ∈ w.routine.graph.exprs, x.tag = y.tag → x = y :=
      fun x hx y hy => inj_on_of_nodup_map
        (hvalid.graph.numbered.nodup_iff.2 nodup_range) hx hy
    have hnames : ∀ k name, .var k name ∈ w.routine.graph.exprs → name ∈ w.routine.scope.names :=
      fun k name => hvalid.mem_names_of_var
    have hreads := hm.readsAny hunique hrun hnames h.reads
    intro k name hmem hwidth f hf
    rw [Set.mem_ofPred_eq, hgraph] at hmem
    rw [index, hdeparts.names] at hwidth
    rw [hdeparts.facts] at hf
    exact hreads k name hmem hwidth f hf
  · intro i b x s' hi hb hs' hx
    have hsize : w'.routine.scope.size = w.routine.scope.size := by
      rw [← Scope.length_names, ← Scope.length_names, hwalk.advances.names]
    have hlt : i < w.routine.scope.size := by
      rw [← hsize, ← (hwalk.after.routine.fits b s' hs').size]
      exact hx.1
    rw [hdeparts.merged, hdeclares.merged]
    rcases hdeparts.slots hi hs' hx.2 with ⟨s, hs, hx⟩ | ⟨s, hs, hx⟩
    · rw [input?, hdeclares.inputs] at hs
      exact .inl (h.slots hi hb hs ⟨(hvalid.fits b s hs).size ▸ hlt, hx⟩)
    · obtain ⟨s0, blk', hs0, hblk', heval⟩ := hleads
      obtain ⟨-, -, hheld⟩ := (evaluate_goes (hwalk.before.whole hwalk.here) hwalk.before.covers hs0
        hblk').ok heval
      obtain ⟨hleft, hfits⟩ := hheld.passed hs
      refine .inr ⟨s, hleft, ?_, hx⟩
      rw [hfits.size, Place.vars, Place.within, Scope.length_names]
      exact hlt
  · intro i hi
    rcases hdeparts.marked i hi with hsame | hmark
    · rw [hsame, hdeclares.merged]
      exact h.marked i hi
    · exact .inr hmark

theorem Evolves.gathers (h : r.Evolves m r') (hm : m.Kept) (hr : m.program.routines[j]? = some r)
    (hg : r.Gathers) : r'.Gathers := by
  cases h with
  | stir hstirs =>
    rcases hstirs.stands hm hr with hstands | ⟨observed, heq⟩
    · constructor
      · have hreads := hg.reads
        unfold ReadsAny index at *
        rwa [hstands.graph, hstands.scope, hstands.facts]
      · intro i b x s hi hb hs hx
        rw [merged_of_scope hstands.scope]
        rcases hstirs.input?_eq hm hr hb with hsame | hnone
        · exact hg.slots hi hb (hsame ▸ hs) hx
        · rw [hnone] at hs
          cases hs
      · intro i hi
        rw [merged_of_scope hstands.scope]
        exact hg.marked i hi
    · subst heq
      refine gathers_of_blank (n := r.graph.exprCount) rfl (input?_replicate (m := r.graph.size) rfl)
        fun v hv => ?_
      obtain ⟨_, -, rfl⟩ := mem_map.1 hv
      rfl
  | walk _ _ _ hroutine hwalk heq =>
    subst heq
    refine Gathers.walk ?_ hwalk
    rw [hroutine]
    exact ⟨hg.reads, hg.slots, hg.marked⟩

end Routine

/-- **Beyond the bit sets, states know nothing and routines what the slots hold.**  Take a variable
whose index is too large for the bit sets, at any time in the life of a program.

Every state of its routine takes it for anything, and for initialized; so every read of it that has
been noted found anything, and is no cause for concern.

What the variable has throughout the routine is something else.  It is nothing, or marked as a
reference.  It covers what the slots of the variable hold wherever blocks have been entered from
others, and another walk through a block adds to it just what the slots hold in the states in which
the block is left. -/
theorem Program.History.untracked_gathered {p : Program} (h : p.History) {r : Routine}
    (hr : r ∈ p.routines) {name : String} (hname : name ∈ r.scope.names)
    (hwidth : VarSet.width ≤ r.index name) :
    (∀ b s, r.input? b = some s →
      s.get (r.index name) = .any ∧ s.certainly.contains (r.index name) = true) ∧
    (∀ k, .var k name ∈ r.graph.exprs → r.concerns (.var k name) = [] ∧
      ∀ f ∈ r.facts[k]?, f.read.isSome = true → f.types.isAny = true) ∧
    ∃ types, r.varTypes? name = some types ∧ (types = .void ∨ types.byRef = true) ∧
      (∀ b s, b ≠ Graph.entry → r.input? b = some s → s.slot (r.index name) ⊆ types) ∧
      ∀ c w w', w.routine = r → block c w = .ok () w' → ∃ way w₁ types', Leads c w way w₁ ∧
        w'.routine.varTypes? name = some types' ∧
        ∀ x, x ∈ types' ↔ x ∈ types ∨ ∃ s ∈ way.left, s.Holds (r.index name) x := by
  have hvalid := h.sound.routines r hr
  have hgathers : r.Gathers := Moves.routines h.moves (Mid.kept_of sound_empty.toKept)
    (fun _ _ _ hfresh => by
      cases hfresh
      exact Routine.gathers_of_blank rfl (Routine.input?_replicate rfl)
        fun v hv => ((Scope.ofRoutine_spec _ _ _).1.vars v hv).1)
    (fun _ _ _ _ hm hr hevolves => hevolves.gathers hm hr) (by simp [Mid.of, Program.empty]) r hr
  refine ⟨fun b s _ => ⟨State.get_of_untracked hwidth, ?_⟩, fun k hk => ⟨?_, ?_⟩,
    _, Routine.varTypes?_eq hname, hgathers.marked _ hwidth, fun b s hb hs => ?_,
    fun c w w' hw hrun => ?_⟩
  · exact VarSet.contains_of_not_tracked _ (VarSet.not_tracked hwidth)
  · rw [Routine.concerns, show (Expr.var k name).tag = k from rfl]
    rcases hf : r.facts[k]? with _ | f
    · rfl
    rcases hread : f.read with _ | site
    · simp [hread]
    · have hcertain := (hgathers.reads k name hk hwidth f hf site hread).2
      simp [hread, Routine.readConcern, hcertain]
  · intro f hf hread
    obtain ⟨site, hsite⟩ := Option.isSome_iff_exists.1 hread
    exact (hgathers.reads k name hk hwidth f hf site hsite).1
  · refine TypeSet.subset_iff.2 fun x hx => hgathers.slots hwidth hb hs ⟨?_, hx⟩
    rw [(hvalid.fits b s hs).size, ← Scope.length_names]
    exact List.idxOf_lt_length_iff.2 hname
  · subst hw
    obtain ⟨way, w₁, hleads, hnames, hadds⟩ := block_adds hvalid.toHeld hrun
    obtain ⟨hmem, hindex⟩ := hnames name hname
    refine ⟨way, w₁, _, hleads, Routine.varTypes?_eq hmem, fun x => ?_⟩
    rw [hindex]
    exact hadds _ x

namespace Program

/-- As many variables as the bit sets have bits. -/
def crowd : List String :=
  (List.range VarSet.width).map fun i => String.singleton (Char.ofNat (48 + i))

/-- `f` unsets the crowd.  Then it gives `x1` an integer, reads `x2` in one of two branches, and
returns `x1`. -/
def crowded : List RoutineDecl :=
  [{ name := "f"
     body := [.unset crowd, .eval (.assign () (.var () "x1") (.lit () .int)),
       .branch (.lit () .bool) [.eval (.var () "x2")] [], .ret (some (.var () "x1"))] }]

/-- The `x1` that is returned. -/
def isReturned : Expr Nat → Bool
  | .var 5 "x1" => true
  | _ => false

/-- Every state takes `x1` for anything and so does the read of it; throughout `f` it has integers
only, and `x2`, which is read as well, nothing at all. -/
theorem crowded_gathered : ∃ n p' r s, (ofDecls crowded).analyze {} = .ok (.converged n) p' ∧
    p'.routines[0]? = some r ∧ VarSet.width ≤ r.index "x1" ∧ r.input? 1 = some s ∧
    s.get (r.index "x1") = .any ∧ s.slot (r.index "x1") = .int ∧
    .var 5 "x1" ∈ r.graph.exprs ∧ r.concerns (.var 5 "x1") = [] ∧ r.exprTypes 5 = .any ∧
    r.varTypes? "x1" = some TypeSet.int.withRef ∧ r.varTypes? "x2" = some .void ∧
    s.slot (r.index "x1") ⊆ TypeSet.int.withRef := by
  obtain ⟨n, p', hrun, hgood⟩ := exists_converged (ofDecls crowded) {}
    (fun p' => p'.routines[0]?.any fun (r : Routine) => decide ("x1" ∈ r.scope.names) &&
      decide (VarSet.width ≤ r.index "x1") && r.graph.exprs.any isReturned &&
      r.exprTypes 5 == .any && r.varTypes? "x1" == some TypeSet.int.withRef &&
      r.varTypes? "x2" == some .void &&
      (r.input? 1).any fun s => s.slot (r.index "x1") == .int)
    (by decide +kernel)
  simp only [Option.any_eq_true, Bool.and_eq_true, decide_eq_true_eq, beq_iff_eq,
    List.any_eq_true] at hgood
  obtain ⟨r, hr, ⟨⟨⟨⟨⟨hname, hwidth⟩, e, he, hreturned⟩, hread⟩, hx⟩, hy⟩, s, hs, hslot⟩ := hgood
  obtain rfl : e = .var 5 "x1" := by
    unfold isReturned at hreturned
    split at hreturned
    · rfl
    · cases hreturned
  have hhist := (history_ofDecls crowded).analyze (by simp) hrun
  obtain ⟨hstates, hreads, types, htypes, -, hslots, -⟩ :=
    hhist.untracked_gathered (List.mem_of_getElem? hr) hname hwidth
  obtain rfl := Option.some.inj (hx.symm.trans htypes)
  exact ⟨n, p', r, s, hrun, hr, hwidth, hs, (hstates 1 s hs).1, hslot, he, (hreads 5 he).1, hread,
    hx, hy, hslots 1 s (by decide) hs⟩

end Program

end ShapeFlow
