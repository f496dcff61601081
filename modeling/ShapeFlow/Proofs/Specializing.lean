/-
# What specialization keeps

Strategies propose tuples of known types, at most after adding shapes to the
table.  So gathering proposals never meets an unknown shape, and clones are made
of sound routines, for known types, and entered at once.

Key definitions: `ShapeTable.Interns`, `Strategy.Sound`.
Key theorems: `Strategy.builtin_sound`, `Program.gatherAll_spec`,
`Program.specialize_spec`.
-/
import ShapeFlow.Proofs.Interning
import ShapeFlow.Proofs.Rounds
import ShapeFlow.Special.Clone

namespace ShapeFlow

open ShapeFlow.Flow
open List hiding set

variable {r : Routine} {d : RoutineDecl} {t t' : ShapeTable} {id : Nat}

/-! ### Steps that add shapes -/

namespace ShapeTable

section Interns

variable {α β γ : Type} {t : ShapeTable} {Q P : β → ShapeTable → Prop} {f : α → StateM ShapeTable β}

/-- The step keeps the table valid and only adds to it; its result is as `Q` says. -/
def Interns (m : StateM ShapeTable β) (t : ShapeTable) (Q : β → ShapeTable → Prop) : Prop :=
  (m.run t).2.Valid ∧ t.Extends (m.run t).2 ∧ Q (m.run t).1 (m.run t).2

theorem Interns.pure (ht : t.Valid) {b : β} (hQ : Q b t) :
    Interns (pure b) t Q := ⟨ht, .refl t, hQ⟩

theorem Interns.bind {m : StateM ShapeTable β} {f : β → StateM ShapeTable γ}
    {Q' : γ → ShapeTable → Prop} (h : Interns m t Q)
    (hf : ∀ b t', t'.Valid → t.Extends t' → Q b t' → Interns (f b) t' Q') :
    Interns (m >>= f) t Q' := by
  obtain ⟨hvalid, hext, hQ⟩ := h
  obtain ⟨hvalid', hext', hQ'⟩ := hf _ _ hvalid hext hQ
  exact ⟨hvalid', hext.trans hext', hQ'⟩

theorem Interns.mapM (hP : ∀ b t t', Extends t t' → P b t → P b t') :
    ∀ {l : List α} {t : ShapeTable}, t.Valid →
    (∀ a ∈ l, ∀ t', t'.Valid → t.Extends t' → Interns (f a) t' P) →
    Interns (l.mapM f) t fun bs t' => ∀ b ∈ bs, P b t'
  | [], t, ht, _ => by
    rw [mapM_nil]
    exact .pure ht (by simp)
  | a :: l, t, ht, hf => by
    rw [mapM_cons]
    refine (hf a (.head _) t ht (.refl t)).bind fun b t1 ht1 he1 hb => ?_
    refine (Interns.mapM hP ht1 fun c hc t' ht' he' =>
      hf c (.tail _ hc) t' ht' (he1.trans he')).bind fun bs t2 ht2 he2 hbs => ?_
    refine Interns.pure ht2 fun c hc => ?_
    rcases mem_cons.1 hc with rfl | hc
    · exact hP c t1 t2 he2 hb
    · exact hbs c hc

theorem Interns.mapOption {o : Option α} (ht : t.Valid) (hf : ∀ a ∈ o, Interns (f a) t P) :
    Interns (o.mapM f) t fun bs t' => ∀ b ∈ bs, P b t' := by
  cases o with
  | none => exact .pure ht (by simp)
  | some a =>
    refine (hf a rfl).bind (f := fun b => Pure.pure (some b)) fun b t1 ht1 _ hb => ?_
    exact .pure ht1 (by simpa using hb)

end Interns
end ShapeTable

open ShapeTable

theorem interns_named (ht : t.Valid) (name : String) :
    Interns (modifyGet fun t => t.named name) t fun s t' => t'.Knows s :=
  ShapeTable.named_spec ht name

theorem Hint.types_interns (ht : t.Valid) (h : Hint) :
    Interns h.types t fun s t' => t'.Knows s :=
  have hlast := h.types_lasting lasting_valid t ht
  ⟨hlast.1, (h.interned_types t).extends, hlast.2⟩

/-- All types of a tuple are known. -/
def KnowsTuple (t : ShapeTable) (tuple : Tuple) : Prop := ∀ s ∈ tuple, t.Knows s

theorem KnowsTuple.mono {tuple : Tuple} (h : KnowsTuple t tuple) (hext : t.Extends t') :
    KnowsTuple t' tuple := fun s hs => (h s hs).mono hext

/-! ### Declarations -/

theorem ParamDecl.defaultTypes_interns (ht : t.Valid) (e : Expr Unit) :
    Interns (ParamDecl.defaultTypes e) t fun s t' => t'.Knows s := by
  unfold ParamDecl.defaultTypes
  split
  · exact .pure ht (ht.knows_literal _)
  · exact ShapeTable.arrayOf_spec ht knows_void
  · exact .pure ht knows_any

theorem ParamDecl.param_interns (ht : t.Valid) (d : ParamDecl) :
    Interns d.param t fun q t' => Routine.ParamKnown t' q := by
  have hrest : ∀ (s : TypeSet) (t1 : ShapeTable), t1.Valid → t.Extends t1 → t1.Knows s →
      Interns (do
        let doc ← d.doc.mapM Hint.types
        let default ← d.default.mapM ParamDecl.defaultTypes
        return { name := d.name, var := 0, declared := s, doc, byRef := d.byRef, default : Param })
        t1 fun q t' => Routine.ParamKnown t' q := by
    intro s t1 ht1 _ hs
    refine (Interns.mapOption ht1 fun h _ => h.types_interns ht1).bind
      fun doc t2 ht2 he2 hdoc => ?_
    refine (Interns.mapOption ht2 fun e _ => ParamDecl.defaultTypes_interns ht2 e).bind
      fun default t3 ht3 he3 hdefault => ?_
    exact .pure ht3
      ⟨(hs.mono he2).mono he3, fun x hx => (hdoc x hx).mono he3, hdefault⟩
  unfold ParamDecl.param
  rcases d.hint with _ | h
  · exact (Interns.pure ht knows_any).bind hrest
  · exact (h.types_interns ht).bind hrest

theorem Routine.ofDecl_spec (ht : t.Valid) (h : Routine.ofDecl id d t = .ok (r, t')) :
    t'.Valid ∧ t.Extends t' ∧ r.Fresh t' id := by
  unfold Routine.ofDecl at h
  obtain ⟨graph, hgraph, h⟩ := ok_of_except h
  obtain ⟨ht', hext, hknown⟩ := Interns.mapM (l := d.params) (P := fun q t => ParamKnown t q)
    (fun q t t' hext hq => ⟨hq.1.mono hext, fun x hx => (hq.2.1 x hx).mono hext,
      fun x hx => (hq.2.2 x hx).mono hext⟩) ht fun p _ t' ht' _ => p.param_interns ht'
  cases h
  exact ⟨ht', hext, .intro d.name d.exported none (Graph.sound_ofSource? hgraph) hknown
    (by simp)⟩

theorem Routine.ofDecl_derived (h : Routine.ofDecl id d t = .ok (r, t')) :
    r.origin = none ∧ r.fixed = none := by
  unfold Routine.ofDecl at h
  obtain ⟨graph, hgraph, h⟩ := ok_of_except h
  cases h
  exact ⟨rfl, rfl⟩

/-! ### Strategies -/

namespace Strategy

variable {t : ShapeTable} {s : Strategy} {p : Program}

/-- For the routines of `p`, the strategy proposes known types, after adding shapes to the
table at most. -/
def SoundOn (s : Strategy) (p : Program) : Prop := ∀ r ∈ p.routines,
  ∀ t : ShapeTable, t.Valid → p.table.Extends t →
    Interns (s p r) t fun tuples t' => ∀ tuple ∈ tuples, KnowsTuple t' tuple

/-- The strategy proposes known types. -/
def Sound (s : Strategy) : Prop := ∀ p : Program, p.Sound → s.SoundOn p

/-- The strategy proposes known types, even after a failure. -/
def Robust (s : Strategy) : Prop := ∀ p : Program, p.Kept → s.SoundOn p

/-- The strategy can be used on `p` and on what `p` comes to. -/
def Serves (s : Strategy) (p : Program) : Prop := s.Robust ∨ s.Sound ∧ p.Sound

theorem Serves.soundOn (h : s.Serves p) (hp : p.Kept) : s.SoundOn p :=
  h.elim (fun h => h p hp) fun h => h.1 p h.2

theorem Serves.continues {p' : Program} (h : s.Serves p) (hc : p.Continues p') : s.Serves p' :=
  h.imp_right fun h => ⟨h.1, hc.sound h.2⟩

theorem knows_refine : ∀ {base : Tuple} {evidence : List (Option TypeSet)},
    KnowsTuple t base → (∀ e ∈ evidence, ∀ s ∈ e, t.Knows s) → KnowsTuple t (refine base evidence)
  | [], _, _, _ => by
    rw [refine]
    · exact fun s hs => absurd hs not_mem_nil
    · exact fun b base e evidence hbase => by cases hbase
  | b :: base, [], hbase, _ => by
    rw [refine]
    · exact hbase
    · exact fun b base e evidence _ hevidence => by cases hevidence
  | b :: base, e :: evidence, hbase, hevidence => by
    have hrest : KnowsTuple t (refine base evidence) := knows_refine
      (fun s hs => hbase s (.tail _ hs))
      fun x hx => hevidence x (.tail _ hx)
    have hb : t.Knows b := hbase b (.head _)
    intro s hs
    simp only [refine] at hs
    rcases mem_cons.1 hs with rfl | hs
    · split
      next s => exact ((hevidence _ (.head _) s rfl).plain).ite hb
      next => exact hb
    · exact hrest s hs

theorem knows_refine? {base tuple : Tuple} {evidence : List (Option TypeSet)}
    (hbase : KnowsTuple t base) (hevidence : ∀ e ∈ evidence, ∀ s ∈ e, t.Knows s)
    (h : refine? base evidence = some tuple) : KnowsTuple t tuple := by
  unfold refine? at h
  simp only at h
  split at h
  · cases h
  · cases h
    exact knows_refine hbase hevidence

theorem knows_paramTypes {n : Nat} (h : r.Valid t n) : KnowsTuple t r.paramTypes := by
  unfold Routine.paramTypes
  rcases hfixed : r.fixed with _ | tuple
  · intro s hs
    obtain ⟨q, hq, rfl⟩ := mem_map.1 hs
    exact (h.params q hq).2.1
  · exact h.fixed tuple hfixed

theorem byCalls_robust : byCalls.Robust := by
  intro p hp r hr t ht hext
  refine .pure ht fun tuple htuple => ?_
  obtain ⟨e, he, hsome⟩ := mem_filterMap.1 htuple
  refine knows_refine? ((knows_paramTypes (hp.routines r hr)).mono hext) (fun x hx s hs => ?_) hsome
  obtain ⟨a, ha, rfl⟩ := mem_map.1 hx
  cases hs
  exact ((hp.edges e (CallGraph.mem_into.1 he).1).args _ ha).mono hext

theorem byDocs_robust : byDocs.Robust := by
  intro p hp r hr t ht hext
  have hvalid := hp.routines r hr
  refine .pure ht fun tuple htuple => ?_
  refine knows_refine? ((knows_paramTypes hvalid).mono hext) (fun x hx s hs => ?_)
    (Option.mem_toList.1 htuple)
  obtain ⟨q, hq, rfl⟩ := mem_map.1 hx
  exact ((hvalid.params q hq).2.2.1 s hs).mono hext

theorem byTexts_robust : byTexts.Robust := by
  intro p hp r hr t ht hext
  refine .pure ht fun tuple htuple => ?_
  refine knows_refine? ((knows_paramTypes (hp.routines r hr)).mono hext) (fun x hx s hs => ?_)
    (Option.mem_toList.1 htuple)
  obtain ⟨i, -, rfl⟩ := mem_map.1 hx
  simp only at hs
  split at hs
  · cases hs
    exact ht.knows_string
  · cases hs

theorem knows_evidence (ht : t.Valid) (d : Directory) :
    ∀ {uses : List Usage} {ev : Evidence}, t.Knows ev.types →
      t.Knows (uses.foldl (Evidence.add d) ev).types
  | [], _, h => h
  | u :: uses, ev, h => by
    show t.Knows (uses.foldl (Evidence.add d) (Evidence.add d ev u)).types
    refine knows_evidence ht d ?_
    cases u with
    | tested kind => exact h.union (ht.knows_representative kind)
    | instanceOf className => exact h
    | member name => exact h
    | element => exact h.union ht.knows_array
    | text => exact h.union ht.knows_string
    | comparedWithNull => exact (h.union ht.knows_null).union ht.knows_object

theorem interns_classes : ∀ {classes : List String} {t : ShapeTable} {s : TypeSet}, t.Valid →
    t.Knows s →
    Interns (classes.foldlM (fun s name => return s ∪ (← modifyGet fun t => t.named name)) s) t
      fun s t' => t'.Knows s
  | [], t, s, ht, hs => .pure ht hs
  | name :: classes, t, s, ht, hs => by
    have hstep : Interns (do return s ∪ (← modifyGet fun t => t.named name)) t
        fun s t' => t'.Knows s :=
      (interns_named ht name).bind fun s' t1 ht1 he1 hs' =>
        .pure ht1 ((hs.mono he1).union hs')
    rw [foldlM_cons]
    exact hstep.bind fun s1 t1 ht1 _ hs1 => interns_classes ht1 hs1

theorem proposal_interns (ht : t.Valid) {ev : Evidence} (h : t.Knows ev.types) (maxClasses : Nat) :
    Interns (ev.proposal maxClasses) t fun o t' => ∀ s ∈ o, t'.Knows s := by
  have hrest : ∀ (s : TypeSet) (t1 : ShapeTable), t1.Valid → t.Extends t1 → t1.Knows s →
      Interns (return if s.isVoid then none else some s) t1 fun o t' => ∀ s ∈ o, t'.Knows s := by
    intro s t1 ht1 _ hs
    refine .pure ht1 fun x hx => ?_
    split at hx
    · cases hx
    · cases hx
      exact hs
  unfold Evidence.proposal
  simp only
  split
  · exact (Interns.pure ht (h.union ht.knows_object)).bind hrest
  · exact (interns_classes ht h).bind hrest

theorem byUsage_robust (maxClasses : Nat) : (byUsage maxClasses).Robust := by
  intro p hp r hr t ht hext
  have hproposed : Interns ((range r.params.length).mapM fun i =>
      ((((r.usages.filter (·.1 == i)).map (·.2)).foldl (Evidence.add p.directory) {}).proposal
        maxClasses)) t fun os t' => ∀ o ∈ os, ∀ s ∈ o, t'.Knows s :=
    .mapM (fun _ _ _ he h s hs => (h s hs).mono he) ht fun i _ t' ht' _ =>
      proposal_interns ht' (knows_evidence ht' p.directory knows_void) maxClasses
  refine hproposed.bind fun os t1 ht1 he1 hos => ?_
  refine .pure ht1 fun tuple htuple => ?_
  exact knows_refine? ((knows_paramTypes (hp.routines r hr)).mono (hext.trans he1)) hos
    (Option.mem_toList.1 htuple)

theorem builtin_robust (c : Config) : ∀ s ∈ c.builtin, s.Robust := by
  intro s hs
  unfold Config.builtin at hs
  simp only [mem_append, mem_ite_nil_right, mem_singleton] at hs
  rcases hs with ((⟨-, rfl⟩ | ⟨-, rfl⟩) | ⟨-, rfl⟩) | ⟨-, rfl⟩
  · exact byCalls_robust
  · exact byUsage_robust c.maxClasses
  · exact byTexts_robust
  · exact byDocs_robust

end Strategy

/-! ### Gathering proposals -/

namespace Candidates

theorem insert_spec {c : Candidates} {tuple : Tuple} (ht : t.Valid) (htuple : KnowsTuple t tuple) :
    ∃ new c', c.insert t tuple = some (new, c') ∧ ∀ x ∈ c'.toList, x = tuple ∨ x ∈ c.toList := by
  obtain ⟨names, hnames⟩ := Option.isSome_iff_exists.1
    (mapM_isSome fun s hs => names_isSome ht (htuple s hs))
  have hrun : c.insert t tuple =
      some ((Sorted.insertNew ⟨names, tuple⟩ c.entries).length != c.size,
        ⟨Sorted.insertNew ⟨names, tuple⟩ c.entries⟩) := by
    unfold insert
    rw [hnames]
    rfl
  refine ⟨_, _, hrun, fun x hx => ?_⟩
  obtain ⟨e, he, rfl⟩ := mem_map.1 hx
  rcases Sorted.mem_insertNew he with rfl | he
  · exact .inl rfl
  · exact .inr (mem_map_of_mem he)

theorem insertAll_spec (ht : t.Valid) : ∀ (tuples : List Tuple) {c : Candidates},
    (∀ tuple ∈ tuples, KnowsTuple t tuple) → (∀ tuple ∈ c.toList, KnowsTuple t tuple) →
    ∃ c', c.insertAll t tuples = some c' ∧ ∀ tuple ∈ c'.toList, KnowsTuple t tuple
  | [], c, _, hc => ⟨c, rfl, hc⟩
  | tuple :: tuples, c, htuples, hc => by
    have htuple := htuples tuple (.head _)
    obtain ⟨new, c1, hrun1, hmem⟩ := insert_spec (c := c) ht htuple
    obtain ⟨c', hrun, hc'⟩ := insertAll_spec ht tuples (c := c1)
      (fun x hx => htuples x (.tail _ hx)) fun x hx => by
        rcases hmem x hx with rfl | hx
        · exact htuple
        · exact hc x hx
    refine ⟨c', ?_, hc'⟩
    unfold insertAll at hrun ⊢
    rw [foldlM_cons, hrun1]
    exact hrun

end Candidates

namespace Program

variable {p p' : Program} {strategies : List Strategy} {i : Nat} {r r' : Routine} {tuple : Tuple}

/-- One strategy adds what it proposes. -/
def propose (p : Program) (r : Routine) (x : Candidates × ShapeTable) (s : Strategy) :
    Except Fault (Candidates × ShapeTable) :=
  match x.1.insertAll ((s p r).run x.2).2 ((s p r).run x.2).1 with
  | some set => .ok (set, ((s p r).run x.2).2)
  | none => .error .unknownShape

theorem gather_eq (p : Program) (strategies : List Strategy) (r : Routine) (t : ShapeTable) :
    p.gather strategies r t =
      (strategies.foldlM (p.propose r) (.empty, t) >>= fun x => pure (x.1.toList, x.2)) := rfl

theorem proposeAll_spec (hr : r ∈ p.routines) :
    ∀ (strategies : List Strategy) {c : Candidates} {t : ShapeTable},
    (∀ s ∈ strategies, s.SoundOn p) → t.Valid → p.table.Extends t →
    (∀ tuple ∈ c.toList, KnowsTuple t tuple) →
    ∃ c' t', strategies.foldlM (p.propose r) (c, t) = .ok (c', t') ∧ t'.Valid ∧ t.Extends t' ∧
      ∀ tuple ∈ c'.toList, KnowsTuple t' tuple
  | [], c, t, _, ht, _, hc => ⟨c, t, rfl, ht, .refl t, hc⟩
  | s :: strategies, c, t, hs, ht, hext, hc => by
    obtain ⟨ht1, he1, htuples⟩ := hs s (.head _) r hr t ht hext
    obtain ⟨c1, hinsert, hc1⟩ := Candidates.insertAll_spec ht1 _ htuples
      fun tuple htuple => (hc tuple htuple).mono he1
    have hrun1 : p.propose r (c, t) s = .ok (c1, ((s p r).run t).2) := by
      unfold propose
      rw [hinsert]
    obtain ⟨c', t', hrun, ht', he', hc'⟩ := proposeAll_spec hr strategies
      (fun x hx => hs x (.tail _ hx)) ht1 (hext.trans he1) hc1
    refine ⟨c', t', ?_, ht', he1.trans he', hc'⟩
    rw [foldlM_cons, hrun1]
    exact hrun

theorem gather_spec (hr : r ∈ p.routines) (hs : ∀ s ∈ strategies, s.SoundOn p) (ht : t.Valid)
    (hext : p.table.Extends t) :
    ∃ tuples t', p.gather strategies r t = .ok (tuples, t') ∧ t'.Valid ∧ t.Extends t' ∧
      ∀ tuple ∈ tuples, KnowsTuple t' tuple := by
  obtain ⟨c', t', hrun, ht', he', hc'⟩ := proposeAll_spec hr strategies (c := .empty) hs ht hext
    fun tuple htuple => by cases htuple
  refine ⟨c'.toList, t', ?_, ht', he', hc'⟩
  rw [gather_eq, hrun]
  rfl

theorem gatherAll_spec (hs : ∀ s ∈ strategies, s.SoundOn p) :
    ∀ (rs : List Routine) {t : ShapeTable},
    (∀ r ∈ rs, r ∈ p.routines) → t.Valid → p.table.Extends t →
    ∃ sets t', p.gatherAll strategies rs t = .ok (sets, t') ∧ t'.Valid ∧ t.Extends t' ∧
      ∀ x ∈ sets, ∀ tuple ∈ x.2, KnowsTuple t' tuple
  | [], t, _, ht, _ => ⟨[], t, rfl, ht, .refl t, by simp⟩
  | r :: rs, t, hrs, ht, hext => by
    obtain ⟨tuples, t1, hrun1, ht1, he1, htuples⟩ :=
      gather_spec (hrs r (.head _)) hs ht hext
    obtain ⟨sets, t', hrun, ht', he', hsets⟩ := gatherAll_spec hs rs
      (fun x hx => hrs x (.tail _ hx)) ht1 (hext.trans he1)
    refine ⟨(r.id, tuples) :: sets, t', ?_, ht', he1.trans he', fun x hx => ?_⟩
    · unfold gatherAll
      rw [hrun1]
      show (p.gatherAll strategies rs t1 >>= fun x => pure ((r.id, tuples) :: x.1, x.2)) = _
      rw [hrun]
      rfl
    · rcases mem_cons.1 hx with rfl | hx
      · exact fun tuple htuple => (htuples tuple htuple).mono he'
      · exact hsets x hx

/-! ### Cloning -/

theorem requeue_pending {b : Nat} (hb : ((r.requeue b).input? b).isSome = true) :
    b ∈ (r.requeue b).pending.toList := by
  unfold Routine.requeue at hb ⊢
  split
  next => exact Agenda.mem_insert.2 (.inr rfl)
  next hnone =>
    rw [if_neg hnone] at hb
    exact absurd hb hnone

/-- Callers that have been reached look again. -/
theorem requeueCallers_spec (p : Program) (id : Nat) :
    Each Routine.Queues p (p.requeueCallers id) ∧ (p.requeueCallers id).Alerted id := by
  have hfold : ∀ (edges : List CallEdge) (p : Program),
      let p' := edges.foldl (fun p e => p.update e.caller (·.requeue e.block)) p
      Each Routine.Queues p p' ∧ ∀ e ∈ edges, ∀ r, p'.routines[e.caller]? = some r →
        (r.input? e.block).isSome = true → e.block ∈ r.pending.toList := by
    intro edges
    induction edges with
    | nil => exact fun p => ⟨each_queues_refl p, by simp⟩
    | cons e edges ih =>
      intro p
      obtain ⟨hqs, hall⟩ := ih (p.update e.caller (·.requeue e.block))
      rcases hr : p.routines[e.caller]? with _ | r
      · rw [foldl_cons, update_of_none hr]
        rw [update_of_none hr] at hqs hall
        refine ⟨hqs, fun d hd r' hr' hreached => ?_⟩
        rcases mem_cons.1 hd with rfl | hd
        · obtain ⟨r, hr1, -⟩ := hqs.back hr'
          rw [hr] at hr1
          cases hr1
        · exact hall d hd r' hr' hreached
      · have hq := each_put .refl hr (Routine.queues_requeue r e.block)
        rw [foldl_cons, update_eq_put hr]
        rw [update_eq_put hr] at hqs hall
        refine ⟨each_queues_trans hq hqs, fun d hd r' hr' hreached => ?_⟩
        rcases mem_cons.1 hd with rfl | hd
        · obtain ⟨r1, hr1, hq1⟩ := hqs.back hr'
          rw [routines_put hr, if_pos rfl] at hr1
          cases hr1
          refine hq1.kept _ (requeue_pending ?_)
          rw [hq1.frame] at hreached
          exact hreached
        · exact hall d hd r' hr' hreached
  obtain ⟨hq, hall⟩ := hfold (p.calls.into id) p
  refine ⟨hq, fun e he hcallee => hall e (CallGraph.mem_into.2 ⟨?_, hcallee⟩)⟩
  rw [requeueCallers, hq.frame] at he
  exact he

theorem put_push (hi : i < p.size) (r s : Routine) : (p.push s).put i r = (p.put i r).push s := by
  unfold push put
  simp only [Program.size, length_set, set_append_left i r hi]

theorem push_put (hname : r'.name = r.name) : (p.push r).put p.size r' = p.push r' := by
  unfold push put
  simp [Program.size, hname]

theorem requeueCallers_push {id : Nat} (h : ∀ e ∈ p.calls.edges, e.caller < p.size) (s : Routine) :
    (p.push s).requeueCallers id = (p.requeueCallers id).push s := by
  have hfold : ∀ (edges : List CallEdge) (p : Program), (∀ e ∈ edges, e.caller < p.size) →
      edges.foldl (fun p e => p.update e.caller (·.requeue e.block)) (p.push s) =
        (edges.foldl (fun p e => p.update e.caller (·.requeue e.block)) p).push s := by
    intro edges
    induction edges with
    | nil => exact fun p _ => rfl
    | cons e edges ih =>
      intro p hall
      have hlt := hall e (.head _)
      have hr : p.routines[e.caller]? = some (p.routines.get ⟨e.caller, hlt⟩) := getElem?_eq_getElem hlt
      have hr' : (p.push s).routines[e.caller]? = some (p.routines.get ⟨e.caller, hlt⟩) :=
        (getElem?_append_left hlt).trans hr
      rw [foldl_cons, foldl_cons, update_eq_put hr, update_eq_put hr', put_push hlt]
      refine ih _ fun d hd => ?_
      rw [size_put]
      exact hall d (.tail _ hd)
  exact hfold (p.calls.into id) p fun e he => h e (CallGraph.mem_into.1 he).1

theorem each_tweak_put (hr : p.routines[i]? = some r) (h : Routine.Tweak p.table r r') :
    Each (Routine.Tweak p.table) p (p.put i r') :=
  each_put (fun r => Routine.Tweak.queue (.refl r)) hr h

theorem Adjust.acts (h : Adjust p p') : Acts (.of p) (.of p') :=
  .single (.change h)

theorem Change.moves (h : Change p p') : Moves (.of p) (.of p') :=
  .single (.change h)

theorem Entered.tweak (h : p.Entered) (hp : p.Kept) (he : Each (Routine.Tweak p.table) p p') :
    p'.Entered := by
  intro r' hr'
  obtain ⟨i, hi⟩ := getElem?_of_mem hr'
  obtain ⟨r, hr, htweak⟩ := he.back hi
  exact htweak.reached (hp.valid hr) hp.table (h r (mem_of_getElem? hr))

theorem Continues.tweak (hp : p.Kept) (hentered : p.Entered)
    (he : Each (Routine.Tweak p.table) p p') : Continues p p' :=
  .of_acts (Adjust.tweak he).acts he.size.ge (by rw [he.frame]) (hentered.tweak hp he)

theorem clone_fresh (id : Nat) {n : Nat} (hr : r.Valid p.table n)
    (htuple : KnowsTuple p.table tuple) : (r.clone id tuple).Fresh p.table id :=
  .intro r.name false (some (r.origin.getD r.id)) hr.graph
    (fun q hq => (hr.params q hq).2) fun f hf => by
      cases hf
      exact htuple

theorem getElem?_clone (p : Program) (i : Nat) (r r' : Routine) :
    ((p.put i r).push r').routines[p.size]? = some r' := by
  rw [← size_put p i r]
  exact getElem?_concat_length

/-- The routine with a tuple that it has been cloned for. -/
abbrev noting (r : Routine) (tuple : Tuple) : Routine := { r with applied := r.applied ++ [tuple] }

theorem applyClone_run (hid : r.id = i) (hr : p.routines[i]? = some r) (tuple : Tuple) :
    p.applyClone r tuple = (r.clone p.size tuple).seed.map fun x =>
      (((p.put i (noting r tuple)).push (r.clone p.size tuple)).put
        p.size x.2).requeueCallers i := by
  subst hid
  have hi : r.id < p.size := (lt_of_getElem? hr)
  have hr1 : (p.push (r.clone p.size tuple)).routines[r.id]? = some r :=
    (getElem?_append_left hi).trans hr
  have hclone := p.getElem?_clone r.id (noting r tuple) (r.clone p.size tuple)
  have hmark : (p.push (r.clone p.size tuple)).update r.id (noting · tuple) =
      (p.put r.id (noting r tuple)).push (r.clone p.size tuple) := by
    rw [update_eq_put hr1, put_push hi]
  unfold applyClone
  rw [show p.addClone r tuple = p.push (r.clone p.size tuple) from rfl]
  simp only [hmark, hclone]
  rcases (r.clone p.size tuple).seed with f | ⟨c, clone⟩
  · rfl
  · exact congrArg (fun q => Except.ok (q.requeueCallers r.id)) (update_eq_put hclone fun _ => clone)

theorem applyClone_eq (hp : p.Kept) {clone : Routine} {c : Bool} (hr : p.routines[i]? = some r)
    (hseed : (r.clone p.size tuple).seed = .ok (c, clone)) (hname : clone.name = r.name) :
    p.applyClone r tuple =
      .ok (((p.put i (noting r tuple)).requeueCallers i).push clone) := by
  obtain ⟨q, hq⟩ : ∃ q, q = p.put i (noting r tuple) := ⟨_, rfl⟩
  have hsize : q.size = p.size := hq ▸ size_put ..
  have hcallers : ∀ e ∈ q.calls.edges, e.caller < q.size := by
    intro e he
    rw [hq] at he
    obtain ⟨s, hs, -⟩ := (hp.edges e he).caller
    rw [hsize]
    exact (lt_of_getElem? hs)
  have hlast : ((q.push (r.clone p.size tuple)).put p.size clone).requeueCallers i =
      (q.requeueCallers i).push clone := by
    rw [← hsize, push_put (by rw [hname]; rfl), requeueCallers_push hcallers]
  rw [applyClone_run (hp.ids i r hr) hr, hseed, ← hq, ← hlast]
  rfl

theorem applyClone_spec (hp : p.Kept) (hentered : p.Entered) (hr : p.routines[i]? = some r)
    (htuple : KnowsTuple p.table tuple) : ∃ p', p.applyClone r tuple = .ok p' ∧ Continues p p' := by
  -- the tuple is remembered
  obtain ⟨q1, hq1⟩ : ∃ q1, q1 = p.put i (noting r tuple) := ⟨_, rfl⟩
  have hmarks : Routine.Marks p.table r (noting r tuple) := by
    have hvalid := hp.valid hr
    refine ⟨rfl, hvalid.candidates, fun c hc => ?_, fun c => mem_append_left _, hvalid.entered⟩
    rcases mem_append.1 hc with hc | hc
    · exact hvalid.applied c hc
    · obtain rfl := mem_singleton.1 hc
      exact htuple
  have hcont1 : Continues p q1 :=
    hq1 ▸ Continues.tweak hp hentered (each_tweak_put hr (Routine.Tweak.mark hmarks))
  have hr1 : q1.routines[i]? = some (noting r tuple) := by
    rw [hq1, routines_put hr, if_pos rfl]
  -- callers are to look again
  obtain ⟨hq, halerted⟩ := requeueCallers_spec q1 i
  have hcont2 : Continues q1 (q1.requeueCallers i) :=
    Continues.tweak (hcont1.kept hp) hcont1.entered (hq.mono fun _ _ _ _ => Routine.Tweak.queue)
  have hkept2 := hcont2.kept (hcont1.kept hp)
  obtain ⟨s, hs, hsq⟩ := hq.forth hr1
  have hsize : (q1.requeueCallers i).size = p.size := by rw [hq.size, hq1, size_put]
  have htable : (q1.requeueCallers i).table = p.table := by
    rw [hq.frame, hq1]
    rfl
  have happlied : tuple ∈ s.applied := by
    rw [hsq.frame]
    exact mem_append_right _ (mem_singleton_self _)
  have hclone : s.clone p.size tuple = r.clone p.size tuple := by
    rw [hsq.frame]
    rfl
  generalize hq2 : q1.requeueCallers i = q2 at *
  -- the clone is added
  have hfresh : (r.clone p.size tuple).Fresh q2.table q2.size := by
    rw [hsize, htable]
    exact clone_fresh p.size (hp.valid hr) htuple
  have hpush : Adjust q2 (q2.push (r.clone p.size tuple)) :=
    Adjust.push hfresh (.inr ⟨i, s, tuple, hs, by rw [hsize, hclone], happlied, halerted⟩)
  have hkept3 := hpush.kept hkept2
  have hnew : (q2.push (r.clone p.size tuple)).routines[q2.size]? = some (r.clone p.size tuple) :=
    getElem?_concat_length
  -- the clone is entered
  obtain ⟨c, clone, hseed, -, hflows⟩ := Routine.seed_spec (hkept3.valid hnew) hkept3.table
  have hname : clone.name = (r.clone p.size tuple).name := by rw [hflows.frame]
  have hseeded := each_tweak_put hnew (Routine.Tweak.seed hseed)
  rw [push_put hname] at hseeded
  refine ⟨q2.push clone, ?_, (hcont1.trans hcont2).trans (.of_acts
    (hpush.acts.trans (Adjust.tweak hseeded).acts) ?_ rfl fun s hs => ?_)⟩
  · rw [applyClone_eq hp hr hseed hname, ← hq1, hq2]
  · rw [size_push]
    exact Nat.le_succ _
  · rcases mem_append.1 hs with hs | hs
    · exact hcont2.entered s hs
    · obtain rfl := mem_singleton.1 hs
      obtain ⟨s', hs', -⟩ := hflows.input
      rw [hs']
      rfl

theorem each_candidates (hp : p.Kept) (i : Nat) {set : List Tuple}
    (hset : ∀ tuple ∈ set, KnowsTuple p.table tuple) :
    Each (Routine.Tweak p.table) p (p.update i fun r => { r with candidates := set }) := by
  rcases hr : p.routines[i]? with _ | r
  · rw [update_of_none hr]
    exact .refl (fun r => Routine.Tweak.queue (.refl r)) p
  · rw [update_eq_put hr]
    have hvalid := hp.valid hr
    exact each_tweak_put hr
      (Routine.Tweak.mark ⟨rfl, hset, hvalid.applied, fun _ hc => hc, hvalid.entered⟩)

theorem applyAll_spec : ∀ (sets : List (Nat × List Tuple)) {p : Program}, p.Kept → p.Entered →
    (∀ x ∈ sets, ∀ tuple ∈ x.2, KnowsTuple p.table tuple) →
    ∃ n p', applyAll sets p = .ok (n, p') ∧ Continues p p'
  | [], p, _, hentered, _ => ⟨0, p, rfl, .refl hentered⟩
  | (i, set) :: sets, p, hp, hentered, hsets => by
    have heach := each_candidates hp i (hsets _ (.head _))
    obtain ⟨p1, hp1⟩ : ∃ p1, p1 = p.update i fun r => { r with candidates := set } := ⟨_, rfl⟩
    rw [← hp1] at heach
    have hcont1 := Continues.tweak hp hentered heach
    have hkept1 := hcont1.kept hp
    have htable1 : p1.table = p.table := by rw [heach.frame]
    rcases hchoice : (p1.routines[i]? >>= fun r => r.choice?.map (r, ·)) with _ | ⟨r, tuple⟩
    · obtain ⟨n, p', hrun, hcont⟩ := applyAll_spec sets hkept1 hcont1.entered
        fun x hx => htable1 ▸ hsets x (.tail _ hx)
      refine ⟨n, p', ?_, hcont1.trans hcont⟩
      unfold applyAll
      simp only [← hp1, hchoice, hrun]
    · obtain ⟨r1, hr1, hmap⟩ := Option.bind_eq_some_iff.1 hchoice
      obtain ⟨tuple1, hfind, heq⟩ := Option.map_eq_some_iff.1 hmap
      cases heq
      have htuple := (hkept1.valid hr1).candidates tuple (mem_of_find?_eq_some hfind)
      obtain ⟨p2, hrun2, hcont2⟩ := applyClone_spec hkept1 hcont1.entered hr1 htuple
      obtain ⟨n, p', hrun, hcont⟩ := applyAll_spec sets (hcont2.kept hkept1)
        hcont2.entered fun x hx tuple ht =>
          ((htable1 ▸ hsets x (.tail _ hx) tuple ht : KnowsTuple p1.table tuple)).mono
            hcont2.turns.table
      refine ⟨n + 1, p', ?_, hcont1.trans (hcont2.trans hcont)⟩
      unfold applyAll
      simp only [← hp1, hchoice, hrun2]
      show (applyAll sets p2 >>= fun x => pure (x.1 + 1, x.2)) = _
      rw [hrun]
      rfl

/-- **Specialization succeeds** and leaves a program that has been entered. -/
theorem specialize_spec (hp : p.Kept) (hentered : p.Entered) (c : Config)
    (hs : ∀ s ∈ strategies, s.SoundOn p) :
    ∃ n p', p.specialize c strategies = .ok (n, p') ∧ Continues p p' := by
  unfold specialize
  split
  · exact ⟨0, p, rfl, .refl hentered⟩
  · obtain ⟨sets, t, hrun1, ht, hext, hsets⟩ := gatherAll_spec hs (p.eligible c)
      (fun r hr => mem_of_mem_filter hr) hp.table (.refl p.table)
    have hchange : Adjust p { p with table := t } := Adjust.extend hext ht
    have hcont1 : Continues p { p with table := t } :=
      .of_acts hchange.acts (Nat.le_refl _) rfl hentered
    obtain ⟨n, p', hrun, hcont⟩ := applyAll_spec sets (hchange.kept hp) hentered hsets
    refine ⟨n, p', ?_, hcont1.trans hcont⟩
    rw [hrun1]
    exact hrun

end Program

end ShapeFlow
