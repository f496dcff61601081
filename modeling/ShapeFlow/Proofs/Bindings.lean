/-
# Bindings

A call is bound whenever a walk goes through its block, among the routines there are
at that time.  Routines that are added later are looked at only if the block is
queued again.  This happens when the routine that contains it is queued or
forgotten, and when a clone is made of a routine that the call has led to.  So in
the end a call is bound as if it were bound afresh, unless a routine of its name
was declared, or cloned from one it has never led to, since all the blocks of its
own routine were last due.

Key definitions: `Program.Ledger`, `Routine.BoundBy`, `Program.Unannounced`.
Key theorems: `Act.aims`, `Program.Ledger.bound_afresh`, `Program.Ledger.clone_covers`.
-/
import ShapeFlow.Proofs.Overloads

namespace ShapeFlow

open ShapeFlow.Flow Infer List

namespace Routine

variable {r r' : Routine} {b : Nat}

/-- The call at `k` in block `b` was bound to `t`, for arguments of the given types, by a walk
that went through the block from its present input. -/
def BoundBy (r : Routine) (b k : Nat) (name : String) (args : List (Expr Nat)) (types : Tuple)
    (t : Target) : Prop :=
  ∃ (c : Setting) (w w' : Walker), c.block = b ∧ block c w = .ok () w' ∧ w.routine.id = r.id ∧
    w.routine.graph = r.graph ∧ w.routine.input? b = r.input? b ∧
    w'.routine.target? k = some t ∧ t = c.bind name types ∧ Infer.ArgsHave w'.routine args types ∧
    ∃ u u', u.routine.id = r.id ∧ argTypes c name args u = .ok types u'

/-- Block `b`, which was not pending, is as it was. -/
structure Unmoved (r r' : Routine) (b : Nat) : Prop where
  id : r'.id = r.id
  graph : r'.graph = r.graph
  input : r'.input? b = r.input? b
  idle : b ∉ r.pending.toList
  targets : ∀ k ∈ r.graph.tagsOf b, r'.target? k = r.target? k

theorem Unmoved.refl (hb : b ∉ r.pending.toList) : Unmoved r r b :=
  ⟨rfl, rfl, rfl, hb, fun _ _ => rfl⟩

theorem BoundBy.unmoved {k : Nat} {name : String} {args : List (Expr Nat)} {types : Tuple} {t : Target}
    (h : r.BoundBy b k name args types t) (hc : Unmoved r r' b) :
    r'.BoundBy b k name args types t := by
  obtain ⟨c, w, w', hblock, hrun, hid, hgraph, hinput, hrest⟩ := h
  refine ⟨c, w, w', hblock, hrun, hid.trans hc.id.symm, hgraph.trans hc.graph.symm,
    hinput.trans hc.input.symm, ?_⟩
  rw [hc.id]
  exact hrest

theorem Piles.unmoved (h : Piles r r') (hb : b ∉ r'.pending.toList) : Unmoved r r' b := by
  refine ⟨?_, ?_, ?_, fun hmem => hb (h.kept b hmem), fun k _ => ?_⟩ <;> rw [h.frame] <;> rfl

theorem Grows.unmoved (h : Grows r r') (hfacts : r'.facts = r.facts) (hb : b ∉ r'.pending.toList) :
    Unmoved r r' b where
  id := by rw [h.frame]
  graph := h.graph
  input := (h.changed b).resolve_right hb
  idle hmem := hb (h.pending b hmem)
  targets k _ := by rw [target?, target?, hfacts]

theorem Tweak.unmoved {t : ShapeTable} {n b : Nat} (h : Tweak t r r') (hr : r.Valid t n) (ht : t.Valid)
    (hb : b ∉ r'.pending.toList) : Unmoved r r' b := by
  have hstands := h.stands hr ht
  exact ⟨by rw [h.frame hr ht], hstands.graph, (hstands.inputs b).resolve_right hb,
    fun hmem => hb (hstands.pending b hmem), fun k _ => by rw [target?, target?, hstands.facts]⟩

end Routine

/-! ### Routines that a call has no notice of -/

namespace Program

variable {p p' : Program}

/-- The call at `k` in routine `i` has led to routine `j`. -/
def HasCalled (p : Program) (i k j : Nat) : Prop :=
  ∃ e ∈ p.calls.edges, e.caller = i ∧ e.callee = j ∧ e.site = k

/-- Routine `c` is a clone made from routine `j`. -/
def ClonedFrom (p : Program) (c j : Nat) : Prop :=
  ∃ s q tuple, p.routines[c]? = some s ∧ p.routines[j]? = some q ∧
    s.origin = some (q.origin.getD q.id) ∧ s.fixed = some tuple ∧ tuple ∈ q.applied

/-- The call at `k` in routine `i` was given no notice of routine `c`, which was declared, or
cloned from a routine that the call has never led to. -/
def Unannounced (p : Program) (i k c : Nat) : Prop :=
  (∃ s, p.routines[c]? = some s ∧ s.origin = none) ∨ ∃ j, p.ClonedFrom c j ∧ ¬ p.HasCalled i k j

theorem ClonedFrom.later {c j : Nat} (h : p.ClonedFrom c j) (hl : p.Later p') :
    p'.ClonedFrom c j := by
  obtain ⟨s, q, tuple, hs, hq, horigin, hfixed, happlied⟩ := h
  obtain ⟨s', hs', htext, -⟩ := hl.routines c s hs
  obtain ⟨q', hq', htext', hgrown⟩ := hl.routines j q hq
  exact ⟨s', q', tuple, hs', hq', by rw [htext.origin, horigin, htext'.origin, htext'.id],
    htext.fixed.trans hfixed, hgrown tuple happlied⟩

theorem Unannounced.later {i k c : Nat} (h : p.Unannounced i k c) (hl : p.Later p')
    (hcalls : ∀ j, p'.HasCalled i k j → p.HasCalled i k j) : p'.Unannounced i k c := by
  rcases h with ⟨s, hs, horigin⟩ | ⟨j, hcloned, hnot⟩
  · obtain ⟨s', hs', htext, -⟩ := hl.routines c s hs
    exact .inl ⟨s', hs', htext.origin.trans horigin⟩
  · exact .inr ⟨j, hcloned.later hl, fun hcall => hnot (hcalls j hcall)⟩

/-- The call at `k` in block `b` of routine `i` is bound to what it asks for among the first `n`
routines, and was given no notice of the others. -/
structure Aimed (p : Program) (i : Nat) (r : Routine) (b k : Nat) (name : String)
    (args : List (Expr Nat)) (n : Nat) (types : Tuple) : Prop where
  bound : r.BoundBy b k name args types ((p.setting (p.signatures.take n) b).bind name types)
  target : r.target? k = some ((p.setting (p.signatures.take n) b).bind name types)
  le : n ≤ p.size
  late : ∀ c, n ≤ c → c < p.size → p.Unannounced i k c

/-- The calls of block `b` of routine `i` are bound, among the first `n` routines at least. -/
def AimedAt (p : Program) (n : Nat) (i : Nat) (r : Routine) (b : Nat) : Prop :=
  ∀ k name args, .call k name args ∈ r.graph.exprsOf b →
    ∃ n' types, n ≤ n' ∧ p.Aimed i r b k name args n' types

theorem AimedAt.unmoved {n i b : Nat} {r r' : Routine} (h : p.AimedAt n i r b)
    (hp : p.resolver = .mostSpecific) (hl : p.Later p') (hunmoved : r.Unmoved r' b)
    (hcalls : ∀ k ∈ r.graph.tagsOf b, ∀ j, p'.HasCalled i k j → p.HasCalled i k j)
    (hnew : ∀ k ∈ r.graph.tagsOf b, ∀ c, p.size ≤ c → c < p'.size → p'.Unannounced i k c) :
    p'.AimedAt n i r' b := by
  intro k name args hcall
  rw [hunmoved.graph] at hcall
  have hk : k ∈ r.graph.tagsOf b := mem_map_of_mem (f := Expr.tag) hcall
  obtain ⟨n', types, hn, haimed⟩ := h k name args hcall
  have hbind := hl.bind_eq hp haimed.le b b name types
  refine ⟨n', types, hn, ?_, ?_, haimed.le.trans hl.size, fun c hc hlt => ?_⟩
  · rw [hbind]
    exact haimed.bound.unmoved hunmoved
  · rw [hbind, hunmoved.targets k hk]
    exact haimed.target
  · rcases Nat.lt_or_ge c p.size with hold | hge
    · exact (haimed.late c hc hold).later hl (hcalls k hk)
    · exact hnew k hk c hge hlt

end Program

/-! ### What moves do to bindings -/

/-- Blocks that have been reached, and are not pending, are bound. -/
def Mid.Aims (asOf : Nat → Nat) (m : Mid) : Prop :=
  ∀ (i : Nat) (r : Routine), m.program.routines[i]? = some r → ∀ b, (r.input? b).isSome = true →
    b ∉ r.pending.toList → m.program.AimedAt (asOf i) i r b

variable {m m' : Mid} {p p' : Program} {asOf : Nat → Nat}

theorem Mid.Aims.unmoved (h : m.Aims asOf) (m' : Mid) (hm : m.program.resolver = .mostSpecific)
    (hl : m.program.Later m'.program) (hsize : m'.program.size = m.program.size)
    (hcalls : m'.program.calls = m.program.calls)
    (hback : ∀ (i : Nat) (r' : Routine), m'.program.routines[i]? = some r' → ∀ b,
      (r'.input? b).isSome = true → b ∉ r'.pending.toList →
      ∃ r, m.program.routines[i]? = some r ∧ r.Unmoved r' b) : m'.Aims asOf := by
  intro i r' hr' b hb hidle
  obtain ⟨r, hr, hunmoved⟩ := hback i r' hr' b hb hidle
  have hreached : (r.input? b).isSome = true := by rw [← hunmoved.input]; exact hb
  refine (h i r hr b hreached hunmoved.idle).unmoved hm hl hunmoved (fun k _ j => ?_) fun k _ c hge hlt => ?_
  · unfold Program.HasCalled
    rw [hcalls]
    exact id
  · omega

theorem Mid.Aims.push {r : Routine} (h : (Mid.of p).Aims asOf) (hp : p.Kept)
    (hres : p.resolver = .mostSpecific) (hfresh : r.Fresh p.table p.size) (hr : p.Derived r)
    (hl : p.Later (p.push r)) : (Mid.of (p.push r)).Aims asOf := by
  intro i s hget b hb hidle
  rcases getElem?_push hget with hs | ⟨-, rfl⟩
  · have hnew : (p.push r).routines[p.size]? = some r := getElem?_concat_length
    refine (h i s hs b hb hidle).unmoved hres hl (.refl hidle) (fun _ _ _ hc => hc)
      fun k hk c hge hlt => ?_
    have hlt' : c < (p.push r).size := hlt
    rw [Program.size_push] at hlt'
    obtain rfl : c = p.size := Nat.le_antisymm (Nat.lt_succ_iff.1 hlt') hge
    rcases hr with ⟨horigin, -⟩ | ⟨j, q, tuple, hq, rfl, happlied, halerted⟩
    · exact .inl ⟨r, hnew, horigin⟩
    · refine .inr ⟨j, ⟨_, q, tuple, hnew, ?_, rfl, rfl, happlied⟩, ?_⟩
      · exact (getElem?_append_left (lt_of_getElem? hq)).trans hq
      · rintro ⟨e, he, hcaller, hcallee, hsite⟩
        obtain ⟨r1, hr1, -, htag⟩ := (hp.edges e he).caller
        rw [hcaller, hs] at hr1
        cases hr1
        have hblock : e.block = b := (hp.valid hs).graph.tagsOf_unique (hsite ▸ htag) hk
        exact hidle (hblock ▸ halerted e he hcallee s (hcaller ▸ hs) (hblock ▸ hb))
  · rw [hfresh.input?] at hb
    cases hb

section Walk

variable {sigs : List Signature} {reports : List (Nat × Tuple)} {i b : Nat}
  {r : Routine} {q : Agenda Nat} {w w' : Walker}

theorem aimedAt_walk (hm : Mid.Sound ⟨p, sigs, reports ++ w.reports.toList⟩)
    (hres : p.resolver = .mostSpecific) (hwalk : Walks (p.setting sigs b) w w')
    (hl : p.Later (p.after i w')) (hidle : b ∉ w'.routine.pending.toList) {n : Nat} (hn : n ≤ p.size) :
    (p.after i w').AimedAt n i w'.routine b := by
  have hadv := hwalk.advances
  have hsize : (p.after i w').size = p.size := length_set
  intro k name args hcall
  rw [hadv.graph] at hcall
  obtain ⟨t, ht, ⟨name', args', types, hcall', heq, hgiven, u, u', huid, hrun⟩, -⟩ :=
    hwalk.bound_of_call hcall
  obtain ⟨rfl, rfl⟩ : name' = name ∧ args' = args := by
    have := hwalk.before.routine.graph.expr_unique hcall' hcall rfl
    simpa using this
  have hid : w'.routine.id = w.routine.id := by rw [hadv.frame]
  have hbind : (p.setting sigs b).bind name' types =
      ((p.after i w').setting ((p.after i w').signatures.take p.size) b).bind name' types := by
    rw [hl.bind_eq hres (Nat.le_refl _) b b]
    exact Program.bind_sigs hm.toTidy hres b name' types
  have hinput : w.routine.input? b = w'.routine.input? b :=
    ((hadv.toGrows.changed b).resolve_right hidle).symm
  refine ⟨p.size, types, hn, ?_, ?_, hsize.ge, fun c hge hlt => ?_⟩
  · rw [← hbind]
    exact ⟨p.setting sigs b, w, w', rfl, hwalk.run, hid.symm, hadv.graph.symm, hinput,
      heq ▸ ht, rfl, hgiven, u, u', huid.trans hid.symm, hrun⟩
  · rw [← hbind]
    exact heq ▸ ht
  · exact absurd hlt (Nat.not_lt.2 (hsize ▸ hge))

theorem Mid.Aims.walk (h : Mid.Aims asOf ⟨p, sigs, reports ++ w.reports.toList⟩)
    (hm : Mid.Sound ⟨p, sigs, reports ++ w.reports.toList⟩) (hres : p.resolver = .mostSpecific)
    (hasOf : ∀ i, asOf i ≤ p.size) (hr : p.routines[i]? = some r)
    (hpop : r.pending.pop? = some (b, q)) (hcalls : w.calls = p.calls)
    (hroutine : w.routine = { r with status := .analyzing, pending := q })
    (hwalk : Walks (p.setting sigs b) w w') (hl : p.Later (p.after i w')) :
    Mid.Aims asOf ⟨p.after i w', sigs, reports ++ w'.reports.toList⟩ := by
  have hadv := hwalk.advances
  have hsize : (p.after i w').size = p.size := length_set
  have hid : w.routine.id = i := by
    rw [hroutine]
    exact hm.program.ids i r hr
  -- A walk makes edges only for the calls of its block.
  have hmade : ∀ j k c, (j ≠ i ∨ k ∉ r.graph.tagsOf b) → (p.after i w').HasCalled j k c →
      p.HasCalled j k c := by
    rintro j k c hother ⟨e, he, hcaller, hcallee, hsite⟩
    rcases hadv.made e he with ⟨d, hd, hkey⟩ | ⟨hcaller', -, hsite', -⟩
    · simp only [CallEdge.key, Prod.mk.injEq] at hkey
      obtain ⟨hk1, hk2, hk3, -⟩ := hkey
      exact ⟨d, hcalls ▸ hd, hk1.trans hcaller, hk2.trans hcallee, hk3.trans hsite⟩
    · rcases hother with hj | hk
      · exact absurd (hcaller.symm.trans (hcaller'.trans hid)) hj
      · refine absurd ?_ hk
        rw [← hsite]
        rw [hroutine] at hsite'
        exact hsite'
  have hnone : ∀ j k c, p.size ≤ c → c < (p.after i w').size → (p.after i w').Unannounced j k c :=
    fun _ _ c hge hlt => absurd hlt (Nat.not_lt.2 (hsize ▸ hge))
  intro j s hs b' hb' hidle
  rcases Program.of_put hr hs with ⟨rfl, rfl⟩ | ⟨hne, hs⟩
  · by_cases hblock : b' = b
    · subst hblock
      exact aimedAt_walk hm hres hwalk hl hidle (hasOf i)
    · have hinput : w'.routine.input? b' = r.input? b' := by
        rw [(hadv.toGrows.changed b').resolve_right hidle, hroutine]
        rfl
      have hgraph : w'.routine.graph = r.graph := by rw [hadv.graph, hroutine]
      have hsound : r.graph.Sound := (hm.program.valid hr).graph
      have hunmoved : r.Unmoved w'.routine b' := by
        refine ⟨by rw [hadv.frame, hroutine], hgraph, hinput, fun hmem => hidle ?_, fun k hk => ?_⟩
        · rw [(Agenda.pop?_spec hpop).1] at hmem
          refine hadv.pending b' ?_
          rw [hroutine]
          exact (mem_cons.1 hmem).resolve_left hblock
        · rcases hadv.targets k id with hsame | ⟨-, -, ⟨name, args, -, hcall, -⟩, -⟩
          · rw [hsame, hroutine]
            rfl
          · refine absurd (hsound.tagsOf_unique hk ?_) hblock
            have hcall' : Expr.call k name args ∈ w.routine.graph.exprsOf b := hcall
            rw [hroutine] at hcall'
            exact mem_map_of_mem (f := Expr.tag) hcall'
      refine (h i r hr b' (hinput ▸ hb') hunmoved.idle).unmoved hres hl hunmoved
        (fun k hk c => hmade i k c (.inr fun hk' => hblock (hsound.tagsOf_unique hk hk')))
        fun k _ => hnone i k
  · exact (h j s hs b' hb' hidle).unmoved hres hl (.refl hidle)
      (fun k _ c => hmade j k c (.inl (Ne.symm hne))) fun k _ => hnone j k

end Walk

/-- **Acts keep calls bound.** -/
theorem Act.aims (h : Act m m') (hm : m.Sound) (hres : m.program.resolver = .mostSpecific)
    (hasOf : ∀ i, asOf i ≤ m.program.size) (ha : m.Aims asOf) : m'.Aims asOf := by
  have hl := h.later hm.kept
  cases h with
  | change hc =>
    cases hc with
    | relabel | extend =>
      exact ha.unmoved _ hres hl rfl rfl fun i r hr b _ hidle => ⟨r, hr, .refl hidle⟩
    | tweak he =>
      refine ha.unmoved _ hres hl he.size (by rw [Mid.of, he.frame]; rfl) fun i r' hr' b _ hidle => ?_
      obtain ⟨r, hr, htweak⟩ := he.back hr'
      exact ⟨r, hr, htweak.unmoved (hm.program.valid hr) hm.program.table hidle⟩
    | push hfresh hr => exact ha.push hm.program.toKept hres hfresh hr hl
  | walk hr hpop _ hcalls hroutine hwalk =>
    exact ha.walk hm hres hasOf hr hpop hcalls hroutine hwalk hl
  | @report p p' sigs callee args reports hrun =>
    obtain ⟨r, r', hr, rfl, -, hgrows, hframe⟩ := hm.kept.grows hrun
    refine ha.unmoved ⟨p.put callee r', sigs, reports⟩ hres hl (Program.size_put ..) rfl
      fun i s hs b _ hidle => ?_
    rcases Program.of_put hr hs with ⟨rfl, rfl⟩ | ⟨-, hs⟩
    · exact ⟨r, hr, { hgrows.unmoved (by rw [hframe]) hidle with }⟩
    · exact ⟨s, hs, .refl hidle⟩
  | @notify p sigs _ =>
    have hpiles := Program.notify_piles sigs p
    refine ha.unmoved _ hres hl hpiles.size (by rw [Mid.of, hpiles.frame]) fun i r' hr' b _ hidle => ?_
    obtain ⟨r, hr, hpile⟩ := hpiles.back hr'
    exact ⟨r, hr, hpile.unmoved hidle⟩

/-- What is known of the bindings of a program, where `asOf i` routines have been looked at for
the calls of routine `i`. -/
structure Mid.Aiming (asOf : Nat → Nat) (m : Mid) : Prop where
  sound : m.Sound
  resolver : m.program.resolver = .mostSpecific
  within : ∀ i, asOf i ≤ m.program.size
  listed : m.program.Listed
  aims : m.Aims asOf

theorem Acts.aiming (h : Acts m m') (ha : m.Aiming asOf) : m'.Aiming asOf := by
  induction h with
  | refl => exact ha
  | tail _ hact ih =>
    have hl := hact.later ih.sound.kept
    exact ⟨hact.move.sound ih.sound, hl.resolver.trans ih.resolver,
      fun i => (ih.within i).trans hl.size, hact.listed ih.sound.kept ih.listed,
      hact.aims ih.sound ih.resolver ih.within ih.aims⟩

/-! ### Histories -/

/-- Every block that has been reached is pending. -/
def Routine.allDue (r : Routine) : Bool := r.reached.all fun b => r.pending.toList.contains b

namespace Program

/-- How many routines there were when all of routine `i` was last due, if a run begins now. -/
def lookedAt (p : Program) (asOf : Nat → Nat) (i : Nat) : Nat :=
  if p.routines[i]?.all Routine.allDue then p.size else asOf i

/-- A program as it comes about, all calls being bound to the most specific routine.  For the
calls of routine `i` the first `asOf i` routines have been looked at: those there were at the
beginning of the last run for which all blocks of `i` that had been reached were due. -/
abbrev Ledger : Program → (Nat → Nat) → Prop :=
  Recorded (fun plan => ∀ s ∈ plan.extra, s.Sound) (fun e => e ≠ .resolve ∧ e ≠ .fail)
    (fun e p _ asOf => if e matches .analyze then p.lookedAt asOf else asOf) fun _ => 0

theorem aiming_empty : (Mid.of .empty).Aiming fun _ => 0 where
  sound := Mid.sound_of sound_empty
  resolver := rfl
  within _ := Nat.zero_le _
  listed := listed_empty
  aims i r hr := by cases hr

theorem aiming_lookedAt (h : (Mid.of p).Aiming asOf) : (Mid.of p).Aiming (p.lookedAt asOf) := by
  refine { h with within := fun i => ?_, aims := fun i r hr b hb hidle => ?_ }
  · unfold lookedAt
    split
    · exact Nat.le_refl _
    · exact h.within i
  · have hnot : ¬ (p.routines[i]?.all Routine.allDue) = true := by
      intro hall
      have hr' : p.routines[i]? = some r := hr
      rw [hr', Option.all_some, Routine.allDue, all_eq_true] at hall
      exact hidle (by simpa using hall b (Routine.mem_reached.2 hb))
    rw [lookedAt, if_neg hnot]
    exact h.aims i r hr b hb hidle

theorem aiming_declare (h : (Mid.of p).Aiming asOf) (name : String) (members : List String) :
    (Mid.of (p.declareClass name members)).Aiming asOf where
  sound := Mid.sound_of ((Change.declare name members).sound h.sound.program)
  resolver := h.resolver
  within := h.within
  listed := { h.listed with }
  aims := h.aims.unmoved (.of (p.declareClass name members)) h.resolver
    ⟨Nat.le_refl _, rfl, fun _ => rfl, fun i r hr => ⟨r, hr, by constructor <;> rfl, fun _ hc => hc⟩⟩
    rfl rfl fun i r hr b _ hidle => ⟨r, hr, .refl hidle⟩

theorem aiming_forget (h : (Mid.of p).Aiming asOf) {id : Nat} {r : Routine}
    (hr : p.routines[id]? = some r) : (Mid.of (p.put id (p.forgotten id r))).Aiming asOf := by
  have hmove : Move (.of p) (.of (p.put id (p.forgotten id r))) := .change (.forget hr)
  have hforth := (hmove.evolves h.sound.kept).old
  have hl : p.Later (p.put id (p.forgotten id r)) := by
    refine ⟨(size_put ..).ge, rfl, fun _ => rfl, fun i s hs => ?_⟩
    obtain ⟨s', hs', hevolves⟩ := hforth i s hs
    exact ⟨s', hs', hevolves.text h.sound.kept hs, hevolves.applied h.sound.kept hs⟩
  refine ⟨hmove.sound h.sound, h.resolver, fun i => (h.within i).trans hl.size, ?_, ?_⟩
  · refine h.listed.same (fun _ => rfl) (fun i s' hs' => ?_) fun i s hs => ?_
    · have hlt : i < (p.put id (p.forgotten id r)).size := (lt_of_getElem? hs')
      rw [size_put] at hlt
      obtain ⟨s1, hs1, htext, -⟩ := hl.routines i _ (getElem?_eq_getElem hlt)
      obtain rfl := Option.mem_unique hs1 hs'
      exact ⟨_, getElem?_eq_getElem hlt, htext⟩
    · obtain ⟨s', hs', htext, -⟩ := hl.routines i s hs
      exact ⟨s', hs', htext⟩
  · refine h.aims.unmoved (.of (p.put id (p.forgotten id r))) h.resolver hl (size_put ..) rfl
      fun i s hs b hb hidle => ?_
    rcases of_put hr hs with ⟨-, rfl⟩ | ⟨-, hs⟩
    · rw [show (p.forgotten id r).input? b = none from
        Routine.input?_replicate (m := r.graph.size) rfl b] at hb
      cases hb
    · exact ⟨s, hs, .refl hidle⟩

theorem Ledger.aiming (h : p.Ledger asOf) : (Mid.of p).Aiming asOf := by
  induction h with
  | empty => exact aiming_empty
  | next _ hkind hop ih =>
    cases hop with
    | addRoutine hadd => exact (addRoutine_acts ih.sound.program.toKept hadd).aiming ih
    | declareClass name members => exact aiming_declare ih name members
    | setResolver => exact absurd rfl hkind.1
    | invalidate hrun =>
      obtain ⟨r, hr, hacts⟩ := invalidate_cases hrun
      exact hacts.aiming (aiming_forget ih hr)
    | requeue hrun => exact (requeue_acts hrun).aiming ih
    | analyze hextra hrun =>
      have hsound := ih.sound.program
      exact ((analyze_ok hsound hextra hrun).1.acts hsound).aiming (aiming_lookedAt ih)
    | fail => exact absurd rfl hkind.2

theorem Ledger.converged (h : p.Ledger asOf) {plan : Plan} (hextra : ∀ s ∈ plan.extra, s.Sound)
    {n : Nat} (hrun : p.analyze plan = .ok (.converged n) p') :
    (Mid.of p').Aiming (p.lookedAt asOf) ∧ ∀ (i b : Nat) (r : Routine), p'.routines[i]? = some r →
      (r.input? b).isSome = true → p'.AimedAt (p.lookedAt asOf i) i r b := by
  have haiming := Ledger.aiming (h.next (e := .analyze) ⟨nofun, nofun⟩ (.analyze hextra hrun))
  have hquiet := (analyze_ok h.aiming.sound.program hextra hrun).2 rfl
  refine ⟨haiming, fun i b r hr hb => haiming.aims i r hr b hb ?_⟩
  rw [hquiet r (List.mem_of_getElem? hr)]
  exact List.not_mem_nil

end Program

end ShapeFlow
