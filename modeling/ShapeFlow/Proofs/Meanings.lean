/-
# What evaluating an expression keeps

Whatever an expression is used for, going through it keeps the walker sane,
gives a set that the table knows, and leaves every call inside it bound: its
types cover what the routines it reaches return, as far as their signatures say.

Key definitions: `Fits`, `AllBound`, `Sound`.
Key theorems: `narrow_runs`, `call_runs`, `Expr.meaning_sound`.
-/
import ShapeFlow.Proofs.Clues
import ShapeFlow.Proofs.Walks

namespace ShapeFlow

open List TypeSet
open ShapeFlow.Expr (meaning)

/-! ### Adding calls -/

namespace CallGraph

theorem mem_unionArgs {x i : Nat} : ∀ {old new : List TypeSet},
    x ∈ (unionArgs old new).getD i .void ↔ x ∈ old.getD i .void ∨ x ∈ new.getD i .void
  | [], new => by simp [unionArgs]
  | o :: old, [] => by simp [unionArgs]
  | o :: old, n :: new => by
    cases i with
    | zero => simp [unionArgs]
    | succ i => simpa [unionArgs] using @mem_unionArgs x i old new

theorem knows_unionArgs {t : ShapeTable} : ∀ {old new : List TypeSet}, (∀ a ∈ old, t.Knows a) →
    (∀ a ∈ new, t.Knows a) → ∀ a ∈ unionArgs old new, t.Knows a
  | [], _, _, hnew => by simpa [unionArgs] using hnew
  | o :: old, [], hold, _ => by simpa [unionArgs] using hold
  | o :: old, n :: new, hold, hnew => by
    intro a ha
    rcases mem_cons.1 ha with rfl | ha
    · exact (hold o (.head _)).union (hnew n (.head _))
    · exact knows_unionArgs (fun a h => hold a (.tail _ h))
        (fun a h => hnew a (.tail _ h)) a ha

theorem mem_add {g : CallGraph} {e d : CallEdge} (h : d ∈ (g.add e).2.edges) :
    d ∈ g.edges ∨ d = e ∨ ∃ o ∈ g.edges, o.link = e.link ∧ d = o.take e := by
  rcases g.add_cases e with ⟨-, -, hadd⟩ | ⟨l1, o, l2, hg, hlink, -, hadd⟩
  · rw [hadd, mem_append, mem_singleton] at h
    exact h.imp_right .inl
  · simp only [hadd, hg, mem_append, mem_cons] at h ⊢
    rcases h with h | rfl | h
    · exact .inl (.inl h)
    · exact .inr (.inr ⟨o, .inr (.inl rfl), hlink, rfl⟩)
    · exact .inl (.inr (.inr h))

theorem key_of_mem {g : CallGraph} {e d : CallEdge} (h : d ∈ g.edges) :
    ∃ d' ∈ (g.add e).2.edges, d'.key = d.key := by
  rcases g.add_cases e with ⟨-, -, hadd⟩ | ⟨l1, o, l2, hg, -, -, hadd⟩
  · exact ⟨d, hadd ▸ mem_append_left _ h, rfl⟩
  · simp only [hadd, hg, mem_append, mem_cons] at h ⊢
    rcases h with h | rfl | h
    · exact ⟨d, .inl h, rfl⟩
    · exact ⟨_, .inr (.inl rfl), rfl⟩
    · exact ⟨d, .inr (.inr h), rfl⟩

theorem exists_add (g : CallGraph) (e : CallEdge) : ∃ d ∈ (g.add e).2.edges, d.link = e.link := by
  rcases g.add_cases e with ⟨-, -, hadd⟩ | ⟨l1, o, l2, -, hlink, -, hadd⟩
  · exact ⟨e, by simp [hadd], rfl⟩
  · exact ⟨o.take e, by simp [hadd], hlink⟩

end CallGraph

namespace Infer

open ShapeFlow.Flow

variable {g : Place} {w w' : Walker} {e l r : Expr Nat} {args : List (Expr Nat)} {k var : Nat}
  {name : String} {step : Walk TypeSet} {β : Type} {types : Tuple} {s : TypeSet} {t : ShapeTable}

/-! ### Conditions -/

/-- The expressions inside `e` belong to the block, and their variables to the routine. -/
def Fits (g : Place) (e : Expr Nat) : Prop := ∀ x ∈ e.walk,
  g.tags x.tag ∧ Named g x ∧ ∀ k name args, x = .call k name args → g.calls k name args

theorem Fits.operand {x : Expr Nat} (h : Fits g e) (hx : x ∈ e.operands) : Fits g x :=
  fun y hy => h y (Expr.mem_walk_of_operand hx hy)

theorem Fits.tag (h : Fits g e) : g.tags e.tag := (h e e.mem_walk_self).1

theorem Fits.named (h : Fits g e) : Named g e := (h e e.mem_walk_self).2.1

theorem Fits.call (h : Fits g (.call k name args)) : g.calls k name args :=
  (h _ (Expr.mem_walk_self _)).2.2 k name args rfl

theorem withVar_runs (hw : Sane g w) (he : Named g e) {f : Option Nat → Walk Unit}
    (hnone : f none = pure ())
    (hsome : ∀ var < g.vars, ∀ w', Sane g w' → Runs g (f (some var)) w' fun _ _ => True) :
    Runs g (varOf? e >>= f) w fun _ _ => True := by
  refine (varOf?_runs hw he).bind fun o w' hw' _ ho => ?_
  cases o with
  | none =>
    rw [hnone]
    exact .pure hw' trivial
  | some var => exact hsome var (ho.1 var rfl) w' hw'

theorem learn_runs (hw : Sane g w) (he : Named g e) (clue : Clue) :
    Runs g (learn e clue) w fun _ _ => True := by
  cases clue with
  | test q outcome =>
    refine withVar_runs hw he rfl fun var hvar w' hw' => .ofTable ?_
    exact modifyState_runs hw' (Test.fits_change hw'.fits hvar q outcome)
      (Test.known_change hw'.table hw'.known q outcome)
  | isA className =>
    refine withVar_runs hw he rfl fun var hvar w' hw' => ?_
    refine (intern_runs hw' (ShapeTable.named_spec hw'.table _)).bind fun s w'' hw'' _ hs => ?_
    exact modifyState_runs hw'' (hw''.fits.assign hvar _) (hw''.known.assign hs var)
  | limit limit other =>
    have hnote : ∀ known, Runs g (noteLimit limit known e) w fun _ _ => True := fun known => by
      cases known
      · exact .pure hw trivial
      · exact withVar_runs hw he rfl fun var hvar w' hw' =>
          modifyState_runs hw' (hw'.fits.addNote hvar) hw'.known
    exact hnote _

theorem narrow_runs (hw : Sane g w) (he : Fits g e) (outcome : Bool) :
    Runs g (narrow e outcome) w fun _ _ => True := by
  rw [narrow_eq]
  refine (Runs.forM (P := fun _ _ => True) hw (fun _ _ _ _ _ _ => trivial)
    fun p hp w' hw' => learn_runs hw' ?_ p.2).mono fun _ _ _ _ _ => trivial
  rcases Expr.mem_clues hp with heq | hop
  · exact heq ▸ he.named
  · exact (he.operand hop).named

theorem narrowTo_runs (hw : Sane g w) (he : Fits g e) (b : Branch) :
    Runs g (narrowTo e b) w fun _ _ => True := by
  cases b
  · exact .pure hw trivial
  · exact narrow_runs hw he true
  · exact narrow_runs hw he false

/-! ### Calls -/

/-- The place while the call at `k` is being bound. -/
def Place.binding (g : Place) (k : Nat) : Place := { g with due := fun j => g.due j ∨ j = k }

theorem Sane.binding (h : Sane g w) (k : Nat) : Sane (g.binding k) w := { h with }

theorem Sane.ofBinding (h : Sane (g.binding k) w) : Sane g w := { h with }

theorem Learns.binding (h : Learns g w w') (k : Nat) : Learns (g.binding k) w w' :=
  { h with targets := fun j hj => h.targets j fun hd => hj (.inl hd) }

theorem Learns.ofBinding (h : Learns (g.binding k) w w') (hk : Bound g w' k) : Learns g w w' :=
  { h with
    targets := fun j hj => by
      by_cases hjk : j = k
      · exact .inr (hjk ▸ hk)
      · exact h.targets j fun hd => hd.elim hj hjk }

theorem Runs.binding {m : Walk β} {R : β → Walker → Prop} (h : Runs g m w R) (k : Nat) :
    Runs (g.binding k) m w R :=
  Ends.mono h (fun _ _ hb => ⟨hb.1.binding k, hb.2.1.binding k, hb.2.2⟩)
    fun _ _ he => ⟨he.1, he.2.1, he.2.2.1.binding k, he.2.2.2⟩

/-- The walker with one more call. -/
def withCall (w : Walker) (e : CallEdge) : Walker :=
  { w with calls := (w.calls.add e).2, reports := w.reports.push (e.callee, e.argTypes) }

theorem Sane.withCall (hw : Sane g w) {e : CallEdge} (hcallee : e.callee < g.routines)
    (htypes : ∀ a ∈ e.argTypes, w.table.Knows a) : Sane g (withCall w e) :=
  { hw with
    edges := fun d hd => by
      rcases CallGraph.mem_add hd with hd | rfl | ⟨o, ho, -, rfl⟩
      · exact hw.edges d hd
      · exact htypes
      · exact CallGraph.knows_unionArgs (hw.edges o ho) htypes
    reports := fun r hr => by
      rcases Array.mem_push.1 hr with hr | rfl
      · exact hw.reports r hr
      · exact ⟨hcallee, htypes⟩ }

theorem learns_withCall {e : CallEdge} (hcaller : e.caller = g.routine)
    (hcallee : e.callee < g.routines) (hsite : g.tags e.site) (hblock : e.block = g.setting.block) :
    Learns g w (withCall w e) :=
  { Learns.refl g w with
    targets := fun _ _ => .inl rfl
    kept := fun d hd => CallGraph.key_of_mem hd
    made := fun d hd => by
      rcases CallGraph.mem_add hd with hd | rfl | ⟨o, ho, -, rfl⟩
      · exact .inl ⟨d, hd, rfl⟩
      · exact .inr ⟨hcaller, hcallee, hsite, hblock⟩
      · exact .inl ⟨o, ho, rfl⟩
    evidence := fun d hd i x hx => by
      have hlast : (e.callee, e.argTypes) ∈ (withCall w e).reports := Array.mem_push_self
      rcases CallGraph.mem_add hd with hd | rfl | ⟨o, ho, hsame, rfl⟩
      · exact .inl ⟨d, hd, rfl, hx⟩
      · exact .inr ⟨_, hlast, rfl, hx⟩
      · rcases CallGraph.mem_unionArgs.1 hx with hx | hx
        · exact .inl ⟨o, ho, rfl, hx⟩
        · exact .inr ⟨_, hlast, (congrArg (·.2.1) hsame).symm, hx⟩
    reports := fun r hr => Array.mem_push.2 (.inl hr) }

/-- The edge of a call from `k` to `c`. -/
def HasEdge (g : Place) (w : Walker) (k c : Nat) : Prop :=
  ∃ e ∈ w.calls.edges, e.caller = g.routine ∧ e.callee = c ∧ e.site = k

theorem byRef_runs (hw : Sane g w) (hargs : ∀ a ∈ args, Named g a) (sig : Signature) :
    Runs g (args.zipIdx.forM fun (arg, i) => do
      if sig.isByRef i then
        if let some var ← varOf? arg then
          markAliased var
          modifyState (·.assign var .any)) w fun _ _ => True := by
  refine (Runs.forM (P := fun _ _ => True) hw (fun _ _ _ _ _ _ => trivial)
    fun p hp w' hw' => ?_).mono fun _ _ _ _ _ => trivial
  have harg : Named g p.1 := hargs p.1 (fst_mem_of_mem_zipIdx hp)
  obtain ⟨arg, i⟩ := p
  simp only
  split
  · refine withVar_runs hw' harg rfl fun var hvar w1 hw1 => ?_
    refine (markAliased_runs hw1 hvar).bind fun _ w2 hw2 _ _ => ?_
    exact modifyState_runs hw2 (hw2.fits.assign hvar _) (hw2.known.assign ShapeTable.knows_any var)
  · exact .pure hw' trivial

theorem callOne_runs (hw : Sane g w) (hk : g.tags k) (hargs : ∀ a ∈ args, Named g a)
    (htypes : ∀ a ∈ types, w.table.Knows a) {callee : Nat}
    (hcallee : g.setting.resolver.Within g.routines → callee < g.routines) (name : String) :
    Runs g (callOne g.setting k name args types callee) w fun s w' =>
      w'.table.Knows s ∧ callee < g.routines ∧ HasEdge g w' k callee ∧
        ∃ sig, g.setting.signatures[callee]? = some sig ∧ s = sig.returns := by
  unfold callOne
  rcases hsig : g.setting.signatures[callee]? with _ | sig
  · have hge : g.routines ≤ callee := getElem?_eq_none_iff.1 hsig
    refine ⟨fun hwithin => ?_, ⟨name, callee, rfl⟩, hw, .refl _ w⟩
    have := hcallee hwithin
    omega
  · have hlt : callee < g.routines := (lt_of_getElem? hsig)
    have hknown := (hw.sigs callee sig hsig).2
    have hedge : Runs g (modify fun w : Walker => withCall w
        { caller := w.routine.id, callee, site := k, block := g.setting.block,
          argExprs := args.map Expr.tag, argTypes := types }) w
        fun _ w' => HasEdge g w' k callee := by
      refine ⟨hw.withCall hlt htypes, learns_withCall hw.id hlt hk rfl, ?_⟩
      obtain ⟨e, he, hlink⟩ := w.calls.exists_add
        { caller := w.routine.id, callee, site := k, block := g.setting.block,
          argExprs := args.map Expr.tag, argTypes := types }
      obtain ⟨hcaller, hcallee', hsite⟩ := by simpa [CallEdge.link] using hlink
      exact ⟨e, he, hcaller.trans hw.id, hcallee', hsite⟩
    refine hedge.bind fun _ w1 hw1 hl1 he1 => ?_
    refine (byRef_runs hw1 hargs sig).bind fun _ w2 hw2 hl2 _ => ?_
    refine .pure hw2 ⟨hknown.mono (hl1.table.trans hl2.table), hlt, hl2.edge he1, sig, rfl, rfl⟩

/-- Every call inside `e` is bound. -/
def AllBound (g : Place) (w : Walker) (e : Expr Nat) : Prop :=
  ∀ x ∈ e.walk, ∀ k name args, x = .call k name args → Bound g w k

/-- What evaluating `e` gives: a known set, with all calls bound. -/
def ValueOf (g : Place) (e : Expr Nat) (s : TypeSet) (w : Walker) : Prop :=
  w.table.Knows s ∧ AllBound g w e

/-- Whatever `e` is used for, the walk runs and leaves its calls bound. -/
structure Sound (g : Place) (e : Expr Nat) : Prop where
  value : ∀ w, Sane g w → Runs g (e.meaning g.setting).value w (ValueOf g e)
  quiet : ∀ w, Sane g w → Runs g (e.meaning g.setting).quiet w (ValueOf g e)
  assume : ∀ b w, Sane g w → Runs g ((e.meaning g.setting).assume b) w (ValueOf g e)
  store : ∀ s w, Sane g w → w.table.Knows s →
    Runs g ((e.meaning g.setting).store s) w fun _ w' => AllBound g w' e

/-- No call is being bound. -/
abbrev Place.Free (g : Place) : Prop := ∀ k, ¬ g.due k

theorem AllBound.mono (hfree : g.Free) (h : AllBound g w e) (hl : Learns g w w') : AllBound g w' e :=
  fun x hx k name args hcall => hl.bound (hfree k) (h x hx k name args hcall)

/-- The calls inside an expression that is no call are those inside its operands. -/
theorem allBound_of_operands (hcall : ∀ k name args, e ≠ .call k name args)
    (h : ∀ x ∈ e.operands, AllBound g w x) : AllBound g w e := by
  intro x hx k name args hxc
  rcases Expr.mem_walk.1 hx with rfl | ⟨y, hy, hxy⟩
  · exact absurd hxc (hcall k name args)
  · exact h y hy x hxy k name args hxc

theorem value_eq_recorded (c : Setting) (e : Expr Nat) :
    ∃ step, (e.meaning c).value = recorded e.tag step := by
  unfold meaning
  split <;> exact ⟨_, rfl⟩

theorem quiet_eq_recorded (c : Setting) (e : Expr Nat) :
    ∃ step, (e.meaning c).quiet = recorded e.tag step := by
  unfold meaning
  split <;> exact ⟨_, rfl⟩

theorem le_of_recorded (h : recorded k step w = .ok s w') :
    s ≤ w'.routine.exprTypes k := by
  obtain ⟨a, w1, -, h⟩ := ok_of_bind h
  obtain ⟨_, w2, hrec, hpure⟩ := ok_of_bind h
  cases hpure
  obtain ⟨hk, rfl⟩ := of_record hrec
  exact le_exprTypes_record hk s

theorem Runs.given {m : Walk TypeSet} (hm : ∃ step, m = recorded e.tag step)
    (h : Runs g m w (ValueOf g e)) :
    Runs g (do let s ← m; return s.plain) w fun s w' =>
      w'.table.Knows s ∧ s ≤ w'.routine.exprTypes e.tag ∧ AllBound g w' e := by
  obtain ⟨step, rfl⟩ := hm
  refine h.and_run.bind fun s w' hw' _ hs => .pure hw' ?_
  have hle := le_of_recorded hs.2
  exact ⟨hs.1.1.plain, le_trans (plain_le s) hle, hs.1.2⟩

theorem mapM_runs {P : β → TypeSet → Walker → Prop} {f : β → Walk TypeSet} :
    ∀ {l : List β} {w : Walker}, Sane g w →
      (∀ x ∈ l, ∀ s w1 w2, Learns g w1 w2 → P x s w1 → P x s w2) →
      (∀ x ∈ l, ∀ w', Sane g w' → Runs g (f x) w' (P x)) →
      Runs g (l.mapM f) w fun ss w' => List.Forall₂ (P · · w') l ss
  | [], w, hw, _, _ => by
    rw [mapM_nil]
    exact .pure hw .nil
  | x :: l, w, hw, hP, hf => by
    rw [mapM_cons]
    refine (hf x (.head _) w hw).bind fun s w1 hw1 hl1 hs => ?_
    refine (mapM_runs hw1 (fun y hy => hP y (.tail _ hy))
      fun y hy => hf y (.tail _ hy)).bind fun ss w2 hw2 hl2 hss => ?_
    exact .pure hw2 (hss.cons (hP x (.head _) s w1 w2 hl2 hs))

/-- What finding the types of the arguments leaves behind. -/
structure Passed (g : Place) (name : String) (args : List (Expr Nat)) (types : Tuple) (w : Walker) :
    Prop where
  known : ∀ s ∈ types, w.table.Knows s
  allBound : ∀ a ∈ args, AllBound g w a
  given : ArgsHave w.routine args types
  found : ∃ u u', u.routine.id = g.routine ∧ argTypes g.setting name args u = .ok types u'

theorem argTypes_eq (c : Setting) (name : String) (args : List (Expr Nat)) :
    argTypes c name args = args.zipIdx.mapM fun (a, i) => do
      let s ← if ((c.directory.candidates name).filterMap (c.signatures[·]?)).any (·.isByRef i)
        then (a.meaning c).quiet else (a.meaning c).value
      return s.plain := by
  rw [argTypes, Expr.meanings_eq, zipIdx_map]
  generalize args.zipIdx = l
  induction l with
  | nil => rfl
  | cons p l ih => rw [map_cons, mapM_cons, mapM_cons, ih]; rfl

theorem argTypes_runs (hfree : g.Free) (hw : Sane g w) (name : String)
    (hargs : ∀ a ∈ args, Sound g a) :
    Runs g (argTypes g.setting name args) w (Passed g name args) := by
  have hall : Runs g (argTypes g.setting name args) w fun types w' => List.Forall₂
      (fun p s => w'.table.Knows s ∧ s ≤ w'.routine.exprTypes p.1.tag ∧ AllBound g w' p.1)
      args.zipIdx types := by
    rw [argTypes_eq]
    refine mapM_runs hw (fun p _ s w1 w2 hl h => ?_) fun p hp w' hw' => ?_
    · exact ⟨h.1.mono hl.table, le_trans h.2.1 (hl.types p.1.tag), h.2.2.mono hfree hl⟩
    · have hp := fst_mem_of_mem_zipIdx hp
      obtain ⟨a, i⟩ := p
      simp only
      split
      · exact Runs.given (quiet_eq_recorded _ a) ((hargs a hp).quiet w' hw')
      · exact Runs.given (value_eq_recorded _ a) ((hargs a hp).value w' hw')
  refine hall.and_run.mono fun types w' _ _ h => ?_
  obtain ⟨hpairs, hrun⟩ := h
  have hpairs := forall₂_iff_get.1 hpairs
  refine ⟨fun s hs => ?_, fun a ha => ?_, ?_, w, w', hw.id, hrun⟩
  · obtain ⟨i, hi, rfl⟩ := getElem_of_mem hs
    exact (hpairs.2 i (hpairs.1 ▸ hi) hi).1
  · obtain ⟨i, hi, rfl⟩ := getElem_of_mem ha
    have hlt : i < args.zipIdx.length := by simpa using hi
    simpa using (hpairs.2 i hlt (hpairs.1 ▸ hlt)).2.2
  · refine forall₂_iff_get.2 ⟨by simpa using hpairs.1, fun i hi hi' => ?_⟩
    have hlt : i < args.zipIdx.length := by simpa using hi
    have hle := (hpairs.2 i hlt hi').2.1
    simp only [get_eq_getElem, getElem_zipIdx] at hle
    exact subset_iff.2 hle.1

/-- The call at `k` has the target its arguments ask for, whose edges are there, and `s` covers
what it returns. -/
def Linked (g : Place) (w : Walker) (k : Nat) (s : TypeSet) : Prop :=
  ∃ t, w.routine.target? k = some t ∧ Asked g w.routine k t ∧
    ∀ c ∈ t.callees, HasEdge g w k c ∧
      ∃ sig, g.setting.signatures[c]? = some sig ∧ sig.returns ⊆ s

/-- What a call leaves behind before its types are recorded. -/
structure Called (g : Place) (k : Nat) (args : List (Expr Nat)) (s : TypeSet) (w : Walker) :
    Prop where
  known : w.table.Knows s
  linked : Bound g w k ∨ Linked g w k s
  args : ∀ a ∈ args, ∀ x ∈ a.walk, ∀ j name as, x = .call j name as → j = k ∨ Bound g w j

theorem Called.mono (hfree : g.Free) (h : Called g k args s w) (hl : Learns g w w') :
    Called g k args s w' where
  known := h.known.mono hl.table
  linked := by
    rcases h.linked with hb | ⟨t, ht, hasked, hall⟩
    · exact .inl (hl.bound (hfree k) hb)
    · rcases hl.targets k (hfree k) with hsame | hb
      · refine .inr ⟨t, hsame.trans ht, hasked.mono hl.types, fun c hc => ?_⟩
        exact ⟨hl.edge (hall c hc).1, (hall c hc).2⟩
      · exact .inl hb
  args a ha x hx j name as hcall :=
    (h.args a ha x hx j name as hcall).imp_right (hl.bound (hfree j))

theorem recorded_call_runs (hk : g.tags k) (h : Runs (g.binding k) step w (Called g k args)) :
    Runs g (recorded k step) w (ValueOf g (.call k name args)) := by
  have hrec : Runs (g.binding k) (recorded k step) w fun s w' =>
      w'.table.Knows s ∧ Bound g w' k ∧ AllBound g w' (.call k name args) := by
    refine h.bind fun s w1 hw1 _ hcalled => ?_
    refine (record_runs (g := g.binding k) hw1 hk hcalled.known).bind fun _ w2 hw2 hl2 hrec => ?_
    obtain ⟨rfl, hle⟩ := hrec
    have htarget : ∀ j, (withFact w1 k fun x => { x with types := x.types ∪ s }).routine.target? j =
        w1.routine.target? j := fun j => target?_withFact k j _ fun _ => rfl
    have hstay : ∀ j, Bound g w1 j →
        Bound g (withFact w1 k fun x => { x with types := x.types ∪ s }) j := by
      rintro j ⟨t, ht, hasked, hall⟩
      refine ⟨t, (htarget j).trans ht, hasked.mono hl2.types, fun c hc => ?_⟩
      obtain ⟨sig, hsig, hret, he⟩ := hall c hc
      refine ⟨sig, hsig, subset_iff.2 fun i hi => ?_, he⟩
      exact (hl2.types j).1 i (subset_iff.1 hret i hi)
    have hbound : Bound g (withFact w1 k fun x => { x with types := x.types ∪ s }) k := by
      rcases hcalled.linked with hb | ⟨t, ht, hasked, hall⟩
      · exact hstay k hb
      · refine ⟨t, (htarget k).trans ht, hasked.mono hl2.types, fun c hc => ?_⟩
        obtain ⟨he, sig, hsig, hret⟩ := hall c hc
        refine ⟨sig, hsig, subset_iff.2 fun i hi => ?_, he⟩
        exact hle.1 i (subset_iff.1 hret i hi)
    refine .pure hw2 ⟨hcalled.known, hbound, fun x hx j name' as hcall => ?_⟩
    rcases Expr.mem_walk.1 hx with rfl | ⟨a, ha, hxa⟩
    · cases hcall
      exact hbound
    · rcases hcalled.args a ha x hxa j name' as hcall with rfl | hb
      · exact hbound
      · exact hstay j hb
  refine Ends.mono hrec (fun s w' hb => ?_) fun f w' he => ?_
  · exact ⟨hb.1.ofBinding, hb.2.1.ofBinding hb.2.2.2.1, hb.2.2.1, hb.2.2.2.2⟩
  · exact ⟨he.1, he.2.1, he.2.2.1.ofBinding, he.2.2.2⟩

theorem calls_runs (hk : g.tags k) (hargs : ∀ a ∈ args, Named g a) (name : String) :
    ∀ (callees : List Nat) (acc : TypeSet) (w : Walker), Sane g w →
      (∀ c ∈ callees, g.setting.resolver.Within g.routines → c < g.routines) →
      (∀ a ∈ types, w.table.Knows a) → w.table.Knows acc →
      Runs g (callees.foldlM
        (fun s callee => return s ∪ (← callOne g.setting k name args types callee)) acc) w
        fun s w' => w'.table.Knows s ∧ acc ≤ s ∧ ∀ c ∈ callees, c < g.routines ∧
          HasEdge g w' k c ∧ ∃ sig, g.setting.signatures[c]? = some sig ∧ sig.returns ⊆ s
  | [], acc, w, hw, _, _, hacc => by
    rw [foldlM_nil]
    exact .pure hw ⟨hacc, le_refl _, by simp⟩
  | c :: callees, acc, w, hw, hwithin, htypes, hacc => by
    rw [foldlM_cons]
    have hstep : Runs g (do return acc ∪ (← callOne g.setting k name args types c)) w fun s w' =>
        w'.table.Knows s ∧ acc ≤ s ∧ c < g.routines ∧ HasEdge g w' k c ∧
          ∃ sig, g.setting.signatures[c]? = some sig ∧ sig.returns ⊆ s := by
      refine (callOne_runs hw hk hargs htypes (hwithin c (.head _)) name).bind
        fun r w1 hw1 hl1 hr => ?_
      obtain ⟨hknown, hlt, hedge, sig, hsig, rfl⟩ := hr
      refine .pure hw1 ⟨(hacc.mono hl1.table).union hknown, le_union_left _ _, hlt,
        hedge, sig, hsig, subset_of_le (le_union_right _ _)⟩
    refine hstep.bind fun s w1 hw1 hl1 hs => ?_
    obtain ⟨hknown, hle, hlt, hedge, sig, hsig, hret⟩ := hs
    refine (calls_runs hk hargs name callees s w1 hw1
      (fun d hd => hwithin d (.tail _ hd))
      (fun a ha => (htypes a ha).mono hl1.table) hknown).mono fun s' w2 _ hl2 hs' => ?_
    refine ⟨hs'.1, le_trans hle hs'.2.1, fun d hd => ?_⟩
    rcases mem_cons.1 hd with rfl | hd
    · refine ⟨hlt, hl2.edge hedge, sig, hsig, subset_iff.2 fun i hi => ?_⟩
      exact hs'.2.1.1 i (subset_iff.1 hret i hi)
    · exact hs'.2.2 d hd

theorem bindCall_runs (hw : Sane g w) (hk : g.tags k) {target : Target}
    (htarget : ∀ c ∈ target.callees, c < g.routines) :
    Runs (g.binding k) (bindCall k target) w fun _ w' =>
      w'.routine.target? k = some target ∧ w'.calls = w.calls ∧
        ∀ j, j ≠ k → Bound g w j → Bound g w' j := by
  have hother : ∀ j, j ≠ k →
      (withFact w k fun x => { x with target := some target }).routine.facts[j]? =
        w.routine.facts[j]? := fun j hj => by rw [facts_withFact, if_neg (Ne.symm hj)]
  have hnotes : Learns (g.binding k) w (withFact w k fun x => { x with target := some target }) := by
    refine notes_withFact (g := g.binding k) hk (fun x => le_refl _) fun j hj => ?_
    have hne : j ≠ k := fun h => hj (.inr h)
    rw [Routine.target?, hother j hne, Routine.target?]
  refine ⟨(hw.binding k).withFact fun x hx => ?_, hnotes, ?_, rfl, fun j hj hb => ?_⟩
  · refine { hx with target := fun t ht => ?_ }
    cases ht
    exact htarget
  · show (withFact w k _).routine.target? k = _
    rw [Routine.target?, facts_withFact, if_pos rfl, Array.getElem?_eq_getElem (hw.tags k hk)]
    rfl
  · obtain ⟨t, ht, hasked, hall⟩ := hb
    refine ⟨t, ?_, hasked.mono hnotes.types, fun c hc => ?_⟩
    · show (withFact w k _).routine.target? j = _
      rw [Routine.target?, hother j hj]
      exact ht
    · obtain ⟨sig, hsig, hret, he⟩ := hall c hc
      refine ⟨sig, hsig, ?_, he⟩
      show _ ⊆ (withFact w k _).routine.exprTypes j
      rw [Routine.exprTypes, hother j hj]
      exact hret

theorem knows_library (ht : t.Valid) {f : LibraryFunction} (hf : Library.find? name = some f) :
    t.Knows f.returns := by
  have hall : (Library.all.all fun p =>
      p.2.returns == .any || p.2.returns.members.all (· < 10)) = true := by decide
  obtain ⟨l1, l2, hl, -⟩ := lookup_eq_some_iff.1 hf
  have hmem : (name.toLower, f) ∈ Library.all := hl ▸ mem_append_right _ (.head _)
  have hp := all_eq_true.1 hall _ hmem
  rcases Bool.or_eq_true_iff.1 hp with hp | hp
  · rw [beq_iff_eq.1 hp]
    exact ShapeTable.knows_any
  · refine .inr fun i hi => ?_
    have := all_eq_true.1 hp i (mem_members.2 hi)
    have := ht.ten_le
    simp at *
    omega

theorem call_eq (c : Setting) (k : Nat) (name : String) (args : List (Expr Nat)) :
    call c k name args (Expr.meanings c args) = argTypes c name args >>= fun types =>
      if ((c.directory.candidates name).filterMap (c.signatures[·]?)).isEmpty then
        match Library.find? name with
        | some f => do
          if f.dynamic then addFlags { dynamicCall := true }
          bindCall k (c.bind name types)
          return f.returns
        | none => do
          bindCall k (c.bind name types)
          return .any
      else do
        let start := if (c.bind name types).callees.isEmpty then TypeSet.any else .void
        let s ← (c.bind name types).callees.foldlM
          (fun s callee => return s ∪ (← callOne c k name args types callee)) start
        bindCall k (c.bind name types)
        return s := by
  unfold call argTypes Setting.bind
  refine bind_congr fun types => ?_
  split
  next hcands => rcases hf : Library.find? name with _ | f <;> simp [hcands]
  next hcands => simp [hcands]

theorem call_runs (hfree : g.Free) (hw : Sane g w) (he : Fits g (.call k name args))
    (hargs : ∀ a ∈ args, Sound g a) :
    Runs (g.binding k) (call g.setting k name args (Expr.meanings g.setting args)) w
      (Called g k args) := by
  have hk := he.tag
  -- binding the call settles it, given what its target returns
  have hbind : ∀ {w1 w2 : Walker} {types : Tuple} {s : TypeSet}, Passed g name args types w1 →
      Sane g w2 → Learns g w1 w2 → w2.table.Knows s →
      (∀ c ∈ (g.setting.bind name types).callees, c < g.routines ∧ HasEdge g w2 k c ∧
        ∃ sig, g.setting.signatures[c]? = some sig ∧ sig.returns ⊆ s) →
      Runs (g.binding k) (do bindCall k (g.setting.bind name types); return s) w2
        (Called g k args) := by
    intro w1 w2 types s hpass hw2 hl hs hcallees
    refine (bindCall_runs hw2 hk fun c hc => (hcallees c hc).1).bind fun _ w3 hw3 hl3 hb => ?_
    obtain ⟨htarget, hcalls, hstay⟩ := hb
    have hasked : Asked g w3.routine k (g.setting.bind name types) :=
      ⟨name, args, types, he.call, rfl, hpass.given.mono fun j => TypeSet.le_trans (hl.types j) (hl3.types j),
        hpass.found⟩
    refine .pure hw3 ⟨hs.mono hl3.table, .inr ⟨_, htarget, hasked, fun c hc => ?_⟩, ?_⟩
    · obtain ⟨-, hedge, hsig⟩ := hcallees c hc
      exact ⟨hl3.edge hedge, hsig⟩
    · intro a ha x hx j name' as hcall
      by_cases hj : j = k
      · exact .inl hj
      · exact .inr (hstay j hj ((hpass.allBound a ha).mono hfree hl x hx j name' as hcall))
  rw [call_eq]
  refine ((argTypes_runs hfree hw name hargs).binding k).bind
    fun types w1 hw1 _ hpass => ?_
  have hw1 := hw1.ofBinding
  split
  next hcands =>
    have hnone : (g.setting.bind name types).callees = [] := by
      rw [Setting.bind, if_pos hcands]
      split <;> rfl
    split
    next f hf =>
      have hf := knows_library hw1.table hf
      split
      · refine ((addFlags_runs hw1 _).mono fun _ _ _ hl _ => hl).binding k |>.bind
          fun _ w2 hw2 _ hl => ?_
        exact hbind hpass hw2.ofBinding hl (hf.mono hl.table) (by simp [hnone])
      · exact hbind hpass hw1 (.refl g w1) hf (by simp [hnone])
    next => exact hbind hpass hw1 (.refl g w1) ShapeTable.knows_any (by simp [hnone])
  next hcands =>
    have hwithin : ∀ c ∈ (g.setting.bind name types).callees,
        g.setting.resolver.Within g.routines → c < g.routines := by
      intro c hc hwithin
      rw [Setting.bind, if_neg hcands] at hc
      refine hwithin _ _ (by simpa using hcands) (fun s hs => ?_) c hc
      obtain ⟨i, -, hi⟩ := mem_filterMap.1 hs
      rw [(hw1.sigs i s hi).1]
      exact (lt_of_getElem? hi)
    have hstart : w1.table.Knows (if (g.setting.bind name types).callees.isEmpty then any
        else .void) := ShapeTable.knows_any.ite ShapeTable.knows_void
    refine ((calls_runs hk (fun a ha => (he.operand ha).named) name _ _ w1 hw1 hwithin hpass.known
      hstart).mono fun s w' _ hl hs => And.intro hl hs).binding k |>.bind fun s w2 hw2 _ hs => ?_
    exact hbind hpass hw2.ofBinding hs.1 hs.2.1 hs.2.2.2

/-! ### Conditions and stores -/

theorem branchStates_runs (hw : Sane g w) (he : Sound g e) :
    Runs g (e.meaning g.setting).branchStates w fun p w' =>
      State.Fits g.routine g.vars p.1 ∧ State.Known w'.table p.1 ∧
        State.Fits g.routine g.vars p.2 ∧ State.Known w'.table p.2 ∧ AllBound g w' e := by
  refine .ofState ?_
  refine (he.assume .holds w hw).bind fun _ w1 hw1 hl1 _ => .ofState ?_
  refine (setState_runs hw1 hw.fits (hw.known.mono hl1.table)).bind fun _ w2 hw2 hl2 _ => ?_
  refine (he.assume .fails w2 hw2).bind fun _ w3 hw3 hl3 hset => .ofState ?_
  exact .pure hw3 ⟨hw1.fits, hw1.known.mono (hl2.table.trans hl3.table), hw3.fits, hw3.known,
    hset.2⟩

theorem shortCircuit_runs (hfree : g.Free) (hw : Sane g w) (hl : Sound g l) (hr : Sound g r)
    (runs b : Branch) :
    Runs g (Meaning.shortCircuit runs (l.meaning g.setting) (r.meaning g.setting) b) w
      fun _ w' => AllBound g w' l ∧ AllBound g w' r := by
  unfold Meaning.shortCircuit
  split
  · refine (hl.assume runs w hw).bind fun _ w1 hw1 _ h1 => ?_
    refine (hr.assume b w1 hw1).bind fun _ w2 hw2 hl2 h2 => ?_
    exact .pure hw2 ⟨h1.2.mono hfree hl2, h2.2⟩
  · refine .ofState ?_
    refine (hl.assume _ w hw).bind fun _ w1 hw1 hl1 _ => .ofState ?_
    refine (setState_runs hw1 hw.fits (hw.known.mono hl1.table)).bind fun _ w2 hw2 hl2 _ => ?_
    refine (hl.assume runs w2 hw2).bind fun _ w3 hw3 hl3 h3 => ?_
    refine (hr.assume b w3 hw3).bind fun _ w4 hw4 hl4 h4 => ?_
    refine (joinWith_runs hw4 hw1.fits (hw1.known.mono (hl2.table.trans
      (hl3.table.trans hl4.table)))).mono fun _ w5 _ hl5 _ => ?_
    exact ⟨h3.2.mono hfree (hl4.trans hl5), h4.2.mono hfree hl5⟩

theorem maybeValue_runs (hfree : g.Free) (hw : Sane g w) (he : Sound g e) :
    Runs g (e.meaning g.setting).maybeValue w (ValueOf g e) := by
  refine .ofState ((he.value w hw).bind fun s w1 hw1 hl1 hs => ?_)
  refine (joinWith_runs hw1 hw.fits (hw.known.mono hl1.table)).bind fun _ w2 hw2 hl2 _ => ?_
  exact .pure hw2 ⟨hs.1.mono hl2.table, hs.2.mono hfree hl2⟩

theorem storeElement_runs (hw : Sane g w) (he : Sound g e) {value : TypeSet}
    (hvalue : w.table.Knows value) :
    Runs g ((e.meaning g.setting).storeElement value) w fun _ w' => AllBound g w' e := by
  refine (he.quiet w hw).bind fun old w1 hw1 hl1 hold => .ofTable ?_
  obtain ⟨new, t, hnew, ht, hext, hknown⟩ :=
    ShapeTable.updated_spec hw1.table hold.1 (hvalue.mono hl1.table)
  simp only [hnew]
  have hset : Runs g (modify fun w : Walker => { w with table := t }) w1
      fun _ w' => w'.table = t :=
    ⟨hw1.withTable ht hext, learns_withTable hext, rfl⟩
  refine hset.bind fun _ w2 hw2 _ htable => ?_
  subst htable
  exact he.store new w2 hw2 hknown

/-! ### Values -/

theorem recorded_runs (hfree : g.Free) (he : Fits g e)
    (hcall : ∀ k name args, e ≠ .call k name args)
    (h : Runs g step w fun s w' => w'.table.Knows s ∧ ∀ x ∈ e.operands, AllBound g w' x) :
    Runs g (recorded e.tag step) w (ValueOf g e) := by
  refine h.bind fun s w1 hw1 _ hs => ?_
  refine (record_runs hw1 he.tag hs.1).bind fun _ w2 hw2 hl2 _ => ?_
  exact .pure hw2 ⟨hs.1.mono hl2.table,
    allBound_of_operands hcall fun x hx => (hs.2 x hx).mono hfree hl2⟩

theorem sound_ofPlace (hfree : g.Free) (he : Fits g e)
    (hcall : ∀ k name args, e ≠ .call k name args) {quiet : Walk TypeSet}
    {store : TypeSet → Walk Unit}
    (hm : e.meaning g.setting = { Meaning.ofValue e step with quiet, store })
    (hstep : ∀ w, Sane g w →
      Runs g step w fun s w' => w'.table.Knows s ∧ ∀ x ∈ e.operands, AllBound g w' x)
    (hquiet : ∀ w, Sane g w → Runs g quiet w (ValueOf g e))
    (hstore : ∀ s w, Sane g w → w.table.Knows s → Runs g (store s) w fun _ w' => AllBound g w' e) :
    Sound g e := by
  refine ⟨?_, ?_, ?_, ?_⟩ <;> rw [hm]
  · exact fun w hw => recorded_runs hfree he hcall (hstep w hw)
  · exact hquiet
  · refine fun b w hw => recorded_runs hfree he hcall ?_
    refine (hstep w hw).bind fun s w1 hw1 _ hs => ?_
    refine (narrowTo_runs hw1 he b).bind fun _ w2 hw2 hl2 _ => ?_
    exact .pure hw2 ⟨hs.1.mono hl2.table, fun x hx => (hs.2 x hx).mono hfree hl2⟩
  · exact hstore

theorem sound_ofValue (hfree : g.Free) (he : Fits g e)
    (hcall : ∀ k name args, e ≠ .call k name args) (hm : e.meaning g.setting = .ofValue e step)
    (hstep : ∀ w, Sane g w →
      Runs g step w fun s w' => w'.table.Knows s ∧ ∀ x ∈ e.operands, AllBound g w' x) :
    Sound g e := by
  have hrec := fun w hw => recorded_runs hfree he hcall (hstep w hw)
  exact sound_ofPlace hfree he hcall hm hstep hrec fun s w hw _ =>
    .discard ((hrec w hw).mono fun _ _ _ _ h => h.2)

theorem sound_ofCondition (hfree : g.Free) (he : Fits g e)
    (hcall : ∀ k name args, e ≠ .call k name args) {step : Branch → Walk Unit}
    (hm : e.meaning g.setting = .ofCondition e step)
    (hstep : ∀ b w, Sane g w → Runs g (step b) w fun _ w' => ∀ x ∈ e.operands, AllBound g w' x) :
    Sound g e := by
  have hassume : ∀ b w, Sane g w → Runs g (recorded e.tag do step b; return .bool) w (ValueOf g e) := by
    intro b w hw
    refine recorded_runs hfree he hcall ?_
    exact (hstep b w hw).bind fun _ w1 hw1 _ h => .pure hw1 ⟨hw1.table.knows_bool, h⟩
  refine ⟨?_, ?_, ?_, ?_⟩ <;> rw [hm]
  · exact hassume .either
  · exact hassume .either
  · exact hassume
  · exact fun s w hw _ => .discard ((hassume .either w hw).mono fun _ _ _ _ h => h.2)

theorem knows_held {entries : List (Entry Nat)} {types : List TypeSet} {acc : TypeSet}
    (hacc : t.Knows acc) (h : ∀ s ∈ types, t.Knows s) :
    t.Knows (Entry.held entries types acc) := by
  fun_induction Entry.held entries types acc with
  | case1 _ _ s _ _ ih =>
    exact ih (hacc.union (h s (.head _)).plain) fun x hx => h x (.tail _ hx)
  | case2 _ _ _ _ s _ _ ih =>
    exact ih (hacc.union (h s (.tail _ (.head _))).plain) fun x hx => h x (.tail _ (.tail _ hx))
  | case3 => exact hacc

theorem result_spec (ht : t.Valid) (e : Expr Nat) {types : List TypeSet}
    (h : ∀ s ∈ types, t.Knows s) :
    (e.result types t).2.Valid ∧ t.Extends (e.result types t).2 ∧
      (e.result types t).2.Knows (e.result types t).1 := by
  unfold Expr.result
  split
  next => exact ⟨ht, .refl t, ht.knows_literal _⟩
  next => exact ⟨ht, .refl t, ShapeTable.knows_binaryTypes ht _ (h _ (by simp)) (h _ (by simp))⟩
  next => exact ⟨ht, .refl t, ShapeTable.knows_unaryTypes ht _ (h _ (by simp)).plain⟩
  next => exact ⟨ht, .refl t, ShapeTable.knows_castTypes ht _ (h _ (by simp)).plain⟩
  next => exact ⟨ht, .refl t, ht.knows_bool⟩
  next => exact ⟨ht, .refl t, ht.knows_bool⟩
  next => exact ⟨ht, .refl t, ht.knows_string⟩
  next => exact ShapeTable.named_spec ht _
  next => exact ShapeTable.arrayOf_spec ht (knows_held ShapeTable.knows_void h)
  next => exact ⟨ht, .refl t, ShapeTable.knows_any⟩

theorem gather_runs (hfree : g.Free) (hw : Sane g w) (hop : ∀ x ∈ e.operands, Sound g x) :
    Runs g (e.gather g.setting) w fun s w' =>
      w'.table.Knows s ∧ ∀ x ∈ e.operands, AllBound g w' x := by
  have hlook : ∀ x ∈ e.operands, ∀ w, Sane g w → Runs g (e.look (x.meaning g.setting)) w (ValueOf g x) := by
    rcases e.look_cases with h | h <;> rw [h]
    · exact fun x hx => (hop x hx).value
    · exact fun x hx => (hop x hx).quiet
  refine (mapM_runs hw (fun x _ s w1 w2 hl h => ⟨h.1.mono hl.table, h.2.mono hfree hl⟩)
    hlook).bind fun types w1 hw1 _ hall => ?_
  have hall := forall₂_iff_get.1 hall
  have hknown : ∀ s ∈ types, w1.table.Knows s := fun s hs => by
    obtain ⟨i, hi, rfl⟩ := getElem_of_mem hs
    exact (hall.2 i (hall.1 ▸ hi) hi).1
  refine (intern_runs hw1 (result_spec hw1.table e hknown)).mono fun s w2 _ hl2 hs => ⟨hs, ?_⟩
  intro x hx
  obtain ⟨i, hi, rfl⟩ := getElem_of_mem hx
  exact (hall.2 i hi (hall.1 ▸ hi)).2.mono hfree hl2

section Operands

variable {P : Expr Nat → Prop} {a b c : Expr Nat}

theorem forall_one (ha : P a) : ∀ x ∈ [a], P x := by simpa using ha

theorem forall_pair (ha : P a) (hb : P b) : ∀ x ∈ [a, b], P x := by simp [ha, hb]

theorem forall_three (ha : P a) (hb : P b) (hc : P c) : ∀ x ∈ [a, b, c], P x := by
  simp [ha, hb, hc]

end Operands

/-! ### Each kind of expression -/

section Kinds

variable {k : Nat} {name : String} {a b c : Expr Nat} (hfree : g.Free)

include hfree

theorem sound_var (he : Fits g (.var k name)) : Sound g (.var k name) := by
  have hname : name ∈ g.names := he.named name rfl
  have hnone : ∀ w, ∀ x ∈ (Expr.var k name).operands, AllBound g w x := by simp [Expr.operands]
  have hread : ∀ quiet w, Sane g w → Runs g (readVariable k name quiet) w fun s w' =>
      w'.table.Knows s ∧ ∀ x ∈ (Expr.var k name).operands, AllBound g w' x := fun quiet w hw =>
    (readVariable_runs hw he.tag hname quiet).mono fun s w' _ _ hs => ⟨hs, hnone w'⟩
  refine sound_ofPlace hfree he (by simp) (by rw [meaning]; rfl) (hread false)
    (fun w hw => recorded_runs (e := .var k name) hfree he (by simp) (hread true w hw)) ?_
  intro s w hw hs
  refine (useVar_runs hw hname).bind fun var w1 hw1 hl1 hvar => ?_
  have hs1 := hs.mono hl1.table
  refine (modifyState_runs hw1 (hw1.fits.assign hvar.2.1 s) (hw1.known.assign hs1 var)).bind
    fun _ w2 hw2 hl2 _ => ?_
  exact (record_runs hw2 he.tag (hs1.mono hl2.table)).mono
    fun _ w3 _ _ _ => allBound_of_operands (by simp) (hnone w3)

theorem sound_assign (he : Fits g (.assign k a b)) (ha : Sound g a) (hb : Sound g b) :
    Sound g (.assign k a b) := by
  refine sound_ofValue hfree he (by simp) (by rw [meaning]) fun w hw => ?_
  refine (hb.value w hw).bind fun s w1 hw1 _ hs => ?_
  refine (ha.store s.plain w1 hw1 hs.1.plain).bind fun _ w2 hw2 hl2 hset => ?_
  exact .pure hw2 ⟨hs.1.plain.mono hl2.table, forall_pair hset (hs.2.mono hfree hl2)⟩

theorem sound_update {op : BinOp} (he : Fits g (.update k op a b)) (ha : Sound g a)
    (hb : Sound g b) : Sound g (.update k op a b) := by
  have hrest : ∀ s w, Sane g w → ValueOf g b s w → Runs g (do (a.meaning g.setting).store s; return s) w
      fun s w' => w'.table.Knows s ∧ ∀ x ∈ [a, b], AllBound g w' x := by
    intro s w hw hs
    refine (ha.store s w hw hs.1).bind fun _ w1 hw1 hl1 hset => ?_
    exact .pure hw1 ⟨hs.1.mono hl1.table, forall_pair hset (hs.2.mono hfree hl1)⟩
  refine sound_ofValue hfree he (by simp) (by rw [meaning]) fun w hw => ?_
  refine (ha.value w hw).bind fun old w1 hw1 _ hold => ?_
  -- how the new value is found depends on the operator, the rest does not
  simp only
  split
  · refine (maybeValue_runs hfree hw1 hb).bind fun v w2 hw2 hl2 hv => ?_
    exact hrest _ w2 hw2 ⟨((hold.1.mono hl2.table).remove _).union hv.1, hv.2⟩
  · refine (hb.value w1 hw1).bind fun v w2 hw2 hl2 hv => .ofTable ?_
    exact hrest _ w2 hw2
      ⟨ShapeTable.knows_binaryTypes hw2.table _ (hold.1.mono hl2.table) hv.1, hv.2⟩

theorem sound_step {op : Step} (he : Fits g (.step k op a)) (ha : Sound g a) :
    Sound g (.step k op a) := by
  refine sound_ofValue hfree he (by simp) (by rw [meaning]) fun w hw => ?_
  refine (ha.value w hw).bind fun old w1 hw1 _ hold => ?_
  refine (varOf?_runs hw1 (he.operand (.head _)).named).bind fun o w2 hw2 hl2 _ => ?_
  have hrest : ∀ safe : Bool, Runs g (do
      (a.meaning g.setting).store (ShapeTable.stepTypes old.plain safe)
      return if op.givesNew then ShapeTable.stepTypes old.plain safe else old.plain) w2
      fun s w' => w'.table.Knows s ∧ ∀ x ∈ [a], AllBound g w' x := by
    intro safe
    have hnew := ShapeTable.knows_stepTypes hw2.table old.plain safe
    refine (ha.store _ w2 hw2 hnew).bind fun _ w3 hw3 hl3 hset => ?_
    refine .pure hw3 ⟨(hnew.mono hl3.table).ite ?_, forall_one hset⟩
    exact hold.1.plain.mono (hl2.table.trans hl3.table)
  cases o with
  | none => exact hrest false
  | some var => exact .ofTable (.ofState (hrest _))

theorem sound_coalesce (he : Fits g (.binary k .coalesce a b)) (ha : Sound g a) (hb : Sound g b) :
    Sound g (.binary k .coalesce a b) := by
  refine sound_ofValue hfree he (by simp) (by rw [meaning]) fun w hw => ?_
  refine (ha.quiet w hw).bind fun s w1 hw1 _ hs => ?_
  refine (maybeValue_runs hfree hw1 hb).bind fun t w2 hw2 hl2 ht => ?_
  exact .pure hw2 ⟨((hs.1.mono hl2.table).remove _).union ht.1,
    forall_pair (hs.2.mono hfree hl2) ht.2⟩

/-- Both ways through; `bs` are the expressions on the first one. -/
theorem choose_runs {w : Walker} (hw : Sane g w) (ha : Sound g a) (hc : Sound g c)
    (bs : List (Expr Nat)) {yes : Walk TypeSet} (hyes : ∀ w, Sane g w →
      Runs g yes w fun s w' => w'.table.Knows s ∧ ∀ x ∈ bs, AllBound g w' x) :
    Runs g ((a.meaning g.setting).choose yes (c.meaning g.setting).value) w fun s w' =>
      w'.table.Knows s ∧ ∀ x ∈ a :: (bs ++ [c]), AllBound g w' x := by
  refine (branchStates_runs hw ha).bind fun p w1 hw1 _ hp => ?_
  obtain ⟨hfit, hknown, hfit', hknown', hset⟩ := hp
  refine (setState_runs hw1 hfit hknown).bind fun _ w2 hw2 hl2 _ => ?_
  refine (hyes w2 hw2).bind fun s w3 hw3 hl3 hs => .ofState ?_
  refine (setState_runs hw3 hfit' (hknown'.mono (hl2.table.trans hl3.table))).bind
    fun _ w4 hw4 hl4 _ => ?_
  refine (hc.value w4 hw4).bind fun t w5 hw5 hl5 ht => ?_
  refine (joinWith_runs hw5 hw3.fits (hw3.known.mono (hl4.table.trans hl5.table))).bind
    fun _ w6 hw6 hl6 _ => ?_
  have hlate := hl4.trans (hl5.trans hl6)
  refine .pure hw6 ⟨((hs.1.mono hlate.table).union (ht.1.mono hl6.table)).plain, fun x hx => ?_⟩
  rcases mem_cons.1 hx with rfl | hx
  · exact hset.mono hfree (hl2.trans (hl3.trans hlate))
  rcases mem_append.1 hx with hx | hx
  · exact (hs.2 x hx).mono hfree hlate
  · exact mem_singleton.1 hx ▸ ht.2.mono hfree hl6

theorem sound_choose (he : Fits g (.choose k a b c)) (ha : Sound g a) (hb : Sound g b)
    (hc : Sound g c) : Sound g (.choose k a b c) := by
  refine sound_ofValue hfree he (by simp) (by rw [meaning]) fun w hw => ?_
  exact choose_runs hfree hw ha hc [b] fun w hw => (hb.value w hw).mono fun s w' _ _ hs =>
    ⟨hs.1, forall_one hs.2⟩

theorem sound_orElse (he : Fits g (.orElse k a b)) (ha : Sound g a) (hb : Sound g b) :
    Sound g (.orElse k a b) := by
  refine sound_ofValue hfree he (by simp) (by rw [meaning]) fun w hw => ?_
  refine choose_runs hfree hw ha hb [] fun w hw => ?_
  refine (recordedTypes_runs hw a.tag).bind fun s w' hw' _ hs => ?_
  exact .pure hw' ⟨hs.1 ▸ hs.2.remove _, by simp⟩

theorem sound_call {args : List (Expr Nat)} (he : Fits g (.call k name args))
    (hargs : ∀ a ∈ args, Sound g a) : Sound g (.call k name args) := by
  have hcall : ∀ w, Sane g w → Runs (g.binding k)
      (call g.setting k name args (Expr.meanings g.setting args)) w (Called g k args) :=
    fun w hw => call_runs hfree hw he hargs
  refine ⟨?_, ?_, ?_, ?_⟩ <;> rw [meaning]
  · exact fun w hw => recorded_call_runs he.tag (hcall w hw)
  · exact fun w hw => recorded_call_runs he.tag (hcall w hw)
  · refine fun b w hw => recorded_call_runs he.tag ?_
    refine (hcall w hw).bind fun s w1 hw1 _ hs => ?_
    refine ((narrowTo_runs hw1.ofBinding he b).mono fun _ _ _ hl _ => hl).binding k |>.bind
      fun _ w2 hw2 _ hl => ?_
    exact .pure hw2 (hs.mono hfree hl)
  · exact fun s w hw _ => .discard
      ((recorded_call_runs he.tag (hcall w hw)).mono fun _ _ _ _ h => h.2)

theorem sound_field (he : Fits g (.field k a name)) (ha : Sound g a) :
    Sound g (.field k a name) := by
  have hop : ∀ x ∈ [a], Sound g x := forall_one ha
  refine sound_ofPlace hfree he (by simp) (by rw [meaning, ← Expr.gather_field]; rfl)
    (fun w hw => gather_runs hfree hw hop)
    (fun w hw => recorded_runs hfree he (by simp) (gather_runs hfree hw hop)) ?_
  intro s w hw hs
  refine (ha.value w hw).bind fun _ w1 hw1 hl1 hset => ?_
  exact (record_runs hw1 he.tag (hs.mono hl1.table)).mono fun _ w2 _ hl2 _ =>
    allBound_of_operands (by simp) (forall_one (hset.2.mono hfree hl2))

theorem sound_append (he : Fits g (.append k a)) (ha : Sound g a) : Sound g (.append k a) := by
  have hop : ∀ x ∈ [a], Sound g x := forall_one ha
  refine sound_ofPlace hfree he (by simp) (by rw [meaning, ← Expr.gather_append]; rfl)
    (fun w hw => gather_runs hfree hw hop)
    (fun w hw => recorded_runs hfree he (by simp) (gather_runs hfree hw hop)) ?_
  intro s w hw hs
  refine (storeElement_runs hw ha hs).bind fun _ w1 hw1 hl1 hset => ?_
  refine (record_runs hw1 he.tag (hs.mono hl1.table)).mono fun _ w2 _ hl2 _ => ?_
  exact allBound_of_operands (by simp) (forall_one (hset.mono hfree hl2))

theorem sound_item (he : Fits g (.item k a b)) (ha : Sound g a) (hb : Sound g b) :
    Sound g (.item k a b) := by
  have hstep : ∀ (m : Walk TypeSet) w, Runs g m w (ValueOf g a) → Runs g (do
      let s ← m
      let _ ← (b.meaning g.setting).value
      elementOf s) w fun s w' => w'.table.Knows s ∧ ∀ x ∈ [a, b], AllBound g w' x := by
    intro m w hm
    refine hm.bind fun s w1 hw1 _ hs => ?_
    refine (hb.value w1 hw1).bind fun _ w2 hw2 hl2 hset => ?_
    refine (elementOf_runs hw2 (hs.1.mono hl2.table)).mono fun r w3 _ hl3 hr => ⟨hr, ?_⟩
    exact forall_pair (hs.2.mono hfree (hl2.trans hl3)) (hset.2.mono hfree hl3)
  refine sound_ofPlace hfree he (by simp) (by rw [meaning]; rfl)
    (fun w hw => hstep _ w (ha.value w hw))
    (fun w hw => recorded_runs (e := .item k a b) hfree he (by simp)
      (hstep _ w (ha.quiet w hw))) ?_
  intro s w hw hs
  refine (hb.value w hw).bind fun _ w1 hw1 hl1 hset => ?_
  have hs1 := hs.mono hl1.table
  refine (storeElement_runs hw1 ha hs1).bind fun _ w2 hw2 hl2 hset2 => ?_
  refine (record_runs hw2 he.tag (hs1.mono hl2.table)).mono fun _ w3 _ hl3 _ => ?_
  exact allBound_of_operands (by simp)
    (forall_pair (hset2.mono hfree hl3) (hset.2.mono hfree (hl2.trans hl3)))

theorem meaning_sound (e : Expr Nat) : Fits g e → Sound g e := by
  induction e using Expr.induct_operands with
  | _ e ih =>
  intro he
  have hop : ∀ x ∈ e.operands, Sound g x := fun x hx => ih x hx (he.operand hx)
  by_cases hplain : e.IsPlain
  · exact sound_ofValue hfree he (by rintro k name args rfl; cases hplain)
      (Expr.meaning_plain hplain _) fun w hw => gather_runs hfree hw hop
  cases e with
  | var => exact sound_var hfree he
  | assign => exact sound_assign hfree he (hop _ (.head _)) (hop _ (.tail _ (.head _)))
  | update => exact sound_update hfree he (hop _ (.head _)) (hop _ (.tail _ (.head _)))
  | step => exact sound_step hfree he (hop _ (.head _))
  | binary k op l r =>
    have hl := hop l (.head _)
    have hr := hop r (.tail _ (.head _))
    rcases BinOp.of_not_isPlain hplain with rfl | rfl | rfl
    iterate 2
      refine sound_ofCondition hfree he (by simp) (by rw [meaning]) fun b w hw => ?_
      exact (shortCircuit_runs hfree hw hl hr _ b).mono fun _ _ _ _ h => forall_pair h.1 h.2
    · exact sound_coalesce hfree he hl hr
  | unary k op operand =>
    obtain rfl : op = .not := not_not.1 hplain
    refine sound_ofCondition hfree he (by simp) (by rw [meaning]) fun b w hw => ?_
    exact .discard (((hop operand (.head _)).assume _ w hw).mono fun _ _ _ _ h => forall_one h.2)
  | choose =>
    exact sound_choose hfree he (hop _ (.head _)) (hop _ (.tail _ (.head _)))
      (hop _ (by simp [Expr.operands]))
  | orElse => exact sound_orElse hfree he (hop _ (.head _)) (hop _ (.tail _ (.head _)))
  | call => exact sound_call hfree he hop
  | field => exact sound_field hfree he (hop _ (.head _))
  | item => exact sound_item hfree he (hop _ (.head _)) (hop _ (.tail _ (.head _)))
  | append => exact sound_append hfree he (hop _ (.head _))
  | _ => exact absurd trivial hplain

end Kinds

end Infer
end ShapeFlow
