/-
# What notes say of

A comparison that came out true bounds the variables it compares: one that is smaller than an
integer is below the largest one, one that is greater is above the smallest one.  Nothing else
makes notes, and no note is left of a comparison further inside, which may have come out either
way.  So a note that is there after a comparison and was not there before is about an operand
that is a variable, set against one that gives integers only.

The note is made when both operands have been gone through, and about the variable, not about
the value that was compared.  The two differ where the other operand stores into the variable;
the operand that is the variable stores into nothing.

Key definitions: `Expr.rebound`, `Expr.Orders`, `Limit.bounded`, `Infer.BothRun`, `Infer.Bounded`.
Key theorems: `Infer.BothRun.notes`, `Infer.narrowByOrder_run`, `Infer.bounds_of_notes`.
-/
import ShapeFlow.Proofs.Branching
import ShapeFlow.Proofs.References

namespace ShapeFlow

open ShapeFlow.Flow Infer List

variable {low high e : Expr Nat} {c : Setting} {x : String}

/-! ### What stores into variables -/

/-- The variables that the expression itself, not its operands, gives another value: those it
stores into, and those that some candidate for the call takes by reference. -/
def Expr.rebinds (c : Setting) : Expr Nat → List String
  | .assign _ target _ | .update _ _ target _ | .step _ _ target => target.base?.toList
  | .call _ name args => args.zipIdx.filterMap fun (a, i) =>
    if ((c.directory.candidates name).filterMap (c.signatures[·]?)).any (·.isByRef i) then a.base?
    else none
  | _ => []

/-- The variables that are given another value while the expression is evaluated. -/
def Expr.rebound (c : Setting) (e : Expr Nat) : List String := e.walk.flatMap (Expr.rebinds c)

/-- A comparison that says `low` to be smaller than `high`. -/
inductive Expr.Orders : (e low high : Expr Nat) → Prop
  | lt (k : Nat) (low high : Expr Nat) : Orders (.binary k .lt low high) low high
  | gt (k : Nat) (low high : Expr Nat) : Orders (.binary k .gt high low) low high

theorem Expr.Orders.mem_rebound (ho : e.Orders low high) :
    x ∈ e.rebound c ↔ x ∈ low.rebound c ∨ x ∈ high.rebound c := by
  have hbinary : ∀ (k : Nat) (op : BinOp) (l r : Expr Nat),
      x ∈ (Expr.binary k op l r).rebound c ↔ x ∈ l.rebound c ∨ x ∈ r.rebound c := by
    intro k op l r
    simp only [Expr.rebound, Expr.walk, flatMap_cons, flatMap_append, mem_append,
      Expr.rebinds, not_mem_nil, false_or]
  cases ho with
  | lt k low high => exact hbinary k .lt low high
  | gt k low high => exact (hbinary k .gt high low).trans or_comm

namespace Flow.Limit

/-- The operand that a limit holds of, if `low` is smaller than `high`. -/
def bounded (low high : Expr Nat) : Limit → Expr Nat
  | belowMax => low
  | aboveMin => high

/-- The operand that sets the limit. -/
def bounding (low high : Expr Nat) : Limit → Expr Nat
  | belowMax => high
  | aboveMin => low

theorem mem_operands (limit : Limit) {y : Expr Nat} :
    y ∈ [low, high] ↔ y = limit.bounded low high ∨ y = limit.bounding low high := by
  cases limit with
  | belowMax => exact mem_pair
  | aboveMin => exact mem_pair.trans or_comm

end Flow.Limit

/-- Of two operands one of which is a variable, only the other one may store into it. -/
theorem Expr.Orders.mem_rebound_of_bounded (ho : e.Orders low high) {limit : Limit} {j : Nat}
    (hvar : limit.bounded low high = .var j x) :
    x ∈ e.rebound c ↔ x ∈ (limit.bounding low high).rebound c := by
  have hnone : x ∉ (limit.bounded low high).rebound c := by
    rw [hvar]
    simp [Expr.rebound, Expr.walk, Expr.rebinds]
  rw [ho.mem_rebound]
  cases limit with
  | belowMax => exact or_iff_right hnone
  | aboveMin => exact or_iff_left hnone

/-! ### Notes that are not made -/

namespace Infer

variable {s : State}

theorem mem_notes_assign {j : Nat} {t : TypeSet} {n : Note} (h : n ∈ (s.assign j t).notes) :
    n ∈ s.notes := (mem_filter.1 h).1

theorem notes_narrow (s : State) (j : Nat) (t : TypeSet) : (s.narrow j t).notes = s.notes := by
  unfold State.narrow
  split <;> rfl

theorem tolerant_absent (n : Note) : Tolerant fun s => n ∉ s.notes where
  join hjoin h hn := by
    obtain ⟨ha, hb⟩ := (State.mem_notes_join hjoin).1 hn
    exact h.elim (· ha) (· hb)
  any _ _ h hn := h (mem_notes_assign hn)
  test _ := .inl fun _ h hn => h (mem_notes_assign hn)

theorem harmless_absent (n : Note) (j : Nat) : Harmless (fun s => n ∉ s.notes) j where
  assign _ _ h hn := h (mem_notes_assign hn)
  narrow s t h hn := h (notes_narrow s j t ▸ hn)
  unset _ h hn := h (mem_filter.1 hn).1

theorem exists_avoids (e : Expr Nat) : ∃ k, Avoids k e := by
  obtain ⟨k, hk⟩ := Infinite.exists_notMem_finset (e.walk.map Expr.tag).toFinset
  rw [mem_toFinset] at hk
  exact ⟨k, fun x hx htag => hk (htag ▸ mem_map_of_mem hx)⟩

section Notes

variable {c : Setting} {w w' : Walker} {e : Expr Nat}

theorem value_keeps {P : State → Prop} (hP : Tolerant P) (he : Mentions w.routine e)
    (hstored : ∀ name ∈ e.stored, Harmless P (w.routine.index name)) {s : TypeSet}
    (h : (e.meaning c).value w = .ok s w') :
    w'.routine.scope.names = w.routine.scope.names ∧ (P w.state → P w'.state) := by
  obtain ⟨k, hk⟩ := exists_avoids e
  have hmeaning : KeptBy w.routine 0 k P c e := meaning_keeps hP e he hk hstored
  obtain ⟨hspares, hkept⟩ := (hmeaning.value w rfl).ok h
  exact ⟨hspares.names, hkept⟩

end Notes

/-- Expression `l` is gone through, and then `r`. -/
structure BothRun (c : Setting) (l r : Expr Nat) (w w' : Walker) : Prop where
  mentions : ∀ y ∈ [l, r], Mentions w.routine y
  runs : ∃ tl v tr, (l.meaning c).value w = .ok tl v ∧ (r.meaning c).value v = .ok tr w'

namespace BothRun

variable {c : Setting} {l r : Expr Nat} {w w' : Walker}

theorem keeps (h : BothRun c l r w w') {P : State → Prop} (hP : Tolerant P)
    (hstored : ∀ y ∈ [l, r], ∀ name ∈ y.stored, Harmless P (w.routine.index name)) :
    w'.routine.scope.names = w.routine.scope.names ∧ (P w.state → P w'.state) := by
  obtain ⟨tl, v, tr, hl, hr⟩ := h.runs
  obtain ⟨hnames, hkept⟩ := value_keeps hP (h.mentions l (by simp)) (hstored l (by simp)) hl
  have hright : Mentions v.routine r := fun y hy name hname =>
    hnames ▸ h.mentions r (by simp) y hy name hname
  have hstored' : ∀ name ∈ r.stored, Harmless P (v.routine.index name) := by
    intro name hname
    rw [Routine.index, hnames]
    exact hstored r (by simp) name hname
  obtain ⟨hnames', hkept'⟩ := value_keeps hP hright hstored' hr
  exact ⟨hnames'.trans hnames, fun hw => hkept' (hkept hw)⟩

theorem names (h : BothRun c l r w w') : w'.routine.scope.names = w.routine.scope.names :=
  (h.keeps tolerant_true fun _ _ _ _ => harmless_true _).1

/-- **Evaluating expressions makes no notes.** -/
theorem notes (h : BothRun c l r w w') : w'.state.notes ⊆ w.state.notes := by
  intro n hn
  by_contra hnot
  exact (h.keeps (tolerant_absent n) fun _ _ _ _ => harmless_absent n _).2 hnot hn

theorem holds (h : BothRun c l r w w') (hx : x ∈ w.routine.scope.names)
    (hstored : ∀ y ∈ [l, r], x ∉ y.stored) (z : Nat) :
    w.state.Holds (w.routine.index x) z → w'.state.Holds (w.routine.index x) z := by
  refine (h.keeps (tolerant_holds (w.routine.index x) z) fun y hy name hname => ?_).2
  apply harmless_holds
  intro hindex
  have hname' : x = name := (idxOf_inj hx).1 hindex.symm
  exact hstored y hy (hname' ▸ hname)

theorem known (h : BothRun c l r w w') : ∀ y ∈ [l, r], Mentions w'.routine y ∧
    y.tag < w'.routine.facts.size := by
  intro y hy
  refine ⟨fun z hz name hname => h.names ▸ h.mentions y hy z hz name hname, ?_⟩
  obtain ⟨tl, v, tr, hl, hr⟩ := h.runs
  rcases mem_pair.1 hy with rfl | rfl
  · exact lt_size_of_gains (value_gains hr) (value_tag hl)
  · exact value_tag hr

end BothRun

/-! ### Notes that are made -/

theorem mem_notes_addNote {m n : Note} : n ∈ (s.addNote m).notes ↔ n = m ∨ n ∈ s.notes := by
  have hself : ∀ l : List Note, m ∈ Sorted.insertNew m l := by
    intro l
    induction l with
    | nil => exact mem_singleton_self m
    | cons b l ih =>
      rw [Sorted.insertNew, Note.compare_eq]
      split
      next => exact .head _
      next heq =>
        obtain rfl := Note.key_injective (Nat.compare_eq_eq.1 heq)
        exact .head _
      next => exact .tail _ ih
  refine ⟨Sorted.mem_insertNew, ?_⟩
  rintro (rfl | hn)
  · exact hself s.notes
  · exact Narrowing.mem_insertNew_of_mem hn

/-- All the walker has done is to make the notes. -/
structure AddsNotes (w : Walker) (N : Note → Prop) (w' : Walker) : Prop where
  table : w'.table = w.table
  facts : w'.routine.facts = w.routine.facts
  names : w'.routine.scope.names = w.routine.scope.names
  state : w'.state.bare = w.state.bare
  notes : ∀ n, n ∈ w'.state.notes ↔ n ∈ w.state.notes ∨ N n

section AddsNotes

variable {c : Setting} {w w' w'' : Walker} {e low high : Expr Nat} {N M : Note → Prop}

theorem AddsNotes.trans (h : AddsNotes w N w') (h' : AddsNotes w' M w'') :
    AddsNotes w (fun n => N n ∨ M n) w'' where
  table := h'.table.trans h.table
  facts := h'.facts.trans h.facts
  names := h'.names.trans h.names
  state := h'.state.trans h.state
  notes n := by rw [h'.notes, h.notes, or_assoc]

theorem noteLimit_run (limit : Limit) (known : Bool) (he : Mentions w.routine e) : ∃ w',
    noteLimit limit known e w = .ok () w' ∧ AddsNotes w (fun n => known = true ∧ n.limit = limit ∧
      ∃ j x, e = .var j x ∧ n.var = w.routine.index x) w' := by
  have hnothing : (∀ n : Note, ¬ (known = true ∧ n.limit = limit ∧
      ∃ j x, e = .var j x ∧ n.var = w.routine.index x)) →
      AddsNotes w (fun n => known = true ∧ n.limit = limit ∧
        ∃ j x, e = .var j x ∧ n.var = w.routine.index x) w := fun hnot =>
    ⟨rfl, rfl, rfl, rfl, fun n => (or_iff_left (hnot n)).symm⟩
  unfold noteLimit
  cases known
  · exact ⟨w, rfl, hnothing (by simp)⟩
  · rcases hname : e.varName? with _ | x
    · refine ⟨w, ?_, hnothing ?_⟩
      · simp only [varOf?, hname]
        rfl
      · rintro n ⟨-, -, j, x, rfl, -⟩
        cases hname
    · obtain ⟨j, rfl⟩ := Expr.varName?_eq_some.1 hname
      have hmem := he.self x hname
      have huse := useVar_eq (w := w) rfl hmem
      have hvar : varOf? (.var j x) w = .ok (some (w.routine.index x)) { w with routine :=
          { w.routine with scope := { w.routine.scope with
            used := w.routine.scope.used.insert (w.routine.index x) } } } := by
        show (useVar x >>= fun i => Pure.pure (some i) : Walk (Option Nat)) w = _
        exact bind_of_ok huse
      refine ⟨_, bind_of_ok hvar, rfl, rfl, rfl, rfl, fun n => ?_⟩
      refine mem_notes_addNote.trans ?_
      obtain ⟨var, l⟩ := n
      simp [Note.mk.injEq, and_comm, or_comm]

/-- The note is about variable `x`, which is one side of the comparison; the other side gave integers
only. -/
structure Bounded (low high : Expr Nat) (w : Walker) (n : Note) (x : String) : Prop where
  operand : ∃ j, n.limit.bounded low high = .var j x
  var : n.var = w.routine.index x
  int : w.table.isKind (w.routine.exprTypes (n.limit.bounding low high).tag) .int = true

theorem isIntSoFar_run {k : Nat} (hk : k < w.routine.facts.size) :
    isIntSoFar k w = .ok (w.table.isKind (w.routine.exprTypes k) .int) w := by
  show EStateM.Result.ok (w.table.isKind ((w.routine.facts[k]?.map (·.types)).getD .any) .int) w = _
  rw [Routine.exprTypes, Array.getElem?_eq_getElem hk]
  rfl

/-- **Only the variables compared are noted**, each if the other side gives integers. -/
theorem narrowByOrder_run (hlow : Mentions w.routine low) (hhigh : Mentions w.routine high)
    (hl : low.tag < w.routine.facts.size) (hh : high.tag < w.routine.facts.size) : ∃ w',
    narrowByOrder low high w = .ok () w' ∧ AddsNotes w (fun n => ∃ x, Bounded low high w n x) w' := by
  obtain ⟨w1, hrun1, h1⟩ := noteLimit_run .belowMax
    (w.table.isKind (w.routine.exprTypes high.tag) .int) hlow
  have hhigh1 : Mentions w1.routine high := fun y hy name hname => h1.names ▸ hhigh y hy name hname
  obtain ⟨w2, hrun2, h2⟩ := noteLimit_run .aboveMin
    (w1.table.isKind (w1.routine.exprTypes low.tag) .int) hhigh1
  refine ⟨w2, ?_, ?_⟩
  · rw [narrowByOrder_eq]
    refine (bind_of_ok (isIntSoFar_run hh)).trans ((bind_of_ok hrun1).trans ?_)
    exact (bind_of_ok (isIntSoFar_run (h1.facts ▸ hl))).trans hrun2
  · have hadds := h1.trans h2
    refine { hadds with notes := fun n => (hadds.notes n).trans (or_congr_right ?_) }
    have hindex : w1.routine.index = w.routine.index := by
      funext x
      rw [Routine.index, Routine.index, h1.names]
    have htypes : w1.routine.exprTypes = w.routine.exprTypes := by
      funext k
      rw [Routine.exprTypes, Routine.exprTypes, h1.facts]
    rw [h1.table, hindex, htypes]
    obtain ⟨var, limit⟩ := n
    constructor
    · rintro (⟨hint, rfl, j, x, hvar, hx⟩ | ⟨hint, rfl, j, x, hvar, hx⟩)
      · exact ⟨x, ⟨j, hvar⟩, hx, hint⟩
      · exact ⟨x, ⟨j, hvar⟩, hx, hint⟩
    · rintro ⟨x, ⟨j, hvar⟩, hx, hint⟩
      cases limit with
      | belowMax => exact .inl ⟨hint, rfl, j, x, hvar, hx⟩
      | aboveMin => exact .inr ⟨hint, rfl, j, x, hvar, hx⟩

end AddsNotes

/-! ### Comparisons -/

section Comparisons

variable {c : Setting} {w w' : Walker} {e low high : Expr Nat}

theorem of_assume_binary {op : BinOp} (hop : op.IsPlain) {k : Nat} {l r : Expr Nat} {b : Branch}
    {s : TypeSet} (h : ((Expr.binary k op l r).meaning c).assume b w = .ok s w') :
    ∃ tl v tr u u', (l.meaning c).value w = .ok tl v ∧ (r.meaning c).value v = .ok tr u ∧
      narrowTo (.binary k op l r) b u = .ok () u' ∧ k < u'.routine.facts.size ∧
      w' = withFact u' k fun x => { x with types := x.types ∪ s } := by
  rw [Expr.meaning_binary hop] at h
  obtain ⟨u', hstep, hk, hw'⟩ := of_recorded h
  obtain ⟨t, u, hvalue, hstep⟩ := ok_of_bind hstep
  obtain ⟨_, u'', hnarrow, hpure⟩ := ok_of_bind hstep
  cases hpure
  obtain ⟨tl, v, hl, hvalue⟩ := ok_of_bind hvalue
  obtain ⟨tr, u1, hr, htable⟩ := ok_of_bind hvalue
  cases htable
  exact ⟨tl, v, tr, _, _, hl, hr, hnarrow, hk, hw'⟩

theorem of_assume_orders (ho : e.Orders low high) (he : Mentions w.routine e) {s : TypeSet}
    (h : (e.meaning c).assume .holds w = .ok s w') :
    ∃ l r u u', e.operands = [l, r] ∧ [low, high].Perm [l, r] ∧ BothRun c l r w u ∧
      narrowByOrder low high u = .ok () u' ∧ w'.state = u'.state := by
  have hlt : BinOp.lt.IsPlain := by simp [BinOp.IsPlain]
  have hgt : BinOp.gt.IsPlain := by simp [BinOp.IsPlain]
  cases ho with
  | lt k low high =>
    obtain ⟨tl, v, tr, u, u', hl, hr, hnarrow, -, rfl⟩ := of_assume_binary hlt h
    exact ⟨low, high, u, u', rfl, .refl _, ⟨fun _ => he.operand, tl, v, tr, hl, hr⟩, hnarrow, rfl⟩
  | gt k low high =>
    obtain ⟨tl, v, tr, u, u', hl, hr, hnarrow, -, rfl⟩ := of_assume_binary hgt h
    exact ⟨high, low, u, u', rfl, .swap .., ⟨fun _ => he.operand, tl, v, tr, hl, hr⟩, hnarrow, rfl⟩

/-- **A note is about an operand, and the other operand may have changed it.**  After a comparison
that came out true, the notes are those that were left when both operands had been gone through,
and one for each operand that is a variable and was compared with integers only.  Of the former
none is new.  The variable of a new note has been given another value meanwhile just if the operand
it was compared with does so; if that one stores nothing into it, it holds all that it held. -/
theorem bounds_of_notes (ho : e.Orders low high) (he : Mentions w.routine e) {s : TypeSet}
    (h : (e.meaning c).assume .holds w = .ok s w') :
    ∃ l r u, e.operands = [l, r] ∧ BothRun c l r w u ∧ w'.state.bare = u.state.bare ∧
      u.state.notes ⊆ w.state.notes ∧
      (∀ n, n ∈ w'.state.notes ↔ n ∈ u.state.notes ∨ ∃ x, Bounded low high u n x) ∧
      ∀ n ∈ w'.state.notes, n ∉ w.state.notes → ∃ x, Bounded low high u n x ∧
        (x ∈ e.rebound c ↔ x ∈ (n.limit.bounding low high).rebound c) ∧
        (x ∉ (n.limit.bounding low high).stored →
          ∀ z, w.state.Holds n.var z → w'.state.Holds n.var z) := by
  obtain ⟨l, r, u, u', hoperands, hperm, hboth, hnarrow, hstate⟩ := of_assume_orders ho he h
  obtain ⟨hlow, hlowTag⟩ := hboth.known low (hperm.mem_iff.1 (by simp))
  obtain ⟨hhigh, hhighTag⟩ := hboth.known high (hperm.mem_iff.1 (by simp))
  obtain ⟨u'', hrun, hadds⟩ := narrowByOrder_run hlow hhigh hlowTag hhighTag
  obtain ⟨-, rfl⟩ := EStateM.Result.ok.inj (hrun.symm.trans hnarrow)
  have hbare : w'.state.bare = u.state.bare := hstate ▸ hadds.state
  refine ⟨l, r, u, hoperands, hboth, hbare, hboth.notes, hstate ▸ hadds.notes, ?_⟩
  intro n hn hnew
  rw [hstate] at hn
  obtain ⟨x, hx⟩ := ((hadds.notes n).1 hn).resolve_left fun hn => hnew (hboth.notes hn)
  obtain ⟨j, hj⟩ := hx.operand
  refine ⟨x, hx, ho.mem_rebound_of_bounded hj, fun hstored z hz => ?_⟩
  have hnone : ∀ y ∈ [l, r], x ∉ y.stored := by
    intro y hy
    rcases n.limit.mem_operands.1 (hperm.mem_iff.2 hy) with rfl | rfl
    · rw [hj]
      simp [Expr.stored, Expr.walk, Expr.store?]
    · exact hstored
  have hmem : x ∈ w.routine.scope.names := by
    have hbounded := hboth.mentions _ (hperm.mem_iff.1 (n.limit.mem_operands.2 (Or.inl rfl)))
    exact (hj ▸ hbounded).self x rfl
  have hvar : n.var = w.routine.index x := by
    rw [hx.var, Routine.index, Routine.index, hboth.names]
  have hkept := hboth.holds hmem hnone z (hvar ▸ hz)
  show w'.state.bare.Holds n.var z
  rw [hbare, hvar]
  exact hkept

/-- The comparison `$x < ($x = $n)`. -/
def crossed : Expr Nat := .binary 0 .lt (.var 1 "x") (.assign 2 (.var 3 "x") (.var 4 "n"))

/-- Just before `crossed`, where `$x` and `$n` are integers. -/
def crossedWalker : Walker := walkerWith .standard 5 [("x", .int), ("n", .int)]

/-- The old value of `$x` was below an integer; the note is about the new one. -/
theorem crossed_noted : ∃ s w' u x,
    (crossed.meaning bareSetting).assume .holds crossedWalker = .ok s w' ∧
    crossedWalker.state.notes = [] ∧ ⟨0, .belowMax⟩ ∈ w'.state.notes ∧
    Bounded (.var 1 "x") (.assign 2 (.var 3 "x") (.var 4 "n")) u ⟨0, .belowMax⟩ x ∧
    x ∈ crossed.rebound bareSetting := by
  have hmentions : Mentions crossedWalker.routine crossed := by
    have hall : ∀ y ∈ crossed.walk, ∀ name ∈ y.varName?, name ∈ ["x", "n"] := by decide
    exact hall
  obtain ⟨s, w', hrun, hgood⟩ := exists_ok_of_good (s := crossedWalker)
    (m := (crossed.meaning bareSetting).assume .holds)
    (fun _ w' => decide (⟨0, .belowMax⟩ ∈ w'.state.notes)) (by decide +kernel)
  obtain ⟨-, -, u, -, -, -, -, -, hnew⟩ := bounds_of_notes (.lt 0 _ _) hmentions hrun
  obtain ⟨x, hx, hrebound, -⟩ := hnew ⟨0, .belowMax⟩ (of_decide_eq_true hgood) (by simp [crossedWalker, walkerWith])
  refine ⟨s, w', u, x, hrun, rfl, of_decide_eq_true hgood, hx, hrebound.2 ?_⟩
  obtain ⟨j, hj⟩ := hx.operand
  obtain ⟨-, rfl⟩ := Expr.var.inj hj
  decide

end Comparisons

end Infer

end ShapeFlow
