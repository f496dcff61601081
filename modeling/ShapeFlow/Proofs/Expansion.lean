/-
# Assignments that combine

`$x op= v` is short for `$x = $x op v`.  The two take different ways: the short form
reads its target as any expression is read, stores what it has found as it is, and asks
for no types of an operation in between.  For all operators but `??` they come to the
same: the same types, state, table, calls and reports, and the same facts about `$x`
being read.

`$x ?? v` reads `$x` quietly, and `$x ??= v` does not: it notes the read like any other.
Its result also keeps a mark for references on what `v` has given, which an assignment
takes off.  The rest is the same.

Key definitions: `siteAt`, `Silent`, `retyped`, `Expanded`.
Key theorems: `Silent.after`, `Expanded.paired`, `expanded_update`, `update_expands`.
-/
import ShapeFlow.Diagnostic
import ShapeFlow.Proofs.Branching
import ShapeFlow.Proofs.Negations
import ShapeFlow.Proofs.References

namespace ShapeFlow

open ShapeFlow.Flow Infer TypeSet
open ShapeFlow.Expr (meaning)

/-! ### Assigning again -/

theorem VarSet.insert_insert (s : VarSet) (i : Nat) : (s.insert i).insert i = s.insert i := by
  apply VarSet.ext_contains
  intro j _
  simp [VarSet.contains_insert]

namespace Flow
namespace State

theorem put_put : ∀ (l : List TypeSet) (i : Nat) (t t' : TypeSet), put (put l i t) i t' = put l i t'
  | [], 0, _, _ => rfl
  | [], i + 1, t, t' => congrArg (any :: ·) (put_put [] i t t')
  | _ :: _, 0, _, _ => rfl
  | a :: l, i + 1, t, t' => congrArg (a :: ·) (put_put l i t t')

theorem assign_assign (s : State) (i : Nat) (t t' : TypeSet) :
    (s.assign i t).assign i t' = s.assign i t' := by
  simp [assign, put_put, VarSet.insert_insert, List.filter_filter]

end State
end Flow

/-! ### Marks -/

theorem ShapeTable.byRef_binaryTypes (t : ShapeTable) (op : BinOp) (l r : TypeSet) :
    (t.binaryTypes op l r).byRef = false := by
  have hnumbers : (ShapeTable.arithmetic l.plain r.plain).byRef = false := by
    unfold ShapeTable.arithmetic
    split <;> rfl
  unfold ShapeTable.binaryTypes
  cases op with
  | add =>
    dsimp only
    split
    · rfl
    · split
      · exact hnumbers
      · split <;> rfl
  | sub | mul | div | pow =>
    dsimp only
    split
    · exact hnumbers
    · rfl
  | bitAnd | bitOr | bitXor =>
    dsimp only
    split <;> rfl
  | coalesce => rw [byRef_union, byRef_remove, byRef_plain]; rfl
  | _ => rfl

namespace Infer

/-! ### Noted reads -/

section Sites

variable {β γ : Type} {k : Nat}

/-- How expression `k` has been found to read a variable, if the routine has that expression. -/
def siteAt (w : Walker) (k : Nat) : Option (Option ReadSite) := w.routine.facts[k]?.map Fact.read

/-- The step notes no read for expression `k`. -/
def Silent (k : Nat) (m : Walk β) : Prop := ∀ w, siteAt (walkerOf (m w)) k = siteAt w k

variable {m : Walk β} {f : β → Walk γ}

theorem Silent.after (hf : ∀ b, Silent k (f b)) (w : Walker) :
    siteAt (walkerOf ((m >>= f) w)) k = siteAt (walkerOf (m w)) k := by
  show siteAt (walkerOf (EStateM.bind m f w)) k = _
  unfold EStateM.bind
  rcases m w with ⟨b, w'⟩ | ⟨e, w'⟩
  · exact hf b w'
  · rfl

theorem Silent.bind (hm : Silent k m) (hf : ∀ b, Silent k (f b)) :
    Silent k (m >>= f) := fun w => (Silent.after hf w).trans (hm w)

theorem Local.silent {K : Set Nat} (h : Local K m) (hk : k ∈ K) : Silent k m :=
  fun w => congrArg (Option.map Fact.read) (h.frame w k hk)

theorem silent_pure (b : β) : Silent k (pure b : Walk β) := fun _ => rfl

theorem silent_record (j : Nat) (s : TypeSet) : Silent k (record j s) := by
  intro w
  rw [record_result]
  split
  · unfold siteAt walkerOf
    rw [facts_withFact]
    split
    · rw [Option.map_map]
      rfl
    · rfl
  · rfl

theorem Silent.recorded {m : Walk TypeSet} (h : Silent k m) (j : Nat) : Silent k (recorded j m) :=
  h.bind fun s => (silent_record j s).bind fun _ => silent_pure s

theorem silent_store (c : Setting) (j : Nat) (x : String) (s : TypeSet) :
    Silent k (((Expr.var j x).meaning c).store s) := by
  rw [meaning]
  have huse : Silent k (useVar x) := (local_useVar (K := {k}) x).silent rfl
  refine huse.bind fun var => ?_
  exact ((local_modifyState (K := {k}) _).silent rfl).bind fun _ => silent_record j s

theorem silent_quiet (c : Setting) (j : Nat) (x : String) :
    Silent k ((Expr.var j x).meaning c).quiet := by
  rw [meaning]
  exact .recorded (fun _ => rfl) j

theorem concerns_var (r : Routine) (x : String) : r.concerns (.var k x) =
    ((r.facts[k]?.map Fact.read).join.bind r.readConcern).toList := by
  unfold Routine.concerns
  rw [show (Expr.var k x).tag = k from rfl]
  rcases r.facts[k]? with _ | fact
  · rfl
  · simp

end Sites

/-! ### The two forms -/

section Forms

variable {c : Setting} {op : BinOp} {i j i' j' k : Nat} {x : String} {v : Expr Nat}

/-- `$x op= v`. -/
def combined (op : BinOp) (i j : Nat) (x : String) (v : Expr Nat) : Expr Nat :=
  .update i op (.var j x) v

/-- `$x = $x op v`.  The `$x` that is read has the number it has in `$x op= v`. -/
def expanded (op : BinOp) (i' j' k j : Nat) (x : String) (v : Expr Nat) : Expr Nat :=
  .assign i' (.var j' x) (.binary k op (.var j x) v)

/-- How `op` evaluates its left operand. -/
def leftOperand (c : Setting) (op : BinOp) (l : Expr Nat) : Walk TypeSet :=
  if op = .coalesce then (l.meaning c).quiet else (l.meaning c).value

/-- What `op` gives for a left operand of the given types. -/
def combination (c : Setting) (op : BinOp) (v : Expr Nat) (old : TypeSet) : Walk TypeSet :=
  match op with
  | .coalesce => do
    let t ← (v.meaning c).maybeValue
    pure (old.remove .null ∪ t)
  | op => do
    let t ← (v.meaning c).value
    pure ((← getTable).binaryTypes op old t)

/-- Stores into `$x`, as assignment `i` does. -/
def storing (c : Setting) (i j : Nat) (x : String) (s : TypeSet) : Walk TypeSet :=
  recorded i do
    ((Expr.var j x).meaning c).store s
    return s

theorem value_combined : ((combined op i j x v).meaning c).value =
    ((Expr.var j x).meaning c).value >>= fun old => combination c op v old >>= storing c i j x := by
  have hupdate : ∀ target : Expr Nat, ((Expr.update i op target v).meaning c).value =
      recorded i ((target.meaning c).value >>= fun old => combination c op v old >>= fun s => do
        (target.meaning c).store s
        return s) := by
    intro target
    rw [meaning]
    refine congrArg (recorded i) (congrArg (_ >>= ·) (funext fun old => ?_))
    unfold combination
    split <;> simp only [bind_assoc, pure_bind]
  rw [combined, hupdate]
  unfold storing
  simp only [recorded, bind_assoc]

theorem value_expanded (hop : op ≠ .and ∧ op ≠ .or) : ((expanded op i' j' k j x v).meaning c).value =
    leftOperand c op (.var j x) >>= fun old => combination c op v old >>= fun s =>
      record k s >>= fun _ => storing c i' j' x s.plain := by
  have hassign : ∀ target value : Expr Nat, ((Expr.assign i' target value).meaning c).value =
      recorded i' ((value.meaning c).value >>= fun s => do
        (target.meaning c).store s.plain
        return s.plain) := by
    intro target value
    rw [meaning]
    rfl
  have hbinary : ∀ l : Expr Nat, ((Expr.binary k op l v).meaning c).value =
      recorded k (leftOperand c op l >>= combination c op v) := by
    intro l
    by_cases hc : op = .coalesce
    · subst hc
      rw [meaning]
      rfl
    · rw [Expr.meaning_binary ⟨hop.1, hop.2, hc⟩, leftOperand, if_neg hc]
      unfold combination
      cases op <;> first | rfl | exact absurd rfl hc
  rw [expanded, hassign, hbinary]
  unfold storing
  simp only [recorded, bind_assoc, pure_bind]

end Forms

/-! ### How they end -/

section Ends

variable {c : Setting} {K : Set Nat} {x : String} {w u : Walker}

/-- The walker, if it had given `x` these types. -/
def retyped (w : Walker) (x : String) (s : TypeSet) : Walker :=
  { w with state := w.state.assign (w.routine.index x) s }

/-- The walker after a value has been stored into `x`. -/
def storedInto (w : Walker) (x : String) (s : TypeSet) : Walker := retyped (lookedUp w x) x s

theorem store_run {j : Nat} (hj : j < w.routine.facts.size) (s : TypeSet) :
    ((Expr.var j x).meaning c).store s w =
      .ok () (withFact (storedInto w x s) j fun f => { f with types := f.types ∪ s }) := by
  rw [meaning]
  refine (bind_of_ok (useVar_lookedUp w x)).trans ?_
  have hstate : modifyState (·.assign ((lookedUp w x).routine.index x) s) (lookedUp w x) =
      .ok () (storedInto w x s) := rfl
  rw [bind_of_ok hstate]
  exact record_eq (w := storedInto w x s) hj s

theorem retyped_storedInto (s t : TypeSet) :
    retyped (storedInto w x s) x t = storedInto w x t := by
  have hstate := State.assign_assign (lookedUp w x).state ((lookedUp w x).routine.index x) s t
  exact congrArg (fun state => { lookedUp w x with state }) hstate

theorem Alike.storedInto (h : Alike K w u) (x : String) (s : TypeSet) :
    Alike K (storedInto w x s) (storedInto u x s) where
  rest := by rw [h.rest]; rfl
  size := h.size
  range := h.range
  facts := h.facts

theorem Alike.withFact_right (h : Alike K w u) {k : Nat} (hk : k ∈ K) (f : Fact → Fact) :
    Alike K w (Infer.withFact u k f) :=
  (h.symm.withFact_left hk f).symm

/-- Both forms have failed for the same reason; or both have a result, and the second one, with
its walker, is the first without its mark. -/
inductive Expanded (K : Set Nat) (x : String) : EStateM.Result Fault Walker TypeSet →
    EStateM.Result Fault Walker TypeSet → Prop
  | ok {s : TypeSet} {w u : Walker} : (s.byRef = false → retyped w x s.plain = w) →
      Alike K (retyped w x s.plain) u → Expanded K x (.ok s w) (.ok s.plain u)
  | error {f : Fault} {w u : Walker} : Alike K w u → Expanded K x (.error f w) (.error f u)

theorem plain_eq {s : TypeSet} (h : s.byRef = false) : s.plain = s :=
  ext_mem (fun _ => Iff.rfl) h.symm

theorem Expanded.paired {y z : EStateM.Result Fault Walker TypeSet} (h : Expanded K x y z)
    (hplain : ∀ s w, y = .ok s w → s.byRef = false) : Paired K Eq y z := by
  cases h with
  | @ok s w u hself hwu =>
    have hs := hplain s w rfl
    rw [hself hs] at hwu
    exact .ok (plain_eq hs).symm hwu
  | error hwu => exact .error hwu

theorem expanded_storing {i j i' j' : Nat} (hi : i ∈ K) (hj : j ∈ K) (hi' : i' ∈ K) (hj' : j' ∈ K)
    (hwu : Alike K w u) (s : TypeSet) :
    Expanded K x (storing c i j x s w) (storing c i' j' x s.plain u) := by
  have hrun : ∀ {w : Walker} {i j : Nat}, i < w.routine.facts.size → j < w.routine.facts.size →
      ∀ t, storing c i j x t w = .ok t
        (withFact (withFact (storedInto w x t) j fun f => { f with types := f.types ∪ t }) i
          fun f => { f with types := f.types ∪ t }) := by
    intro w i j hi hj t
    refine recorded_run ((bind_of_ok (store_run hj t)).trans rfl) ?_
    exact lt_of_lt_of_eq hi (Array.size_modify ..).symm
  rw [hrun (hwu.range i hi) (hwu.range j hj), hrun (hwu.symm.range i' hi') (hwu.symm.range j' hj')]
  -- facts aside, giving `x` other types undoes what the first form has stored
  have hretyped : ∀ t, retyped (withFact (withFact (storedInto w x s) j
      fun f => { f with types := f.types ∪ s }) i fun f => { f with types := f.types ∪ s }) x t =
      withFact (withFact (storedInto w x t) j fun f => { f with types := f.types ∪ s }) i
        fun f => { f with types := f.types ∪ s } := by
    intro t
    rw [← retyped_storedInto s t]
    rfl
  refine .ok (fun hs => ?_) ?_
  · rw [hretyped, plain_eq hs]
  · rw [hretyped]
    exact ((((hwu.storedInto x s.plain).withFact_left hj _).withFact_left hi _).withFact_right hj'
      _).withFact_right hi' _

theorem Matches.expanded {m n : Walk TypeSet} {f g : TypeSet → Walk TypeSet} (h : Matches K Eq m n)
    (hfg : ∀ s w u, Alike K w u → Expanded K x (f s w) (g s u)) (hwu : Alike K w u) :
    Expanded K x ((m >>= f) w) ((n >>= g) u) := by
  have hpair := h w u hwu
  show Expanded K x (EStateM.bind m f w) (EStateM.bind n g u)
  unfold EStateM.bind
  revert hpair
  generalize m w = y
  generalize n u = z
  intro hpair
  cases hpair with
  | @ok s t w' u' hst hwu' =>
    subst hst
    exact hfg s w' u' hwu'
  | error hwu' => exact .error hwu'

end Ends

/-! ### The forms compared -/

section Compared

variable {c : Setting} {op : BinOp} {K : Set Nat} {i j i' j' k : Nat} {x : String} {v : Expr Nat}

/-- Whether a read is noted makes no difference to its result. -/
theorem matches_reads (hj : j ∈ K) (x : String) (quiet : Bool) :
    Matches K Eq (recorded j (readVariable j x false)) (recorded j (readVariable j x quiet)) := by
  have hread : Matches K Eq (readVariable j x false) (readVariable j x quiet) := by
    refine .bind (local_useVar x).same fun var _ hvar => ?_
    refine .bind local_getState.same fun s _ hs => ?_
    subst hvar hs
    intro w u hwu
    cases quiet with
    | false => exact .ok rfl (hwu.withFact j _)
    | true => exact .ok rfl (hwu.withFact_left hj _)
  exact ((hread.recorded_left hj).symm.recorded_left hj).symm

theorem matches_leftOperand (hj : j ∈ K) :
    Matches K Eq ((Expr.var j x).meaning c).value (leftOperand c op (.var j x)) := by
  unfold leftOperand
  simp only [meaning]
  split
  · exact matches_reads hj x true
  · exact matches_reads hj x false

theorem composed_combination (old : TypeSet) :
    Composed c {y | y ∈ v.walk} (combination c op v old) := by
  unfold combination
  split
  · exact (composed_self c v).maybeValue.bind fun t => composed_pure _
  · exact (composed_self c v).value.bind fun t => composed_getTable.bind fun _ => composed_pure _

theorem local_combination (hv : ∀ y ∈ v.walk, y.tag ∉ K) (old : TypeSet) :
    Local K (combination c op v old) := (composed_combination old).isLocal hv

/-- **The two forms end alike**, but for the mark. -/
theorem expanded_update (hop : op ≠ .and ∧ op ≠ .or) (hi : i ∈ K) (hj : j ∈ K) (hi' : i' ∈ K)
    (hj' : j' ∈ K) (hk : k ∈ K) (hv : ∀ y ∈ v.walk, y.tag ∉ K) {w u : Walker} (hwu : Alike K w u) :
    Expanded K x (((combined op i j x v).meaning c).value w)
      (((expanded op i' j' k j x v).meaning c).value u) := by
  rw [value_combined, value_expanded hop]
  refine (matches_leftOperand hj).expanded (fun old w u hwu => ?_) hwu
  refine (local_combination hv old).same.expanded (fun s w u hwu => ?_) hwu
  rw [bind_of_ok (record_eq (hwu.symm.range k hk) s)]
  exact expanded_storing hi hj hi' hj' (hwu.withFact_right hk _) s

theorem byRef_combined (hc : op ≠ .coalesce) {w w' : Walker} {s : TypeSet}
    (h : ((combined op i j x v).meaning c).value w = .ok s w') : s.byRef = false := by
  rw [value_combined] at h
  obtain ⟨old, w1, -, h⟩ := ok_of_bind h
  obtain ⟨t, w2, hcombination, h⟩ := ok_of_bind h
  obtain ⟨w3, hstore, -, -⟩ := of_recorded h
  obtain ⟨_, w4, -, hpure⟩ := ok_of_bind hstore
  cases hpure
  unfold combination at hcombination
  split at hcombination
  · exact absurd rfl hc
  · obtain ⟨_, w5, -, hrest⟩ := ok_of_bind hcombination
    obtain ⟨table, w6, -, hpure⟩ := ok_of_bind hrest
    cases hpure
    exact ShapeTable.byRef_binaryTypes ..

end Compared

/-! ### What is reported -/

section Reports

variable {c : Setting} {op : BinOp} {i j i' j' k : Nat} {x : String} {v : Expr Nat} {w : Walker}

/-- What there is to tell of `x`, the variable `var`, if it has been read once and in this state. -/
def readReport (s : State) (var : Nat) (x : String) : List Concern :=
  if s.certainly.contains var then []
  else if s.possibly.contains var then [.maybeUninitialized x] else [.uninitialized x]

theorem silent_storing (s : TypeSet) : Silent j (storing c i k x s) :=
  .recorded ((silent_store c k x s).bind fun _ => silent_pure s) i

theorem silent_combination (hv : ∀ y ∈ v.walk, y.tag ≠ j) (old : TypeSet) :
    Silent j (combination c op v old) :=
  (local_combination (K := {j}) hv old).silent rfl

theorem siteAt_combined (hv : ∀ y ∈ v.walk, y.tag ≠ j) :
    siteAt (walkerOf (((combined op i j x v).meaning c).value w)) j =
      siteAt (walkerOf (((Expr.var j x).meaning c).value w)) j := by
  rw [value_combined]
  exact Silent.after (fun old => (silent_combination hv old).bind fun s => silent_storing s) w

/-- The long form does so, unless its operator is `??`. -/
theorem siteAt_expanded (hop : op ≠ .and ∧ op ≠ .or) (hv : ∀ y ∈ v.walk, y.tag ≠ j) :
    siteAt (walkerOf (((expanded op i' j' k j x v).meaning c).value w)) j =
      if op = .coalesce then siteAt w j
        else siteAt (walkerOf (((Expr.var j x).meaning c).value w)) j := by
  rw [value_expanded hop]
  refine (Silent.after (fun old => (silent_combination hv old).bind fun s =>
    (silent_record k s).bind fun _ => silent_storing s.plain) w).trans ?_
  unfold leftOperand
  split
  · exact silent_quiet c j x w
  · rfl

theorem Made.gains_walkerOf {β : Type} {m : Walk β} (h : Made True (fun _ => False) m) (w : Walker) :
    w.Gains True (fun _ => False) (walkerOf (m w)) := by
  have hends := h.gains w
  unfold Ends at hends
  revert hends
  rcases m w with ⟨b, w'⟩ | ⟨e, w'⟩ <;> exact fun hends => hends

theorem value_var_run (hj : j < w.routine.facts.size) (hsite : siteAt w j = some none) : ∃ s w',
    ((Expr.var j x).meaning c).value w = .ok s w' ∧
      w'.routine.scope = (lookedUp w x).routine.scope ∧
      siteAt w' j = some (some
        { var := (lookedUp w x).routine.index x
          possibly := w.state.possibly.contains ((lookedUp w x).routine.index x)
          certainly := w.state.certainly.contains ((lookedUp w x).routine.index x) }) := by
  obtain ⟨fact, hfact, hnone⟩ := Option.map_eq_some_iff.1 hsite
  obtain ⟨f, hread, hf⟩ : ∃ f : Fact → Fact, readVariable j x false w =
      .ok (current w.state ((lookedUp w x).routine.index x)) (withFact (lookedUp w x) j f) ∧
      (f fact).read = some
        { var := (lookedUp w x).routine.index x
          possibly := w.state.possibly.contains ((lookedUp w x).routine.index x)
          certainly := w.state.certainly.contains ((lookedUp w x).routine.index x) } := by
    unfold readVariable
    rw [bind_of_ok (useVar_lookedUp w x)]
    refine ⟨_, rfl, ?_⟩
    dsimp only
    rw [hnone]
    rfl
  have hvalue : ((Expr.var j x).meaning c).value = recorded j (readVariable j x false) := by
    rw [meaning]
    rfl
  rw [hvalue]
  refine ⟨_, _, recorded_run hread (lt_of_lt_of_eq hj (Array.size_modify ..).symm), rfl, ?_⟩
  unfold siteAt
  rw [facts_withFact, if_pos rfl, facts_withFact, if_pos rfl,
    show (lookedUp w x).routine.facts[j]? = some fact from hfact]
  exact congrArg some hf

theorem concerns_after (hj : j < w.routine.facts.size) (hsite : siteAt w j = some none)
    {f : TypeSet → Walk TypeSet} (hf : ∀ old, Silent j (f old))
    (hmade : ∀ old, Made True (fun _ => False) (f old)) :
    (walkerOf ((((Expr.var j x).meaning c).value >>= f) w)).routine.concerns (.var j x) =
      readReport w.state ((lookedUp w x).routine.index x) x := by
  obtain ⟨old, w1, hrun, hscope, hsite1⟩ := value_var_run (c := c) (x := x) hj hsite
  rw [bind_of_ok hrun]
  have hindex1 : w1.routine.index x = (lookedUp w x).routine.index x := by
    rw [Routine.index, Routine.index, hscope]
  have hmem : x ∈ w1.routine.scope.names := hscope ▸ (w.routine.scope.use_spec x).1
  -- what follows neither adds to the read nor changes which variable it was
  have hgains := (hmade old).gains_walkerOf w1
  obtain ⟨hmem', hindex⟩ := Routine.index_of_le hgains.routine.scope hmem
  have hsite' := (hf old w1).trans hsite1
  generalize walkerOf (f old w1) = u at hmem' hindex hsite'
  have hname : u.routine.scope.vars[(lookedUp w x).routine.index x]?.map (·.name) = some x := by
    rw [← hindex1, ← hindex, ← List.getElem?_map]
    exact List.getElem?_idxOf hmem'
  obtain ⟨var, hvar, rfl⟩ := Option.map_eq_some_iff.1 hname
  rw [concerns_var, show u.routine.facts[j]?.map Fact.read = _ from hsite']
  simp only [Option.join_some, Option.bind_some, Routine.readConcern, readReport, hvar, Option.map_some]
  split
  · rfl
  · split <;> rfl

theorem made_storing (s : TypeSet) : Made True (fun _ => False) (storing c i j x s) :=
  .recorded (((composed_self c (.var j x)).store s).made_any.bind fun _ => made_pure s) i

theorem concerns_combined (hj : j < w.routine.facts.size) (hsite : siteAt w j = some none)
    (hv : ∀ y ∈ v.walk, y.tag ≠ j) :
    (walkerOf (((combined op i j x v).meaning c).value w)).routine.concerns (.var j x) =
      readReport w.state ((lookedUp w x).routine.index x) x := by
  rw [value_combined]
  refine concerns_after hj hsite (fun old => ?_) fun old => ?_
  · exact (silent_combination hv old).bind fun s => silent_storing s
  · exact (composed_combination old).made_any.bind fun s => made_storing s

theorem concerns_expanded (hop : op ≠ .and ∧ op ≠ .or) (hj : j < w.routine.facts.size)
    (hsite : siteAt w j = some none) (hv : ∀ y ∈ v.walk, y.tag ≠ j) :
    (walkerOf (((expanded op i' j' k j x v).meaning c).value w)).routine.concerns (.var j x) =
      if op = .coalesce then [] else readReport w.state ((lookedUp w x).routine.index x) x := by
  by_cases hc : op = .coalesce
  · have hnone :
        siteAt (walkerOf (((expanded op i' j' k j x v).meaning c).value w)) j = some none := by
      rw [siteAt_expanded hop hv, if_pos hc, hsite]
    rw [if_pos hc, concerns_var, show Option.map _ _ = some none from hnone]
    rfl
  · rw [value_expanded hop, leftOperand, if_neg hc, if_neg hc]
    refine concerns_after hj hsite (fun old => ?_) fun old => ?_
    · exact (silent_combination hv old).bind fun s => (silent_record k s).bind fun _ =>
        silent_storing s.plain
    · exact (composed_combination old).made_any.bind fun s => (made_record k s).bind fun _ =>
        made_storing s.plain

end Reports

/-! ### The result -/

theorem Paired.alike {β γ : Type} {K : Set Nat} {S : β → γ → Prop}
    {y : EStateM.Result Fault Walker β} {z : EStateM.Result Fault Walker γ} (h : Paired K S y z) :
    Alike K (walkerOf y) (walkerOf z) := by
  cases h with
  | ok _ hwu => exact hwu
  | error hwu => exact hwu

theorem Alike.insert {K : Set Nat} {w u : Walker} (h : Alike K w u) {j : Nat}
    (hj : j < w.routine.facts.size) : Alike (Insert.insert j K) w u where
  rest := h.rest
  size := h.size
  range := by
    rintro k (rfl | hk)
    · exact hj
    · exact h.range k hk
  facts k hk := h.facts k fun hmem => hk (.inr hmem)

/-- **`$x op= v` is `$x = $x op v`, unless the operator is `??`.**  The two forms may begin with
walkers that are alike, and `v` may be any expression.  If one fails, so does the other, for the
same reason.  They come to the same types, but for the mark, and leave walkers that are alike, if
the types of `$x` are taken without it; there is no mark for operators other than `??`.  The short
form notes the read of `$x` as `$x` by itself would, and so does the long form, but for `??`, which
notes nothing.  Where `$x` is read for the first time, the short form always reports it, if it is
not certainly initialized; the long form does so unless the operator is `??`. -/
theorem update_expands {c : Setting} {op : BinOp} (hop : op ≠ .and ∧ op ≠ .or) {i j i' j' k : Nat}
    {x : String} {v : Expr Nat} (hj : j ∉ ({i, i', j', k} : Set Nat))
    (hv : ∀ y ∈ v.walk, y.tag ∉ ({j, i, i', j', k} : Set Nat)) {w u : Walker}
    (hwu : Alike {i, i', j', k} w u) (hsize : j < w.routine.facts.size) :
    Expanded {j, i, i', j', k} x (((combined op i j x v).meaning c).value w)
      (((expanded op i' j' k j x v).meaning c).value u) ∧
    (op ≠ .coalesce → Paired {j, i, i', j', k} Eq (((combined op i j x v).meaning c).value w)
      (((expanded op i' j' k j x v).meaning c).value u)) ∧
    siteAt (walkerOf (((combined op i j x v).meaning c).value w)) j =
      siteAt (walkerOf (((Expr.var j x).meaning c).value w)) j ∧
    siteAt (walkerOf (((expanded op i' j' k j x v).meaning c).value u)) j =
      (if op = .coalesce then siteAt w j
        else siteAt (walkerOf (((Expr.var j x).meaning c).value w)) j) ∧
    (siteAt w j = some none →
      (walkerOf (((combined op i j x v).meaning c).value w)).routine.concerns (.var j x) =
        readReport w.state ((lookedUp w x).routine.index x) x ∧
      (walkerOf (((expanded op i' j' k j x v).meaning c).value u)).routine.concerns (.var j x) =
        if op = .coalesce then [] else readReport w.state ((lookedUp w x).routine.index x) x) := by
  have hne : ∀ y ∈ v.walk, y.tag ≠ j := fun y hy heq => hv y hy (Or.inl heq)
  have hends : Expanded {j, i, i', j', k} x (((combined op i j x v).meaning c).value w)
      (((expanded op i' j' k j x v).meaning c).value u) :=
    expanded_update hop (by simp) (by simp) (by simp) (by simp) (by simp) hv (hwu.insert hsize)
  have hsite : siteAt u j = siteAt w j := congrArg (Option.map Fact.read) (hwu.facts j hj)
  have hread : siteAt (walkerOf (((Expr.var j x).meaning c).value u)) j =
      siteAt (walkerOf (((Expr.var j x).meaning c).value w)) j := by
    have hlocal : Local {i, i', j', k} ((Expr.var j x).meaning c).value := by
      refine (isComposed_var (c := c) (E := {.var j x}) rfl).value.isLocal ?_
      rintro e rfl
      exact hj
    exact congrArg (Option.map Fact.read) ((hlocal.same w u hwu).alike.facts j hj)
  refine ⟨hends, fun hc => hends.paired fun s w' h => byRef_combined hc h, siteAt_combined hne, ?_,
    fun hfresh => ⟨concerns_combined hsize hfresh hne, ?_⟩⟩
  · rw [siteAt_expanded hop hne, hsite, hread]
  · rw [concerns_expanded hop (hwu.size.symm ▸ hsize) (hsite.trans hfresh) hne, hwu.rest]
    rfl

/-- The operand `$x = "d"`, which assigns the variable itself. -/
def fallback : Expr Nat := .assign 5 (.var 6 "x") (.lit 7 .string)

/-- At the beginning of a routine with the variable `$x`. -/
def fallbackWalker : Walker :=
  { walkerWith .standard 8 [("x", .void)] with state := .start { id := 1, vars := [{ name := "x" }] } }

/-- `$x ??= ($x = "d")` reports that `$x` is not initialized, and `$x = $x ?? ($x = "d")` reports
nothing.  With `+` in place of `??` there is no difference. -/
theorem fallback_expands :
    (∀ y ∈ fallback.walk, y.tag ∉ ({1, 0, 2, 3, 4} : Set Nat)) ∧
    Expanded {1, 0, 2, 3, 4} "x"
      (((combined .coalesce 0 1 "x" fallback).meaning bareSetting).value fallbackWalker)
      (((expanded .coalesce 2 3 4 1 "x" fallback).meaning bareSetting).value fallbackWalker) ∧
    (walkerOf (((combined .coalesce 0 1 "x" fallback).meaning bareSetting).value
      fallbackWalker)).routine.concerns (.var 1 "x") = [.uninitialized "x"] ∧
    (walkerOf (((expanded .coalesce 2 3 4 1 "x" fallback).meaning bareSetting).value
      fallbackWalker)).routine.concerns (.var 1 "x") = [] ∧
    Paired {1, 0, 2, 3, 4} Eq
      (((combined .add 0 1 "x" fallback).meaning bareSetting).value fallbackWalker)
      (((expanded .add 2 3 4 1 "x" fallback).meaning bareSetting).value fallbackWalker) := by
  have hfresh : ∀ y ∈ fallback.walk, y.tag ∉ ({1, 0, 2, 3, 4} : Set Nat) := by
    simp [fallback, Expr.walk, Expr.tag]
  have hown : (1 : Nat) ∉ ({0, 2, 3, 4} : Set Nat) := by simp
  have halike : Alike {0, 2, 3, 4} fallbackWalker fallbackWalker := by
    apply Alike.refl
    rintro k (rfl | rfl | rfl | rfl) <;> decide
  have hsize : 1 < fallbackWalker.routine.facts.size := by decide
  obtain ⟨hends, -, -, -, hreports⟩ :=
    @update_expands bareSetting .coalesce (by decide) 0 1 2 3 4 "x" _ hown hfresh _ _ halike hsize
  obtain ⟨-, hsame, -, -, -⟩ :=
    @update_expands bareSetting .add (by decide) 0 1 2 3 4 "x" _ hown hfresh _ _ halike hsize
  obtain ⟨hshort, hlong⟩ := hreports (by decide)
  exact ⟨hfresh, hends, hshort, hlong, hsame (by decide)⟩

end Infer

end ShapeFlow
