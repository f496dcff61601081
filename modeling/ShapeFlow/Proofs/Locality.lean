/-
# What walks look at

A walk through an expression looks at facts about the expressions inside it only.  So
two walkers that differ in what they know of other expressions take the same way
through it: they come to the same result, or fail for the same reason, and do the same
to states, tables, calls and facts.  What they differed in before, they differ in after:
nothing is written about other expressions either.

Key definitions: `Infer.Alike`, `Infer.Paired`, `Infer.Matches`, `Infer.Local`.
Key theorems: `Infer.Matches.bind`, `Infer.Composed.isLocal`.
-/
import ShapeFlow.Proofs.Steps

namespace ShapeFlow

open ShapeFlow.Flow

namespace Infer

/-! ### Walkers that differ in facts -/

section Alike

variable {K : Set Nat} {w v u : Walker}

/-- The walkers differ at most in what they know of the expressions in `K`, all of which
are expressions of the routine. -/
structure Alike (K : Set Nat) (w v : Walker) : Prop where
  rest : v = withFacts w v.routine.facts
  size : v.routine.facts.size = w.routine.facts.size
  range : ∀ k ∈ K, k < w.routine.facts.size
  facts : ∀ k ∉ K, v.routine.facts[k]? = w.routine.facts[k]?

theorem Alike.refl (hrange : ∀ k ∈ K, k < w.routine.facts.size) : Alike K w w :=
  ⟨rfl, rfl, hrange, fun _ _ => rfl⟩

theorem Alike.symm (h : Alike K w v) : Alike K v w where
  rest := by rw [h.rest]; rfl
  size := h.size.symm
  range k hk := h.size ▸ h.range k hk
  facts k hk := (h.facts k hk).symm

theorem Alike.trans (h : Alike K w v) (h' : Alike K v u) : Alike K w u where
  rest := by rw [h'.rest, h.rest]; rfl
  size := h'.size.trans h.size
  range := h.range
  facts k hk := (h'.facts k hk).trans (h.facts k hk)

theorem Alike.withFact (h : Alike K w v) (k : Nat) (f : Fact → Fact) :
    Alike K (withFact w k f) (withFact v k f) where
  rest := by rw [h.rest]; rfl
  size := by simpa [Infer.withFact] using h.size
  range j hj := by simpa [Infer.withFact] using h.range j hj
  facts j hj := by rw [facts_withFact, facts_withFact, h.facts j hj]

/-- One of them may write anything about an expression of `K`. -/
theorem Alike.withFact_left (h : Alike K w v) {k : Nat} (hk : k ∈ K) (f : Fact → Fact) :
    Alike K (Infer.withFact w k f) v where
  rest := by rw [h.rest]; rfl
  size := by simpa [Infer.withFact] using h.size
  range j hj := by simpa [Infer.withFact] using h.range j hj
  facts j hj := by
    have hne : k ≠ j := by
      rintro rfl
      exact hj hk
    rw [facts_withFact, if_neg hne, h.facts j hj]

end Alike

/-! ### Steps that match -/

section Matches

variable {β γ δ ε : Type} {K : Set Nat} {S T : β → γ → Prop} {S' : δ → ε → Prop} {k : Nat}
  {m : Walk β} {n : Walk γ} {f : β → Walk δ} {x : EStateM.Result Fault Walker β}
  {y : EStateM.Result Fault Walker γ}

/-- Both have a result, related by `S`, or both have failed for the same reason, and the
walkers they leave are alike. -/
inductive Paired (K : Set Nat) (S : β → γ → Prop) :
    EStateM.Result Fault Walker β → EStateM.Result Fault Walker γ → Prop
  | ok {b : β} {c : γ} {w v : Walker} : S b c → Alike K w v → Paired K S (.ok b w) (.ok c v)
  | error {f : Fault} {w v : Walker} : Alike K w v → Paired K S (.error f w) (.error f v)

/-- From walkers that are alike the two steps end alike. -/
def Matches (K : Set Nat) (S : β → γ → Prop) (m : Walk β) (n : Walk γ) : Prop :=
  ∀ w v, Alike K w v → Paired K S (m w) (n v)

theorem Matches.bind {g : γ → Walk ε} (hm : Matches K S m n)
    (hf : ∀ b c, S b c → Matches K S' (f b) (g c)) :
    Matches K S' (m >>= f) (n >>= g) := by
  intro w v hwv
  have hpair := hm w v hwv
  show Paired K S' (EStateM.bind m f w) (EStateM.bind n g v)
  unfold EStateM.bind
  revert hpair
  generalize m w = x
  generalize n v = y
  intro hpair
  cases hpair with
  | ok hbc hwv' => exact hf _ _ hbc _ _ hwv'
  | error hwv' => exact .error hwv'

theorem Paired.mono (h : Paired K S x y) (hS : ∀ b c, S b c → T b c) :
    Paired K T x y := by
  cases h with
  | ok hbc hwv => exact .ok (hS _ _ hbc) hwv
  | error hwv => exact .error hwv

theorem Paired.symm (h : Paired K S x y) : Paired K (fun c b => S b c) y x := by
  cases h with
  | ok hbc hwv => exact .ok hbc hwv.symm
  | error hwv => exact .error hwv.symm

theorem Paired.trans {T : γ → δ → Prop} {z : EStateM.Result Fault Walker δ} (h : Paired K S x y)
    (h' : Paired K T y z) : Paired K (fun b d => ∃ c, S b c ∧ T c d) x z := by
  cases h with
  | ok hbc hwv =>
    cases h' with
    | ok hcd hvu => exact .ok ⟨_, hbc, hcd⟩ (hwv.trans hvu)
  | error hwv =>
    cases h' with
    | error hvu => exact .error (hwv.trans hvu)

theorem Matches.mono (hm : Matches K S m n) (hS : ∀ b c, S b c → T b c) : Matches K T m n :=
  fun w v hwv => (hm w v hwv).mono hS

theorem Matches.symm (hm : Matches K S m n) :
    Matches K (fun c b => S b c) n m :=
  fun v w hvw => (hm w v hvw.symm).symm

theorem Matches.trans {T : γ → δ → Prop} {o : Walk δ} (hm : Matches K S m n) (hn : Matches K T n o) :
    Matches K (fun b d => ∃ c, S b c ∧ T c d) m o :=
  fun w v hwv => (hm w v hwv).trans (hn v v (.refl fun k hk => hwv.size ▸ hwv.range k hk))

/-- Nothing is known or written of the expressions in `K`: walkers that are alike go the same way
and stay alike, and what there was to know of those expressions stays. -/
structure Local (K : Set Nat) (m : Walk β) : Prop where
  same : Matches K Eq m m
  frame : ∀ w, ∀ k ∈ K, (walkerOf (m w)).routine.facts[k]? = w.routine.facts[k]?

theorem Local.bind (hm : Local K m) (hf : ∀ b, Local K (f b)) :
    Local K (m >>= f) where
  same := .bind hm.same fun b _ hbc => hbc ▸ (hf b).same
  frame w k hk := by
    have hfirst := hm.frame w k hk
    show (walkerOf (EStateM.bind m f w)).routine.facts[k]? = _
    unfold EStateM.bind
    revert hfirst
    rcases m w with ⟨b, w'⟩ | ⟨e, w'⟩
    · exact fun hfirst => ((hf b).frame w' k hk).trans hfirst
    · exact fun hfirst => hfirst

/-! ### Steps that look at no facts -/

theorem Blind.isLocal (h : Blind m) : Local K m := by
  -- with the facts there are, the step leaves the facts there are
  have hself : ∀ w, m w = resultWith w.routine.facts (m w) := fun w => h w w.routine.facts
  constructor
  · intro w v hwv
    have hother : m v = resultWith v.routine.facts (m w) := by
      conv_lhs => rw [hwv.rest]
      exact h w v.routine.facts
    rw [hself w, hother]
    rcases m w with ⟨b, u⟩ | ⟨f, u⟩
    · exact .ok rfl ⟨rfl, hwv.size, hwv.range, hwv.facts⟩
    · exact .error ⟨rfl, hwv.size, hwv.range, hwv.facts⟩
  · intro w k _
    rw [hself w]
    rcases m w with ⟨b, u⟩ | ⟨f, u⟩ <;> rfl

theorem local_pure (b : β) : Local K (pure b : Walk β) :=
  Blind.isLocal fun _ _ => rfl

theorem local_getState : Local K getState := Blind.isLocal fun _ _ => rfl

theorem local_setState (s : State) : Local K (setState s) := Blind.isLocal fun _ _ => rfl

theorem local_modifyState (f : State → State) : Local K (modifyState f) :=
  Blind.isLocal fun _ _ => rfl

theorem blind_ofExcept (x : Except Fault β) : Blind (ofExcept x) := by
  intro w facts
  cases x <;> rfl

theorem local_joinWith (before : State) : Local K (joinWith before) :=
  local_getState.bind fun _ => (blind_ofExcept _).isLocal.bind local_setState

theorem local_useVar (name : String) : Local K (useVar name) := Blind.isLocal fun _ _ => rfl

/-! ### Steps on facts -/

theorem facts_withFact_of_not_mem {w : Walker} {j : Nat} (hk : k ∉ K) (hj : j ∈ K) (f : Fact → Fact) :
    (withFact w k f).routine.facts[j]? = w.routine.facts[j]? := by
  have hne : k ≠ j := by
    rintro rfl
    exact hk hj
  rw [facts_withFact, if_neg hne]

theorem local_modifyFact (hk : k ∉ K) (f : Fact → Fact) :
    Local K (modifyRoutine fun r => { r with facts := r.facts.modify k f }) where
  same _ _ hwv := .ok rfl (hwv.withFact k f)
  frame _ _ hj := facts_withFact_of_not_mem hk hj f

theorem record_result (k : Nat) (s : TypeSet) (w : Walker) :
    record k s w = if k < w.routine.facts.size then
      .ok () (withFact w k fun x => { x with types := x.types ∪ s }) else .error (.unknownExpr k) w := by
  rw [record, getRoutine_bind]
  split <;> rfl

theorem local_record (hk : k ∉ K) (s : TypeSet) : Local K (record k s) := by
  constructor
  · intro w v hwv
    rw [record_result, record_result, hwv.size]
    split
    · exact .ok rfl (hwv.withFact k _)
    · exact .error hwv
  · intro w j hj
    rw [record_result]
    split
    · exact facts_withFact_of_not_mem hk hj _
    · rfl

theorem Local.recorded {m : Walk TypeSet} (h : Local K m) (hk : k ∉ K) :
    Local K (recorded k m) :=
  h.bind fun s => (local_record hk s).bind fun _ => local_pure s

theorem local_recordedTypes (hk : k ∉ K) : Local K (recordedTypes k) := by
  refine ⟨fun w v hwv => .ok ?_ hwv, fun _ _ _ => rfl⟩
  show (w.routine.facts[k]?.map (·.types)).getD .any = (v.routine.facts[k]?.map (·.types)).getD .any
  rw [hwv.facts k hk]

theorem local_readVariable (hk : k ∉ K) (name : String) (quiet : Bool) :
    Local K (readVariable k name quiet) := by
  refine (local_useVar name).bind fun var => local_getState.bind fun s => ?_
  split
  · exact (local_modifyFact hk _).bind fun _ => local_pure _
  · exact local_pure _

theorem matches_shortCircuit {l l' r r' : Meaning} {runs runs' b b' : Branch}
    (hb : b = runs ↔ b' = runs')
    (hruns : Matches K (fun _ _ => True) (l.assume runs) (l'.assume runs'))
    (hdecides : Matches K (fun _ _ => True) (l.assume runs.negate) (l'.assume runs'.negate))
    (hr : Matches K (fun _ _ => True) (r.assume b) (r'.assume b')) :
    Matches K (fun _ _ => True) (Meaning.shortCircuit runs l r b)
      (Meaning.shortCircuit runs' l' r' b') := by
  unfold Meaning.shortCircuit
  by_cases heq : b = runs
  · rw [if_pos heq, if_pos (hb.1 heq)]
    refine .bind hruns fun _ _ _ => .bind hr fun _ _ _ => ?_
    exact (local_pure ()).same.mono fun _ _ _ => trivial
  · rw [if_neg heq, if_neg fun heq' => heq (hb.2 heq')]
    refine .bind local_getState.same fun start _ hstart => ?_
    refine .bind hdecides fun _ _ _ => ?_
    refine .bind local_getState.same fun decided _ hdecided => ?_
    subst hstart hdecided
    refine .bind (local_setState start).same fun _ _ _ => .bind hruns fun _ _ _ => ?_
    refine .bind hr fun _ _ _ => (local_joinWith decided).same.mono fun _ _ _ => trivial

/-- **An expression does not look outside.**  Its steps touch facts about the expressions inside it
only. -/
theorem Composed.isLocal {c : Setting} {E : Set (Expr Nat)} (h : Composed c E m)
    (hK : ∀ e ∈ E, e.tag ∉ K) : Local K m := by
  induction h with
  | blind hblind _ _ => exact hblind.isLocal
  | record s he => exact local_record (hK _ he) s
  | recordedTypes he => exact local_recordedTypes (hK _ he)
  | bindCall target he _ => exact local_modifyFact (hK _ he) _
  | markCall target he _ =>
    have hmark : Local K (addFlags { dynamicCall := true }) := Blind.isLocal fun _ _ => rfl
    exact hmark.bind fun _ => local_modifyFact (hK _ he) _
  | read quiet he hblind _ _ =>
    refine .recorded ?_ (hK _ he)
    exact (local_readVariable (hK _ he) _ quiet).bind fun s => hblind.isLocal.bind fun _ => local_pure s
  | bind _ _ ihm ihf => exact ihm.bind ihf

end Matches

end Infer
end ShapeFlow
