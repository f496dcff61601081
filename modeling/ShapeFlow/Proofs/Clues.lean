/-
# What outcomes tell

Whatever a condition that came out some way tells about the variables, it tells of
one operand after the other: the outcome of a test for null or for a kind, the class
it is an instance of, a limit that it keeps.  `narrow` is restated here as going
through these clues, so that what a walk keeps has to be shown for each of them only.

Key definitions: `Test`, `Clue`, `Expr.clues`.
Key theorems: `Infer.narrow_eq`, `Expr.clues_cases`, `Expr.mem_clues`.
-/
import ShapeFlow.Proofs.Operands
import ShapeFlow.Proofs.States

namespace ShapeFlow

open List Infer ShapeFlow.Flow

/-- A test of a variable: a comparison with null, or a check of its kind. -/
inductive Test where
  | null (op : BinOp)
  | kind (kind : Kind)

/-- The state after a test of variable `var` came out as `outcome`. -/
def Test.change (t : ShapeTable) (var : Nat) (s : State) : Test → Bool → State
  | null .identical, true | null .notIdentical, false => s.narrow var .null
  | null .identical, false | null .notIdentical, true | null .eq, false | null .notEq, true =>
    s.assign var ((current s var).remove .null)
  | null _, _ => s
  | kind k, true =>
    let found := t.restrict (current s var) k
    let found := if found.isVoid || found.isAny then k.representative else found
    if k = .null then s.narrow var found else s.assign var found
  | kind k, false =>
    if k = .null then s.assign var ((current s var).remove .null)
    else s.narrow var ((current s var).remove (t.ofKind k))

theorem Test.change_cases (t : ShapeTable) (var : Nat) (s : State) (q : Test) (outcome : Bool) :
    q.change t var s outcome = s ∨ ∃ m, (t.Valid → t.Knows (current s var) → t.Knows m) ∧
      (q.change t var s outcome = s.narrow var m ∨ q.change t var s outcome = s.assign var m) := by
  have hnotNull : t.Valid → t.Knows (current s var) → t.Knows ((current s var).remove .null) :=
    fun _ h => h.remove _
  unfold Test.change
  split
  · exact .inr ⟨_, fun ht _ => ht.knows_null, .inl rfl⟩
  · exact .inr ⟨_, fun ht _ => ht.knows_null, .inl rfl⟩
  · exact .inr ⟨_, hnotNull, .inr rfl⟩
  · exact .inr ⟨_, hnotNull, .inr rfl⟩
  · exact .inr ⟨_, hnotNull, .inr rfl⟩
  · exact .inr ⟨_, hnotNull, .inr rfl⟩
  · exact .inl rfl
  next k =>
    have hfound : t.Valid → t.Knows (current s var) → t.Knows
        (if (t.restrict (current s var) k).isVoid || (t.restrict (current s var) k).isAny
          then k.representative else t.restrict (current s var) k) := fun ht h =>
      (ht.knows_representative k).ite (ShapeTable.knows_restrict h k)
    dsimp only
    split
    · exact .inr ⟨_, hfound, .inl rfl⟩
    · exact .inr ⟨_, hfound, .inr rfl⟩
  · split
    · exact .inr ⟨_, hnotNull, .inr rfl⟩
    · exact .inr ⟨_, fun _ h => h.remove _, .inl rfl⟩

section Change

variable {t : ShapeTable} {s : State} {id n var : Nat}

theorem Test.fits_change (h : State.Fits id n s) (hvar : var < n) (q : Test) (outcome : Bool) :
    State.Fits id n (q.change t var s outcome) := by
  rcases q.change_cases t var s outcome with heq | ⟨m, -, heq | heq⟩ <;> rw [heq]
  · exact h
  · exact h.narrow hvar m
  · exact h.assign hvar m

theorem Test.known_change (ht : t.Valid) (h : State.Known t s) (q : Test) (outcome : Bool) :
    State.Known t (q.change t var s outcome) := by
  rcases q.change_cases t var s outcome with heq | ⟨m, hm, heq | heq⟩ <;> rw [heq]
  · exact h
  · exact h.narrow ht (hm ht (h.current ht var)) var
  · exact h.assign (hm ht (h.current ht var)) var

end Change

/-- What is told about an operand. -/
inductive Clue where
  | test (test : Test) (outcome : Bool)
  | isA (className : String)
  /-- It keeps the limit if `other` is an integer. -/
  | limit (limit : Limit) (other : Expr Nat)

/-- The operand of a comparison that is compared with null. -/
def Expr.compared? (l r : Expr Nat) : Option (Expr Nat) :=
  match l.isNull, r.isNull with
  | false, true => some l
  | true, false => some r
  | _, _ => none

/-- What `e` tells if it came out as `outcome`. -/
def Expr.clues (e : Expr Nat) (outcome : Bool) : List (Expr Nat × Clue) :=
  match e, outcome with
  | .var .., true => [(e, .test (.null .notIdentical) true)]
  | .assign _ target _, true => [(target, .test (.null .notIdentical) true)]
  | .isset _ operands, true => operands.map (·, .test (.null .notIdentical) true)
  | .isset _ [v], false => [(v, .test (.null .notIdentical) false)]
  | .call _ name [arg], outcome => (Library.checks? name).toList.map fun k => (arg, .test (.kind k) outcome)
  | .instanceOf _ operand className, true => [(operand, .isA className)]
  | .binary _ .lt l r, true => [(l, .limit .belowMax r), (r, .limit .aboveMin l)]
  | .binary _ .gt l r, true => [(r, .limit .belowMax l), (l, .limit .aboveMin r)]
  | .binary _ op l r, outcome =>
    if op = .identical || op = .notIdentical || op = .eq || op = .notEq then
      (compared? l r).toList.map (·, .test (.null op) outcome)
    else []
  | _, _ => []

namespace Infer

variable {e : Expr Nat}

/-- Whether only integers have been recorded for an expression. -/
def isIntSoFar (k : Nat) : Walk Bool := do
  let t ← getTable
  let s ← recordedTypes k
  return t.isKind s .int

/-- What `narrowByOrder` adds for an operand that is a variable. -/
def noteLimit (limit : Limit) (known : Bool) (e : Expr Nat) : Walk Unit := do
  if known then
    if let some var ← varOf? e then
      modifyState (·.addNote ⟨var, limit⟩)

/-- Takes a clue about `e` into account. -/
def learn (e : Expr Nat) : Clue → Walk Unit
  | .test q outcome => do
    if let some var ← varOf? e then
      let t ← getTable
      modifyState fun s => q.change t var s outcome
  | .isA className => do
    if let some var ← varOf? e then
      let s ← intern (·.named className)
      modifyState (·.assign var s)
  | .limit limit other => do noteLimit limit (← isIntSoFar other.tag) e

theorem narrowByOrder_eq (low high : Expr Nat) : narrowByOrder low high = (do
    noteLimit .belowMax (← isIntSoFar high.tag) low
    noteLimit .aboveMin (← isIntSoFar low.tag) high) := by
  unfold narrowByOrder isIntSoFar noteLimit
  simp only [bind_assoc, pure_bind]
  refine bind_congr fun t => bind_congr fun s => ?_
  rcases h : t.isKind s .int
  · rfl
  · simp only [if_true, bind_assoc]
    refine bind_congr fun o => ?_
    cases o <;> rfl

theorem narrowByNull_eq (var : Nat) (op : BinOp) (outcome : Bool) : narrowByNull var op outcome = (do
    let t ← getTable
    modifyState fun s => Test.change t var s (.null op) outcome) := by
  cases op <;> cases outcome <;> rfl

theorem narrowByKind_eq (var : Nat) (kind : Kind) (outcome : Bool) :
    narrowByKind var kind outcome = (do
      let t ← getTable
      modifyState fun s => Test.change t var s (.kind kind) outcome) := by
  unfold narrowByKind
  refine bind_congr fun t => ?_
  cases outcome
  · by_cases hk : kind = .null <;> simp only [Test.change, hk] <;> rfl
  · rfl

/-- **An outcome is taken into account clue by clue.** -/
theorem narrow_eq (e : Expr Nat) (outcome : Bool) :
    narrow e outcome = (e.clues outcome).forM fun p => learn p.1 p.2 := by
  have hone : ∀ x clue, ([(x, clue)] : List (Expr Nat × Clue)).forM (fun p => learn p.1 p.2) = learn x clue :=
    fun x clue => by simp
  fun_cases Expr.clues e outcome with
  | case1 | case2 | case4 | case6 =>
    rw [hone]
    rfl
  | case3 =>
    rw [forM_eq_forM, forM_map, narrow, forM_eq_forM]
    rfl
  | case5 _ name arg =>
    simp only [narrow, narrowByKind_eq]
    rcases Library.checks? name with _ | k
    · rfl
    · exact (hone arg (.test (.kind k) outcome)).symm
  | case7 | case8 =>
    rw [narrow, narrowByOrder_eq]
    simp [learn]
  | case9 _ op l r =>
    rename_i hop _ _
    simp only [narrow, narrowByNull_eq]
    rw [if_pos hop]
    unfold comparedWithNull Expr.compared?
    rcases l.isNull <;> rcases r.isNull <;> first
      | rfl
      | exact (hone l (.test (.null op) outcome)).symm
      | exact (hone r (.test (.null op) outcome)).symm
  | case10 =>
    rename_i hop _ _
    simp only [narrow]
    rw [if_neg hop]
    rfl
  | case11 =>
    unfold narrow
    split <;> first | rfl | grind

end Infer

namespace Expr

variable {e : Expr Nat} {outcome : Bool} {p : Expr Nat × Clue}

theorem mem_clues (h : p ∈ e.clues outcome) : p.1 = e ∨ p.1 ∈ e.operands := by
  unfold clues compared? at h
  split at h <;> grind [operands]

theorem limit_mem_clues {limit : Limit} {other : Expr Nat} (h : p ∈ e.clues outcome)
    (hp : p.2 = .limit limit other) : other ∈ e.operands := by
  unfold clues at h
  split at h <;> grind [operands]

/-- Where both outcomes tell something, they tell opposite things about one operand. -/
theorem clues_cases (e : Expr Nat) : e.clues false = [] ∨
    ∃ x ∈ e.operands, ∃ q, (∀ b, e.clues b = [(x, .test q b)]) ∧
      ∀ kind, q = .kind kind → ∃ k name, e = .call k name [x] ∧ Library.checks? name = some kind := by
  cases e with
  | isset k operands =>
    rcases operands with _ | ⟨v, _ | ⟨_, _⟩⟩
    · exact .inl rfl
    · exact .inr ⟨v, .head _, .null .notIdentical, fun b => by cases b <;> rfl, by simp⟩
    · exact .inl rfl
  | call k name args =>
    rcases args with _ | ⟨arg, _ | ⟨_, _⟩⟩
    · exact .inl rfl
    · rcases hcheck : Library.checks? name with _ | kind
      · exact .inl (by simp [clues, hcheck])
      · exact .inr ⟨arg, .head _, .kind kind, fun b => by simp [clues, hcheck],
          fun _ heq => ⟨k, name, rfl, by simpa [hcheck] using heq⟩⟩
    · exact .inl rfl
  | binary k op l r =>
    by_cases hop : op = .identical ∨ op = .notIdentical ∨ op = .eq ∨ op = .notEq
    · rcases hx : compared? l r with _ | x
      · exact .inl (by rcases hop with rfl | rfl | rfl | rfl <;> simp [clues, hx])
      · have hmem : x ∈ [l, r] := by
          unfold compared? at hx
          grind
        refine .inr ⟨x, hmem, .null op, fun b => ?_, by simp⟩
        rcases hop with rfl | rfl | rfl | rfl <;> simp [clues, hx]
    · exact .inl (by cases op <;> simp_all [clues])
  | _ => exact .inl rfl

end Expr

end ShapeFlow
