/-
# Expressions through their operands

An expression is its node and its operands: what holds of every expression
whose operands it holds of holds of all, and a walk is the node followed by the
walks of the operands.  The rules of `Expr.meaning` are restated here for whole
families of operators, and once for every expression that only evaluates its
operands in turn.

Key theorems: `Expr.induct_operands`, `Expr.walk_eq`, `Expr.meanings_eq`,
`Expr.meaning_plain`.
-/
import Mathlib
import ShapeFlow.Infer.Expr

namespace ShapeFlow

open List ShapeFlow.Expr

variable {α : Type}

theorem Expr.sizeAll_eq (es : List (Expr α)) : sizeAll es = (es.map Expr.size).sum := by
  induction es with
  | nil => rfl
  | cons e es ih => rw [sizeAll, ih, map_cons, sum_cons]

theorem Entry.sizeAll_eq (es : List (Entry α)) :
    Entry.sizeAll es = ((es.flatMap Entry.operands).map Expr.size).sum := by
  induction es with
  | nil => rfl
  | cons e es ih =>
    cases e <;>
      simp only [Entry.sizeAll, ih, flatMap_cons, Entry.operands, cons_append,
        nil_append, map_cons, sum_cons, Nat.add_assoc]

theorem Expr.size_eq (e : Expr α) : e.size = 1 + (e.operands.map Expr.size).sum := by
  cases e <;>
    simp only [Expr.size, operands, map_cons, map_nil, sum_cons, sum_nil,
      sizeAll_eq, Entry.sizeAll_eq] <;> omega

variable {e x y : Expr α} {op : BinOp} {c : Setting}

theorem Expr.size_operand_lt (h : x ∈ e.operands) : x.size < e.size := by
  have := single_le_sum (fun _ _ => Nat.zero_le _) _ (mem_map_of_mem (f := Expr.size) h)
  rw [e.size_eq]
  omega

/-- What holds of every expression whose operands it holds of holds of all. -/
theorem Expr.induct_operands {P : Expr α → Prop} (h : ∀ e, (∀ x ∈ e.operands, P x) → P e)
    (e : Expr α) : P e := by
  induction hn : e.size using Nat.strong_induction_on generalizing e with
  | _ n ih => exact h e fun x hx => ih x.size (hn ▸ size_operand_lt hx) x rfl

theorem Expr.walkAll_eq (es : List (Expr α)) : walkAll es = es.flatMap Expr.walk := by
  induction es with
  | nil => rfl
  | cons e es ih => rw [walkAll, ih, flatMap_cons]

theorem Entry.walkAll_eq (es : List (Entry α)) :
    Entry.walkAll es = (es.flatMap Entry.operands).flatMap Expr.walk := by
  induction es with
  | nil => rfl
  | cons e es ih =>
    cases e <;>
      simp only [Entry.walkAll, ih, flatMap_cons, Entry.operands, cons_append,
        nil_append, append_assoc]

theorem Expr.walk_eq (e : Expr α) : e.walk = e :: e.operands.flatMap Expr.walk := by
  cases e <;>
    simp only [Expr.walk, operands, walkAll_eq, Entry.walkAll_eq, flatMap_cons,
      flatMap_nil, append_nil, append_assoc]

theorem Expr.mem_walk_self (e : Expr α) : e ∈ e.walk := by
  rw [e.walk_eq]
  exact .head _

theorem Expr.mem_walk_of_operand (hx : x ∈ e.operands) (hy : y ∈ x.walk) : y ∈ e.walk := by
  rw [e.walk_eq]
  exact mem_cons_of_mem _ (mem_flatMap.2 ⟨x, hx, hy⟩)

theorem Expr.mem_walk : y ∈ e.walk ↔ y = e ∨ ∃ x ∈ e.operands, y ∈ x.walk := by
  rw [e.walk_eq, mem_cons, mem_flatMap]

open Infer

theorem Expr.meanings_eq (c : Setting) (es : List (Expr Nat)) :
    meanings c es = es.map (meaning c) := by
  induction es with
  | nil => rfl
  | cons e es ih => rw [meanings, ih, map_cons]

/-- The key and the value of an entry. -/
def Entry.parts : Entry α → Option (Expr α) × Expr α
  | value v => (none, v)
  | pair k v => (some k, v)

/-- Operators that evaluate both operands and nothing else. -/
def BinOp.IsPlain (op : BinOp) : Prop := op ≠ .and ∧ op ≠ .or ∧ op ≠ .coalesce

theorem BinOp.of_not_isPlain (h : ¬ op.IsPlain) :
    op = .and ∨ op = .or ∨ op = .coalesce := by
  unfold IsPlain at h
  tauto

theorem Expr.meaning_binary (h : op.IsPlain) (c : Setting) (k : Nat) (l r : Expr Nat) :
    (Expr.binary k op l r).meaning c = .ofValue (.binary k op l r) (do
      let s ← (l.meaning c).value
      let t ← (r.meaning c).value
      return (← getTable).binaryTypes op s t) := by
  obtain ⟨hand, hor, hcoalesce⟩ := h
  cases op <;> first | contradiction | rw [meaning] <;> simp

/-! ### Plain expressions

What a plain expression is worth depends on its operands' types and on the shapes alone. -/

/-- Expressions that evaluate their operands in turn and do nothing else. -/
def Expr.IsPlain : Expr Nat → Prop
  | .binary _ op _ _ => op.IsPlain
  | .unary _ op _ => op ≠ .not
  | .lit .. | .cast .. | .instanceOf .. | .method .. | .new .. | .array .. | .isset .. | .concat .. => True
  | _ => False

/-- What the values of an array may be, from the types of its keys and values in turn. -/
def Entry.held : List (Entry α) → List TypeSet → TypeSet → TypeSet
  | .value _ :: es, s :: types, acc => Entry.held es types (acc ∪ s.plain)
  | .pair .. :: es, _ :: s :: types, acc => Entry.held es types (acc ∪ s.plain)
  | _, _, acc => acc

/-- The types of an expression, from those of its operands. -/
def Expr.result (e : Expr Nat) (types : List TypeSet) (t : ShapeTable) : TypeSet × ShapeTable :=
  match e, types with
  | .lit _ kind, _ => (kind.types, t)
  | .binary _ op _ _, [l, r] => (t.binaryTypes op l r, t)
  | .unary _ op _, [s] => (t.unaryTypes op s.plain, t)
  | .cast _ kind _, [s] => (t.castTypes kind s.plain, t)
  | .instanceOf .., _ | .isset .., _ => (.bool, t)
  | .concat .., _ => (.string, t)
  | .new _ className _, _ => t.named className
  | .array _ entries, types => t.arrayOf (Entry.held entries types .void)
  | _, _ => (.any, t)

/-- How an expression evaluates its operands. -/
def Expr.look : Expr Nat → Meaning → Walk TypeSet
  | .isset .. => Meaning.quiet
  | _ => Meaning.value

/-- Evaluates the operands in turn. -/
def Expr.gather (c : Setting) (e : Expr Nat) : Walk TypeSet := do
  let types ← e.operands.mapM fun x => e.look (x.meaning c)
  intern (e.result types)

theorem Expr.look_cases (e : Expr Nat) : e.look = Meaning.value ∨ e.look = Meaning.quiet := by
  cases e <;> simp [look]

theorem Infer.discard_eq {β : Type} (m : Walk β) : (discard m : Walk PUnit) = m >>= fun _ => pure ⟨⟩ :=
  map_eq_pure_bind _ m

theorem Expr.forM_meanings {f : Meaning → Walk TypeSet} (es : List (Expr Nat)) :
    ((meanings c es).forM fun m => discard (f m)) = (do
      let _ ← es.mapM fun x => f (x.meaning c)
      return ⟨⟩) := by
  induction es with
  | nil => rfl
  | cons e es ih => simp_all [meanings, discard_eq]

theorem Expr.foldlM_meanings (entries : List (Entry Nat)) (acc : TypeSet) :
    (Entry.meanings c entries).foldlM (fun s (key, value) => do
      if let some k := key then discard k.value
      return s ∪ (← value.value).plain) acc = (do
      let types ← (entries.flatMap Entry.operands).mapM fun x => (meaning c x).value
      return Entry.held entries types acc) := by
  induction entries generalizing acc with
  | nil => rfl
  | cons e entries ih =>
    rcases e with v | ⟨k, v⟩ <;> rw [Entry.meanings, foldlM_cons] <;> simp only [ih] <;>
      simp [Entry.operands, Entry.held, discard_eq]

variable {e : Expr Nat}

/-- **A plain expression is found from its operands.** -/
theorem Expr.meaning_plain (h : e.IsPlain) (c : Setting) : e.meaning c = .ofValue e (e.gather c) := by
  cases e with
  | binary k op l r =>
    rw [meaning_binary h]
    simp [gather, operands, look]
    rfl
  | unary k op operand =>
    have hnot : op ≠ .not := h
    cases op <;> first | contradiction | (rw [meaning] <;> simp [gather, operands, look]; rfl)
  | lit | cast | instanceOf =>
    rw [meaning]
    simp [gather, operands, look]
    rfl
  | method | new | isset | concat =>
    rw [meaning, forM_meanings]
    simp [gather, operands, look]
    rfl
  | array k entries =>
    rw [meaning]
    refine congrArg (Meaning.ofValue _) ((congrArg (· >>= _) (foldlM_meanings entries .void)).trans ?_)
    simp [gather, operands, look]
    rfl
  | _ => cases h

theorem Expr.gather_field (c : Setting) (k : Nat) (object : Expr Nat) (name : String) :
    (Expr.field k object name).gather c = (do
      let _ ← (object.meaning c).value
      return .any) := by
  simp [gather, operands, look]
  rfl

theorem Expr.gather_append (c : Setting) (k : Nat) (array : Expr Nat) :
    (Expr.append k array).gather c = (do
      let _ ← (array.meaning c).value
      return .any) := by
  simp [gather, operands, look]
  rfl

end ShapeFlow
