/-
# Negations in conditions

A negation swaps the outcomes of what it negates, and which outcome of the left operand
makes the right one of `&&` and `||` run.  So pushing negations inwards, at any depth of a
condition, changes nothing: its operands are gone through as often, in the same order, from
the same states and under the same outcomes.  Only the nodes of the condition itself are
others, and no operand looks at what is recorded for those.

Both conditions are compared with their common outline, which keeps the operands and the
outcome that is asked of each and has no nodes to record anything for.

Key definitions: `Expr.Pushes`, `Expr.connectives`, `Expr.tests`, `Outline`, `Expr.outline`.
Key theorems: `Expr.Pushes.outline_eq`, `Infer.matches_outline`, `Infer.pushing_transparent`.
-/
import ShapeFlow.Proofs.Locality

namespace ShapeFlow

open ShapeFlow.Flow Infer List ShapeFlow.Expr

variable {e e' : Expr Nat}

/-! ### Pushing negations inwards -/

namespace Expr

/-- The second condition is the first with some of its negations pushed inwards.  Its `!`, `&&`
and `||` may have other numbers; the operands stay as they are. -/
inductive Pushes : Expr Nat → Expr Nat → Prop
  | refl (e : Expr Nat) : Pushes e e
  | trans {e e' e'' : Expr Nat} : Pushes e e' → Pushes e' e'' → Pushes e e''
  /-- `!!e` is `e`. -/
  | double (i j : Nat) (e : Expr Nat) : Pushes (.unary i .not (.unary j .not e)) e
  /-- `!(l && r)` is `!l || !r`. -/
  | notAnd (i j k m n : Nat) (l r : Expr Nat) : Pushes (.unary i .not (.binary j .and l r))
      (.binary k .or (.unary m .not l) (.unary n .not r))
  /-- `!(l || r)` is `!l && !r`. -/
  | notOr (i j k m n : Nat) (l r : Expr Nat) : Pushes (.unary i .not (.binary j .or l r))
      (.binary k .and (.unary m .not l) (.unary n .not r))
  | not (i j : Nat) {e e' : Expr Nat} : Pushes e e' → Pushes (.unary i .not e) (.unary j .not e')
  | and (i j : Nat) {l l' r r' : Expr Nat} : Pushes l l' → Pushes r r' →
      Pushes (.binary i .and l r) (.binary j .and l' r')
  | or (i j : Nat) {l l' r r' : Expr Nat} : Pushes l l' → Pushes r r' →
      Pushes (.binary i .or l r) (.binary j .or l' r')

/-- The numbers of the nodes a condition is put together by. -/
def connectives : Expr Nat → List Nat
  | .unary k .not e => k :: e.connectives
  | .binary k .and l r => k :: (l.connectives ++ r.connectives)
  | .binary k .or l r => k :: (l.connectives ++ r.connectives)
  | _ => []

/-- The operands of a condition, which `!`, `&&` and `||` put together. -/
def tests : Expr Nat → List (Expr Nat)
  | .unary _ .not e => e.tests
  | .binary _ .and l r => l.tests ++ r.tests
  | .binary _ .or l r => l.tests ++ r.tests
  | e => [e]

end Expr

/-- The outcome, or the opposite one. -/
def Infer.Branch.signed (b : Branch) : Bool → Branch
  | true => b
  | false => b.negate

/-- What is asked of the operands of a condition, and in which order. -/
inductive Outline where
  /-- The operand, or its negation. -/
  | test (e : Expr Nat) (sign : Bool)
  /-- The right part is only asked if the left one comes out as `runs`. -/
  | short (runs : Branch) (l r : Outline)

namespace Outline

def tests : Outline → List (Expr Nat)
  | test e _ => [e]
  | short _ l r => l.tests ++ r.tests

/-- Goes through the operands as a condition of this outline does. -/
def assume (c : Setting) : Outline → Branch → Walk TypeSet
  | test e sign, b => (e.meaning c).assume (b.signed sign)
  | short runs l r, b => do
    Meaning.shortCircuit runs { (default : Meaning) with assume := l.assume c }
      { (default : Meaning) with assume := r.assume c } b
    return .bool

end Outline

/-- The outline of a condition, or of its negation. -/
def Expr.outline : Expr Nat → Bool → Outline
  | .unary _ .not e, sign => e.outline (!sign)
  | .binary _ .and l r, sign => .short (Branch.holds.signed sign) (l.outline sign) (r.outline sign)
  | .binary _ .or l r, sign => .short (Branch.fails.signed sign) (l.outline sign) (r.outline sign)
  | e, sign => .test e sign

theorem Expr.Pushes.outline_eq (h : e.Pushes e') (sign : Bool) :
    e'.outline sign = e.outline sign := by
  induction h generalizing sign with
  | refl => rfl
  | trans _ _ ih ih' => exact (ih' sign).trans (ih sign)
  | double i j e => simp only [outline, Bool.not_not]
  | notAnd | notOr => cases sign <;> rfl
  | not i j _ ih => exact ih _
  | and i j _ _ ihl ihr | or i j _ _ ihl ihr => simp only [outline, ihl, ihr]

theorem Expr.tests_outline (e : Expr Nat) (sign : Bool) : (e.outline sign).tests = e.tests := by
  fun_induction outline e sign with
  | case1 _ _ _ ih => simpa only [tests] using ih
  | case2 _ _ _ _ ihl ihr | case3 _ _ _ _ ihl ihr =>
    simp only [Outline.tests, tests, ihl, ihr]
  | case4 e sign hnot hand hor =>
    rw [tests]
    · rfl
    all_goals assumption

theorem Expr.Pushes.tests_eq (h : e.Pushes e') : e'.tests = e.tests := by
  rw [← e'.tests_outline true, h.outline_eq true, e.tests_outline true]

theorem Expr.perm_tags (e : Expr Nat) : (e.walk.map Expr.tag).Perm
    (e.connectives ++ e.tests.flatMap fun t => t.walk.map Expr.tag) := by
  rw [perm_iff_count]
  intro a
  fun_induction connectives e with
  | case1 k e ih =>
    simp only [Expr.walk, tests, Expr.tag, map_cons, cons_append, count_cons, ih]
  | case2 k l r ihl ihr | case3 k l r ihl ihr =>
    simp only [Expr.walk, tests, Expr.tag, map_cons, map_append, cons_append,
      flatMap_append, count_cons, count_append] at ihl ihr ⊢
    omega
  | case4 e hnot hand hor =>
    rw [tests]
    · simp
    all_goals assumption

theorem Expr.connectives_fresh (h : (e.walk.map Expr.tag).Nodup) {t x : Expr Nat} (ht : t ∈ e.tests)
    (hx : x ∈ t.walk) : x.tag ∉ e.connectives := by
  have hdisjoint := (nodup_append.1 (e.perm_tags.nodup_iff.1 h)).2.2
  intro hmem
  refine hdisjoint _ hmem x.tag ?_ rfl
  exact mem_flatMap.2 ⟨t, ht, mem_map_of_mem hx⟩

/-! ### Going through conditions -/

namespace Infer

section Conditions

variable {K : Set Nat} {c : Setting} {e e' : Expr Nat} {sign : Bool}

theorem Branch.signed_signed (b : Branch) (sign : Bool) : (b.signed sign).signed sign = b := by
  cases b <;> cases sign <;> rfl

theorem Branch.negate_signed (b : Branch) (sign : Bool) :
    (b.signed sign).negate = b.negate.signed sign := by
  cases b <;> cases sign <;> rfl

theorem Branch.signed_not (b : Branch) (sign : Bool) : b.signed (!sign) = (b.signed sign).negate := by
  cases b <;> cases sign <;> rfl

theorem Branch.signed_eq_iff {b b' : Branch} : b.signed sign = b' ↔ b = b'.signed sign := by
  cases b <;> cases b' <;> cases sign <;> decide

theorem Matches.recorded_left {β : Type} {S : TypeSet → β → Prop} {m : Walk TypeSet} {n : Walk β}
    (h : Matches K S m n) {k : Nat} (hk : k ∈ K) : Matches K S (recorded k m) n := by
  rw [← bind_pure n]
  refine .bind h fun s b hsb w v hwv => ?_
  have hrecord := record_eq (hwv.range k hk) s
  rw [bind_of_ok hrecord]
  exact .ok hsb (hwv.withFact_left hk _)

theorem Matches.andReturn {β γ : Type} {m : Walk β} {n : Walk γ}
    (h : Matches K (fun _ _ => True) m n) (s t : TypeSet) :
    Matches K (fun _ _ => True) (do let _ ← m; return s) (do let _ ← n; return t) :=
  .bind h fun _ _ _ _ _ hwv => .ok trivial hwv

/-- Short circuits go through their parts as their outline does. -/
theorem matches_short {k : Nat} (hk : k ∈ K) {l r : Expr Nat} {runs : Branch}
    (ihl : ∀ b, Matches K (fun _ _ => True) ((l.meaning c).assume (b.signed sign))
      ((l.outline sign).assume c b))
    (ihr : ∀ b, Matches K (fun _ _ => True) ((r.meaning c).assume (b.signed sign))
      ((r.outline sign).assume c b)) (b : Branch) :
    Matches K (fun _ _ => True)
      (recorded k do
        Meaning.shortCircuit runs (l.meaning c) (r.meaning c) (b.signed sign)
        return .bool)
      ((Outline.short (runs.signed sign) (l.outline sign) (r.outline sign)).assume c b) := by
  have hruns := ihl (runs.signed sign)
  have hdecides := ihl (runs.signed sign).negate
  rw [Branch.signed_signed] at hruns
  rw [Branch.negate_signed, Branch.signed_signed, ← Branch.negate_signed] at hdecides
  refine Matches.recorded_left (Matches.andReturn ?_ .bool .bool) hk
  exact matches_shortCircuit Branch.signed_eq_iff hruns hdecides (ihr b)

/-- **A condition goes through its operands as its outline says.**  All else it does is to record
something for its own nodes. -/
theorem matches_outline (hconnectives : ∀ k ∈ e.connectives, k ∈ K)
    (htests : ∀ t ∈ e.tests, ∀ x ∈ t.walk, x.tag ∉ K) (sign : Bool) (b : Branch) :
    Matches K (fun _ _ => True) ((e.meaning c).assume (b.signed sign))
      ((e.outline sign).assume c b) := by
  fun_induction outline e sign generalizing b with
  | case1 k sign e ih =>
    have hk := hconnectives k (by simp [connectives])
    have hinner := ih (fun j hj => hconnectives j (by simp [connectives, hj]))
      (by simpa only [tests] using htests) b
    rw [Branch.signed_not] at hinner
    rw [meaning]
    refine Matches.recorded_left ?_ hk
    rw [← bind_pure (Outline.assume c _ b)]
    refine .bind (S := fun _ _ => True) ?_ fun _ _ _ _ _ hwv => .ok trivial hwv
    rw [← bind_pure (Outline.assume c _ b)]
    exact .bind hinner fun _ _ _ _ _ hwv => .ok trivial hwv
  | case2 k l r sign ihl ihr | case3 k l r sign ihl ihr =>
    simp only [connectives, tests, mem_cons, mem_append] at hconnectives htests
    rw [meaning]
    refine matches_short (hconnectives k (.inl rfl)) (fun b => ihl ?_ ?_ b) (fun b => ihr ?_ ?_ b) b
    · exact fun j hj => hconnectives j (.inr (.inl hj))
    · exact fun t ht => htests t (.inl ht)
    · exact fun j hj => hconnectives j (.inr (.inr hj))
    · exact fun t ht => htests t (.inr ht)
  | case4 e sign hnot hand hor =>
    have hself : e ∈ e.tests := by
      rw [tests]
      · exact mem_singleton_self e
      all_goals assumption
    have hassume := (composed_self c e).assume
    exact ((hassume _).isLocal (htests e hself)).same.mono fun _ _ _ => trivial

/-- **Pushing negations inwards changes nothing.**  A condition and what becomes of it when
negations are pushed inwards have the same operands.  Under each of the three outcomes they leave
walkers that are alike: the same state, table, calls and reports, and the same facts about all
expressions but the `!`, `&&` and `||` of the conditions, to which no node of an operand belongs.
If one of them fails, so does the other, for the same reason.  They may begin with walkers that
are alike, so this holds of any number of them in a row. -/
theorem pushing_transparent (h : e.Pushes e') (he : (e.walk.map Expr.tag).Nodup)
    (he' : (e'.walk.map Expr.tag).Nodup) (b : Branch) {w v : Walker}
    (hwv : Alike {k | k ∈ e.connectives ∨ k ∈ e'.connectives} w v) :
    e'.tests = e.tests ∧
      (∀ t ∈ e.tests, ∀ x ∈ t.walk, x.tag ∉ e.connectives ∧ x.tag ∉ e'.connectives) ∧
      Paired {k | k ∈ e.connectives ∨ k ∈ e'.connectives} (fun _ _ => True)
        ((e.meaning c).assume b w) ((e'.meaning c).assume b v) := by
  have htests := h.tests_eq
  have hfresh : ∀ t ∈ e.tests, ∀ x ∈ t.walk, x.tag ∉ e.connectives ∧ x.tag ∉ e'.connectives :=
    fun t ht x hx => ⟨connectives_fresh he ht hx,
      connectives_fresh he' (htests ▸ ht) hx⟩
  have hnot : ∀ t ∈ e.tests, ∀ x ∈ t.walk,
      x.tag ∉ {k | k ∈ e.connectives ∨ k ∈ e'.connectives} := fun t ht x hx hmem =>
    hmem.elim (hfresh t ht x hx).1 (hfresh t ht x hx).2
  refine ⟨htests, hfresh, ?_⟩
  have hleft := matches_outline (c := c) (fun k hk => Or.inl hk) hnot true b
  have hright := matches_outline (c := c) (e := e') (fun k hk => Or.inr hk) (htests ▸ hnot) true b
  rw [h.outline_eq true] at hright
  exact ((hleft.trans hright.symm) w v hwv).mono fun _ _ _ => trivial

/-- The condition `!(($x = $y) && !is_int($x))`. -/
def refused : Expr Nat :=
  .unary 0 .not (.binary 1 .and (.assign 2 (.var 3 "x") (.var 4 "y"))
    (.unary 5 .not (.call 6 "is_int" [.var 7 "x"])))

/-- The condition `!($x = $y) || is_int($x)`. -/
def excused : Expr Nat :=
  .binary 0 .or (.unary 8 .not (.assign 2 (.var 3 "x") (.var 4 "y"))) (.call 6 "is_int" [.var 7 "x"])

theorem refused_pushes : refused.Pushes excused :=
  (Pushes.notAnd 0 1 0 8 9 _ _).trans (.or 0 0 (.refl _) (.double 9 5 _))

/-- Just before `refused`, where nothing is known of `$y`. -/
def refusedWalker : Walker :=
  { walkerWith .standard 10 [("x", .void), ("y", .any)] with
    state := { scope := 1, slots := [.void, .any], possibly := .insert .empty 1, certainly := .empty } }

/-- The assignment comes first in both, and the check looks at what it has given `$x`. -/
theorem refused_transparent : refused.Pushes excused ∧
    (refused.walk.map Expr.tag).Nodup ∧ (excused.walk.map Expr.tag).Nodup ∧
    excused.tests = refused.tests ∧
      (∀ t ∈ refused.tests, ∀ x ∈ t.walk,
        x.tag ∉ refused.connectives ∧ x.tag ∉ excused.connectives) ∧
      Paired {k | k ∈ refused.connectives ∨ k ∈ excused.connectives} (fun _ _ => True)
        ((refused.meaning bareSetting).assume .holds refusedWalker)
        ((excused.meaning bareSetting).assume .holds refusedWalker) := by
  have hrefused : (refused.walk.map Expr.tag).Nodup := by decide
  have hexcused : (excused.walk.map Expr.tag).Nodup := by decide
  have hsmall : ∀ k ∈ refused.connectives ++ excused.connectives, k < 10 := by decide
  refine ⟨refused_pushes, hrefused, hexcused, ?_⟩
  apply pushing_transparent refused_pushes hrefused hexcused .holds
  apply Alike.refl
  intro k hk
  simpa [refusedWalker, walkerWith] using hsmall k (List.mem_append.2 hk)

end Conditions

end Infer

end ShapeFlow
