/-
# What code initializes

Whether a variable has a value after some code depends on the code alone, not on
types: an assignment gives it one, `unset` takes it away, a condition that could
not have come out so of null tells that it has one.  Here this is read off the
code, for each way a condition can come out; that the analysis follows it is
shown afterwards.

Key definitions: `Inits`, `Effect`, `Expr.effect`, `Graph.transfer`.
Key theorem: `Graph.steady_transfer`.
-/
import ShapeFlow.Proofs.Clues

namespace ShapeFlow

open ShapeFlow.Flow Infer

namespace Flow

/-- The variables that have a value: on some path to a point, on every path to it. -/
structure Inits where
  possibly : VarSet := .empty
  certainly : VarSet := .empty
deriving DecidableEq

namespace Inits

def assign (m : Inits) (i : Nat) : Inits := ⟨m.possibly.insert i, m.certainly.insert i⟩

def unset (m : Inits) (i : Nat) : Inits := ⟨m.possibly.erase i, m.certainly.erase i⟩

/-- What holds where two paths meet. -/
def join (a b : Inits) : Inits := ⟨a.possibly ∪ b.possibly, a.certainly ∩ b.certainly⟩

end Inits

/-- What a state says of initialization. -/
def State.inits (s : State) : Inits := ⟨s.possibly, s.certainly⟩

end Flow

/-! ### What code initializes -/

/-- The comparison came out so that its operands are not both null. -/
def BinOp.tellsApart : BinOp → Bool → Bool
  | .identical, outcome | .eq, outcome => !outcome
  | .notIdentical, outcome | .notEq, outcome => outcome
  | _, _ => false

/-- The variable that a comparison compares with null. -/
def Expr.comparedVar? (l r : Expr Nat) : Option String :=
  match l.isNull, r.isNull with
  | false, true => l.varName?
  | true, false => r.varName?
  | _, _ => none

/-- The variables that must have a value if the expression came out as `outcome`. -/
def Expr.provenBy : Expr Nat → Bool → List String
  | .var _ name, true => [name]
  | .assign _ target _, true => target.varName?.toList
  | .isset _ operands, true => operands.filterMap Expr.varName?
  | .call _ name [arg], outcome =>
    match Library.checks? name with
    | some kind => if outcome = decide (kind ≠ .null) then arg.varName?.toList else []
    | none => []
  | .instanceOf _ operand _, true => operand.varName?.toList
  | .binary _ op l r, outcome =>
    if op.tellsApart outcome then (Expr.comparedVar? l r).toList else []
  | _, _ => []

/-- The clue tells that the variable has a value. -/
def Clue.proves : Clue → Bool
  | .test (.null op) outcome => op.tellsApart outcome
  | .test (.kind kind) outcome => outcome = decide (kind ≠ .null)
  | .isA _ => true
  | .limit .. => false

theorem Expr.provenBy_eq (e : Expr Nat) (outcome : Bool) : e.provenBy outcome =
    (e.clues outcome).flatMap fun p => if p.2.proves then p.1.varName?.toList else [] := by
  have hcompared : ∀ l r, Expr.comparedVar? l r = (Expr.compared? l r).bind Expr.varName? := fun l r => by
    unfold Expr.comparedVar? Expr.compared?
    rcases l.isNull <;> rcases r.isNull <;> rfl
  have hisset : ∀ l : List (Expr Nat), l.filterMap Expr.varName? = (l.map fun x =>
      (x, Clue.test (.null .notIdentical) true)).flatMap fun p =>
        if p.2.proves then p.1.varName?.toList else [] := fun l => by
    induction l with
    | nil => rfl
    | cons x l ih => cases hx : x.varName? <;> simp_all [Clue.proves, BinOp.tellsApart]
  unfold Expr.provenBy Expr.clues
  split
  · rfl
  · simp [Clue.proves, BinOp.tellsApart]
  · exact hisset _
  next name arg => rcases h : Library.checks? name with _ | kind <;> simp [Clue.proves, h]
  · simp [Clue.proves]
  next op l r =>
    rw [hcompared]
    rcases h : Expr.compared? l r with _ | x <;> cases op <;> cases outcome <;>
      simp [Clue.proves, BinOp.tellsApart, h]
  · split <;> first | rfl | grind [Clue.proves, BinOp.tellsApart]

/-- How an expression initializes variables: when it comes out in some way, and when
it is stored into. -/
structure Effect where
  assume : Branch → Inits → Inits
  store : Inits → Inits

namespace Effect

/-- Whatever the expression comes out. -/
def value (f : Effect) : Inits → Inits := f.assume .either

/-- What outcome `b` of `e` proves. -/
def proven (ix : String → Nat) (e : Expr Nat) (b : Branch) (m : Inits) : Inits :=
  match b with
  | .either => m
  | .holds => (e.provenBy true).foldl (fun m name => m.assign (ix name)) m
  | .fails => (e.provenBy false).foldl (fun m name => m.assign (ix name)) m

/-- The effect of `e` from that of its parts. -/
def ofParts (ix : String → Nat) (e : Expr Nat) (parts : Inits → Inits) : Effect where
  assume b m := proven ix e b (parts m)
  store := parts

/-- The effect of an expression that is true or false by the outcome of its operands. -/
def ofCondition (step : Branch → Inits → Inits) : Effect where
  assume := step
  store := step .either

/-- The right operand runs only if the left one came out as `runs`. -/
def shortCircuit (runs : Branch) (l r : Effect) (b : Branch) (m : Inits) : Inits :=
  if b = runs then r.assume b (l.assume runs m)
  else (l.assume runs.negate m).join (r.assume b (l.assume runs m))

end Effect

mutual

/-- How an expression initializes variables; `ix` gives the index of a variable. -/
def Expr.effect (ix : String → Nat) : Expr Nat → Effect
  | e@(.lit ..) => .ofParts ix e id
  | e@(.var _ name) => { Effect.ofParts ix e id with store := fun m => m.assign (ix name) }
  | e@(.assign _ target value) =>
    .ofParts ix e fun m => (target.effect ix).store ((value.effect ix).value m)
  | e@(.update _ op target value) =>
    .ofParts ix e fun m =>
      let before := (target.effect ix).value m
      let after := (value.effect ix).value before
      (target.effect ix).store (if op = .coalesce then before.join after else after)
  | e@(.step _ _ target) =>
    .ofParts ix e fun m => (target.effect ix).store ((target.effect ix).value m)
  | .binary _ .and l r => .ofCondition (Effect.shortCircuit .holds (l.effect ix) (r.effect ix))
  | .binary _ .or l r => .ofCondition (Effect.shortCircuit .fails (l.effect ix) (r.effect ix))
  | e@(.binary _ .coalesce l r) =>
    .ofParts ix e fun m =>
      ((l.effect ix).value m).join ((r.effect ix).value ((l.effect ix).value m))
  | e@(.binary _ _ l r) => .ofParts ix e fun m => (r.effect ix).value ((l.effect ix).value m)
  | .unary _ .not operand => .ofCondition fun b => (operand.effect ix).assume b.negate
  | e@(.unary _ _ operand) | e@(.cast _ _ operand) | e@(.instanceOf _ operand _)
  | e@(.field _ operand _) => .ofParts ix e (operand.effect ix).value
  | e@(.choose _ cond yes no) =>
    .ofParts ix e fun m =>
      ((yes.effect ix).value ((cond.effect ix).assume .holds m)).join
        ((no.effect ix).value ((cond.effect ix).assume .fails m))
  | e@(.orElse _ cond no) =>
    .ofParts ix e fun m =>
      ((cond.effect ix).assume .holds m).join ((no.effect ix).value ((cond.effect ix).assume .fails m))
  | e@(.call _ _ args) | e@(.new _ _ args) | e@(.isset _ args) | e@(.concat _ args) =>
    .ofParts ix e (Expr.effects ix args)
  | e@(.method _ object _ args) =>
    .ofParts ix e fun m => Expr.effects ix args ((object.effect ix).value m)
  | e@(.item _ array key) =>
    { Effect.ofParts ix e (fun m => (key.effect ix).value ((array.effect ix).value m)) with
      store := fun m =>
        (array.effect ix).store ((array.effect ix).value ((key.effect ix).value m)) }
  | e@(.append _ array) =>
    { Effect.ofParts ix e (array.effect ix).value with
      store := fun m => (array.effect ix).store ((array.effect ix).value m) }
  | e@(.array _ entries) => .ofParts ix e (Entry.effects ix entries)

/-- Expressions one after the other. -/
def Expr.effects (ix : String → Nat) : List (Expr Nat) → Inits → Inits
  | [], m => m
  | e :: es, m => Expr.effects ix es ((e.effect ix).value m)

/-- Keys and values one after the other. -/
def Entry.effects (ix : String → Nat) : List (Entry Nat) → Inits → Inits
  | [], m => m
  | .value v :: es, m => Entry.effects ix es ((v.effect ix).value m)
  | .pair k v :: es, m => Entry.effects ix es ((v.effect ix).value ((k.effect ix).value m))

end

/-- An expression that need not be there. -/
def Expr.optEffect (ix : String → Nat) : Option (Expr Nat) → Inits → Inits
  | some e => (e.effect ix).value
  | none => id

/-- How an operation initializes variables. -/
def Op.effect (ix : String → Nat) : Op Nat → Inits → Inits
  | .eval e, m => (e.effect ix).value m
  | .static name init, m => (Expr.optEffect ix init m).assign (ix name)
  | .global names, m => names.foldl (fun m name => m.assign (ix name)) m
  | .unset names, m => names.foldl (fun m name => m.unset (ix name)) m

/-- How leaving a block along an edge initializes variables. -/
def Exit.effect (ix : String → Nat) : Exit Nat → Label → Inits → Inits
  | .fall, _, m => m
  | .branch cond, label, m =>
    (cond.effect ix).assume (if label = .onFalse then .fails else .holds) m
  | .each source key value, label, m =>
    let done := (source.effect ix).value m
    if label = .onFalse then done
    else
      (match key with
        | some k => done.assign (ix k)
        | none => done).assign (ix value)
  | .ret _, _, m => m

/-- What is initialized after going through a block and leaving it along an edge. -/
def Graph.transfer (ix : String → Nat) (g : Graph Nat) (b : Nat) (label : Label) (m : Inits) : Inits :=
  match g.blocks[b]? with
  | some k => k.exit.effect ix label (k.ops.foldl (fun m o => o.effect ix m) m)
  | none => m

/-! ### Each variable by itself

What becomes of a variable depends only on that variable, and having a value before never
hurts.  So the effect of code on a union of paths is the union of its effects. -/

/-- Each variable is treated by itself, monotonically. -/
structure Steady (T : Inits → Inits) : Prop where
  possibly : ∀ (i : Nat) (a b : Inits),
    (a.possibly.contains i = true → b.possibly.contains i = true) →
    (T a).possibly.contains i = true → (T b).possibly.contains i = true
  certainly : ∀ (i : Nat) (a b : Inits),
    (a.certainly.contains i = true → b.certainly.contains i = true) →
    (T a).certainly.contains i = true → (T b).certainly.contains i = true

namespace Steady

variable {T U : Inits → Inits}

protected theorem id : Steady id := ⟨fun _ _ _ h => h, fun _ _ _ h => h⟩

theorem comp (hT : Steady T) (hU : Steady U) : Steady fun m => U (T m) where
  possibly i a b h := hU.possibly i _ _ (hT.possibly i a b h)
  certainly i a b h := hU.certainly i _ _ (hT.certainly i a b h)

theorem join (hT : Steady T) (hU : Steady U) : Steady fun m => (T m).join (U m) where
  possibly i a b h := by
    simp only [Inits.join, VarSet.contains_union, Bool.or_eq_true]
    exact Or.imp (hT.possibly i a b h) (hU.possibly i a b h)
  certainly i a b h := by
    simp only [Inits.join, VarSet.contains_inter, Bool.and_eq_true]
    exact And.imp (hT.certainly i a b h) (hU.certainly i a b h)

theorem assign (hT : Steady T) (j : Nat) : Steady fun m => (T m).assign j where
  possibly i a b h := by
    simp only [Inits.assign, VarSet.contains_insert, Bool.or_eq_true]
    exact Or.imp_left (hT.possibly i a b h)
  certainly i a b h := by
    simp only [Inits.assign, VarSet.contains_insert, Bool.or_eq_true]
    exact Or.imp_left (hT.certainly i a b h)

theorem unset (hT : Steady T) (j : Nat) : Steady fun m => (T m).unset j where
  possibly i a b h := by
    simp only [Inits.unset, VarSet.contains_erase, Bool.and_eq_true]
    exact And.imp_left (hT.possibly i a b h)
  certainly i a b h := by
    simp only [Inits.unset, VarSet.contains_erase, Bool.and_eq_true]
    exact And.imp_left (hT.certainly i a b h)

theorem foldl {α : Type} {f : Inits → α → Inits} (hf : ∀ x, Steady fun m => f m x) :
    ∀ l : List α, Steady fun m => l.foldl f m
  | [] => Steady.id
  | x :: l => (hf x).comp (foldl hf l)

end Steady

section Effects

variable {ix : String → Nat}

theorem Expr.effects_eq (es : List (Expr Nat)) (m : Inits) :
    Expr.effects ix es m = es.foldl (fun m e => (e.effect ix).value m) m := by
  induction es generalizing m with
  | nil => rfl
  | cons e es ih => rw [Expr.effects, ih, List.foldl_cons]

theorem Entry.effects_eq (es : List (Entry Nat)) (m : Inits) :
    Entry.effects ix es m =
      (es.flatMap Entry.operands).foldl (fun m e => (e.effect ix).value m) m := by
  induction es generalizing m with
  | nil => rfl
  | cons e es ih => cases e <;> rw [Entry.effects, ih] <;> rfl

theorem Expr.effect_plain {e : Expr Nat} (h : e.IsPlain) :
    e.effect ix = .ofParts ix e fun m => e.operands.foldl (fun m x => (x.effect ix).value m) m := by
  cases e with
  | binary k op l r =>
    obtain ⟨hand, hor, hcoalesce⟩ := h
    cases op <;> first | contradiction | (rw [Expr.effect] <;> simp [operands])
  | unary k op operand =>
    have hnot : op ≠ .not := h
    cases op <;> first | contradiction | (rw [Expr.effect] <;> simp [operands])
  | lit | cast | instanceOf => rw [Expr.effect]; rfl
  | method | new | isset | concat =>
    rw [Expr.effect]
    exact congrArg (Effect.ofParts ix _) (funext fun m => effects_eq _ _)
  | array =>
    rw [Expr.effect]
    exact congrArg (Effect.ofParts ix _) (funext fun m => Entry.effects_eq _ m)
  | _ => cases h

/-- Both ways of using the expression treat each variable by itself. -/
structure Effect.IsSteady (f : Effect) : Prop where
  assume : ∀ b, Steady (f.assume b)
  store : Steady f.store

theorem Effect.IsSteady.value {f : Effect} (h : f.IsSteady) : Steady f.value := h.assume .either

theorem Effect.steady_proven (e : Expr Nat) (b : Branch) : Steady (Effect.proven ix e b) := by
  cases b with
  | either => exact Steady.id
  | holds | fails => exact Steady.foldl (fun name => Steady.id.assign (ix name)) _

theorem Effect.isSteady_ofParts {e : Expr Nat} {parts : Inits → Inits} (h : Steady parts) :
    (Effect.ofParts ix e parts).IsSteady :=
  ⟨fun b => h.comp (steady_proven e b), h⟩

theorem Effect.isSteady_ofCondition {step : Branch → Inits → Inits} (h : ∀ b, Steady (step b)) :
    (Effect.ofCondition step).IsSteady := ⟨h, h .either⟩

theorem Effect.steady_shortCircuit {l r : Effect} (hl : l.IsSteady) (hr : r.IsSteady)
    (runs b : Branch) : Steady (Effect.shortCircuit runs l r b) := by
  unfold shortCircuit
  split
  · exact (hl.assume runs).comp (hr.assume b)
  · exact (hl.assume runs.negate).join ((hl.assume runs).comp (hr.assume b))

theorem Expr.isSteady_effect (e : Expr Nat) : (e.effect ix).IsSteady := by
  induction e using Expr.induct_operands with
  | _ e ih =>
  have hall : Steady fun m => e.operands.foldl (fun m e => (e.effect ix).value m) m := by
    have hlist : ∀ l : List (Expr Nat), (∀ x ∈ l, (x.effect ix).IsSteady) →
        Steady fun m => l.foldl (fun m e => (e.effect ix).value m) m := by
      intro l
      induction l with
      | nil => exact fun _ => Steady.id
      | cons x l ihl =>
        exact fun h => (h x (.head _)).value.comp
          (ihl fun y hy => h y (.tail _ hy))
    exact hlist e.operands ih
  by_cases hplain : e.IsPlain
  · rw [Expr.effect_plain hplain]
    exact Effect.isSteady_ofParts hall
  cases e with
  | var k name => exact { Effect.isSteady_ofParts Steady.id with store := Steady.id.assign _ }
  | assign k target value =>
    have ht := ih target (.head _)
    have hv := ih value (.tail _ (.head _))
    rw [Expr.effect]
    exact Effect.isSteady_ofParts (hv.value.comp ht.store)
  | update k op target value =>
    have ht := ih target (.head _)
    have hv := ih value (.tail _ (.head _))
    have hafter := ht.value.comp hv.value
    rw [Expr.effect]
    apply Effect.isSteady_ofParts
    by_cases hop : op = .coalesce
    · simp only [hop, if_true]
      exact (ht.value.join hafter).comp ht.store
    · simp only [hop, if_false]
      exact hafter.comp ht.store
  | step k op target =>
    have ht := ih target (.head _)
    rw [Expr.effect]
    exact Effect.isSteady_ofParts (ht.value.comp ht.store)
  | binary k op l r =>
    have hl := ih l (.head _)
    have hr := ih r (.tail _ (.head _))
    rcases BinOp.of_not_isPlain hplain with rfl | rfl | rfl <;> rw [Expr.effect]
    · exact Effect.isSteady_ofCondition fun b => Effect.steady_shortCircuit hl hr _ b
    · exact Effect.isSteady_ofCondition fun b => Effect.steady_shortCircuit hl hr _ b
    · exact Effect.isSteady_ofParts (hl.value.join (hl.value.comp hr.value))
  | unary k op operand =>
    obtain rfl : op = .not := not_not.1 hplain
    rw [Expr.effect]
    exact Effect.isSteady_ofCondition fun b => (ih operand (.head _)).assume b.negate
  | field k operand name =>
    rw [Expr.effect]
    exact Effect.isSteady_ofParts (ih operand (.head _)).value
  | choose k cond yes no =>
    have hc := ih cond (.head _)
    have hy := ih yes (.tail _ (.head _))
    have hn := ih no (by simp [Expr.operands])
    rw [Expr.effect]
    exact Effect.isSteady_ofParts
      (((hc.assume .holds).comp hy.value).join ((hc.assume .fails).comp hn.value))
  | orElse k cond no =>
    have hc := ih cond (.head _)
    have hn := ih no (.tail _ (.head _))
    rw [Expr.effect]
    exact Effect.isSteady_ofParts ((hc.assume .holds).join ((hc.assume .fails).comp hn.value))
  | call k name args =>
    rw [Expr.effect, show Expr.effects ix args = _ from funext (Expr.effects_eq args)]
    exact Effect.isSteady_ofParts hall
  | item k array key =>
    have ha := ih array (.head _)
    have hk := ih key (.tail _ (.head _))
    rw [Expr.effect]
    exact { Effect.isSteady_ofParts (ha.value.comp hk.value) with
      store := hk.value.comp (ha.value.comp ha.store) }
  | append k array =>
    have ha := ih array (.head _)
    rw [Expr.effect]
    exact { Effect.isSteady_ofParts ha.value with store := ha.value.comp ha.store }
  | _ => exact absurd trivial hplain

theorem Op.steady_effect (o : Op Nat) : Steady (o.effect ix) := by
  cases o with
  | eval e => exact e.isSteady_effect.value
  | static name init =>
    cases init with
    | none => exact Steady.id.assign _
    | some e => exact e.isSteady_effect.value.assign _
  | global names => exact Steady.foldl (fun name => Steady.id.assign _) names
  | unset names => exact Steady.foldl (fun name => Steady.id.unset _) names

theorem Exit.steady_effect (x : Exit Nat) (label : Label) : Steady (x.effect ix label) := by
  cases x with
  | fall | ret => exact Steady.id
  | branch cond => exact cond.isSteady_effect.assume _
  | each source key value =>
    have hs : (source.effect ix).IsSteady := source.isSteady_effect
    unfold Exit.effect
    by_cases hlabel : label = .onFalse
    · simp only [hlabel, if_true]
      exact hs.value
    · simp only [hlabel, if_false]
      cases key with
      | none => exact hs.value.assign _
      | some k => exact (hs.value.assign _).assign _

/-- **Each variable by itself**, along every edge. -/
theorem Graph.steady_transfer (g : Graph Nat) (b : Nat) (label : Label) :
    Steady (g.transfer ix b label) := by
  unfold Graph.transfer
  split
  · exact (Steady.foldl (fun o => o.steady_effect) _).comp (Exit.steady_effect _ label)
  · exact Steady.id

end Effects

end ShapeFlow
