/-
# Runs of a body

A run of a body is a matter of chance: each condition may turn out either way.
What can be seen of it are events: operations, conditions with their outcomes,
turns of loops over elements and the return.  `Rest.step` runs a body statement
by statement, with the loops around it; a jump leaves the innermost of them or
has it tested again.  The numbers of expressions play no part in a run.

Key definitions: `Event`, `Emits`, `Answers`, `Rest.step`, `Stmt.traces`.
Key theorems: `Emits.answer`, `Rest.step_bare`, `Stmt.traces_bareAll`.
-/
import Mathlib
import ShapeFlow.Graph
import ShapeFlow.Lang.Stmt

namespace ShapeFlow

variable {α : Type}

/-- What can be seen of a run. -/
inductive Event (α : Type) where
  | op (o : Op α)
  | test (cond : Expr α) (outcome : Bool)
  /-- A loop over `source` has another element for its variables, or none. -/
  | turn (source : Expr α) (key : Option String) (value : String) (outcome : Bool)
  /-- Without an expression, null is returned. -/
  | ret (e : Option (Expr α))

/-! ### Runs -/

section Emits

variable {σ τ ε : Type} {step : σ → Option ε → Option σ → Prop} {step' : τ → Option ε → Option τ → Prop}

/-- The events of finitely many steps; a step to nowhere ends the run. -/
inductive Emits (step : σ → Option ε → Option σ → Prop) : σ → List ε → Prop
  | stop (s : σ) : Emits step s []
  | go {s s' : σ} {o : Option ε} {l : List ε} : step s o (some s') → Emits step s' l →
    Emits step s (o.toList ++ l)
  | finish {s : σ} {o : Option ε} : step s o none → Emits step s o.toList

/-- From `t` a run can do what a step to `s` did, and go on from where `R` holds. -/
def Answers (step' : τ → Option ε → Option τ → Prop) (R : σ → τ → Prop) (t : τ) (o : Option ε) :
    Option σ → Prop
  | none => Emits step' t o.toList
  | some s => ∃ t', R s t' ∧ ∀ l, Emits step' t' l → Emits step' t (o.toList ++ l)

variable {R : σ → τ → Prop}

variable {o : Option ε} {t t' : τ} {s : σ}

theorem Answers.one (h : step' t o (some t')) (hR : R s t') :
    Answers step' R t o (some s) := ⟨t', hR, fun _ hl => .go h hl⟩

theorem Answers.stay (hR : R s t) : Answers step' R t none (some s) :=
  ⟨t, hR, fun _ hl => hl⟩

theorem Answers.silent {s : Option σ} (h : step' t none (some t')) (h' : Answers step' R t' o s) :
    Answers step' R t o s := by
  cases s with
  | none =>
    have := Emits.go h h'
    exact this
  | some s =>
    obtain ⟨u, hR, hu⟩ := h'
    refine ⟨u, hR, fun l hl => ?_⟩
    have := Emits.go h (hu l hl)
    exact this

/-- If every step is answered, every run is. -/
theorem Emits.answer (h : ∀ s t o s', R s t → step s o s' → Answers step' R t o s') {l : List ε}
    (hl : Emits step s l) : ∀ {t : τ}, R s t → Emits step' t l := by
  induction hl with
  | stop => exact fun _ => .stop _
  | go hs _ ih =>
    intro t hR
    obtain ⟨t', hR', ht'⟩ := h _ t _ _ hR hs
    exact ht' _ (ih hR')
  | finish hs =>
    intro t hR
    exact h _ t _ _ hR hs

end Emits

/-! ### Bodies -/

/-- What is left of a run: the statements to run next, and the loops around them, the
innermost first, each with what follows it. -/
structure Rest (α : Type) where
  next : List (Stmt α)
  loops : List (Stmt α × List (Stmt α)) := []

namespace Rest

/-- The next step, if a condition that it tests turns out as given.  A jump without a loop
around it goes nowhere. -/
def step (outcome : Bool) : Rest α → Option (Option (Event α) × Option (Rest α))
  | ⟨[], []⟩ => some (some (.ret none), none)
  | ⟨[], (s, ss) :: loops⟩ => some (none, some ⟨s :: ss, loops⟩)
  | ⟨.eval e :: ss, loops⟩ => some (some (.op (.eval e)), some ⟨ss, loops⟩)
  | ⟨.static name init :: ss, loops⟩ => some (some (.op (.static name init)), some ⟨ss, loops⟩)
  | ⟨.global names :: ss, loops⟩ => some (some (.op (.global names)), some ⟨ss, loops⟩)
  | ⟨.unset names :: ss, loops⟩ => some (some (.op (.unset names)), some ⟨ss, loops⟩)
  | ⟨.block body :: ss, loops⟩ => some (none, some ⟨body ++ ss, loops⟩)
  | ⟨.branch cond yes no :: ss, loops⟩ =>
    some (some (.test cond outcome), some ⟨(if outcome then yes else no) ++ ss, loops⟩)
  | ⟨.loop cond body :: ss, loops⟩ =>
    some (some (.test cond outcome),
      some (if outcome then ⟨body, (.loop cond body, ss) :: loops⟩ else ⟨ss, loops⟩))
  | ⟨.each source key value body :: ss, loops⟩ =>
    some (some (.turn source key value outcome),
      some (if outcome then ⟨body, (.each source key value body, ss) :: loops⟩ else ⟨ss, loops⟩))
  | ⟨.ret e :: _, _⟩ => some (some (.ret e), none)
  | ⟨.leave :: _, (_, ss) :: loops⟩ => some (none, some ⟨ss, loops⟩)
  | ⟨.next :: _, (s, ss) :: loops⟩ => some (none, some ⟨s :: ss, loops⟩)
  | ⟨.leave :: _, []⟩ | ⟨.next :: _, []⟩ => none

/-- A step with whatever outcome. -/
def Step (r : Rest α) (o : Option (Event α)) (r' : Option (Rest α)) : Prop :=
  ∃ outcome, r.step outcome = some (o, r')

end Rest

/-- The events of a body, up to any point of any run. -/
def Stmt.traces (body : List (Stmt α)) : Set (List (Event α)) := {l | Emits Rest.Step ⟨body, []⟩ l}

/-! ### Tags -/

mutual

/-- The expression as written. -/
def Expr.bare : Expr α → Expr Unit
  | .lit _ kind => .lit () kind
  | .var _ name => .var () name
  | .assign _ a b => .assign () a.bare b.bare
  | .update _ op a b => .update () op a.bare b.bare
  | .step _ op a => .step () op a.bare
  | .binary _ op a b => .binary () op a.bare b.bare
  | .unary _ op a => .unary () op a.bare
  | .cast _ kind a => .cast () kind a.bare
  | .choose _ a b c => .choose () a.bare b.bare c.bare
  | .orElse _ a b => .orElse () a.bare b.bare
  | .call _ name args => .call () name (Expr.bareAll args)
  | .method _ a name args => .method () a.bare name (Expr.bareAll args)
  | .new _ name args => .new () name (Expr.bareAll args)
  | .field _ a name => .field () a.bare name
  | .item _ a b => .item () a.bare b.bare
  | .append _ a => .append () a.bare
  | .array _ entries => .array () (Entry.bareAll entries)
  | .instanceOf _ a name => .instanceOf () a.bare name
  | .isset _ args => .isset () (Expr.bareAll args)
  | .concat _ args => .concat () (Expr.bareAll args)

def Expr.bareAll : List (Expr α) → List (Expr Unit)
  | [] => []
  | e :: es => e.bare :: Expr.bareAll es

def Entry.bareAll : List (Entry α) → List (Entry Unit)
  | [] => []
  | .value v :: es => .value v.bare :: Entry.bareAll es
  | .pair k v :: es => .pair k.bare v.bare :: Entry.bareAll es

end

mutual

theorem Expr.bare_number : ∀ (e : Expr Unit) (n : Nat), (e.number n).bare = e
  | .lit .., _ | .var .., _ => rfl
  | .assign _ a b, _ | .update _ _ a b, _ | .binary _ _ a b, _ | .orElse _ a b, _
  | .item _ a b, _ => by
    simp only [Expr.number, Expr.bare, a.bare_number, b.bare_number]
  | .step _ _ a, _ | .unary _ _ a, _ | .cast _ _ a, _ | .field _ a _, _ | .instanceOf _ a _, _
  | .append _ a, _ => by
    simp only [Expr.number, Expr.bare, a.bare_number]
  | .choose _ a b c, _ => by
    simp only [Expr.number, Expr.bare, a.bare_number, b.bare_number, c.bare_number]
  | .call _ _ args, _ | .new _ _ args, _ | .isset _ args, _ | .concat _ args, _ => by
    simp only [Expr.number, Expr.bare, Expr.bareAll_number args]
  | .method _ a _ args, _ => by
    simp only [Expr.number, Expr.bare, a.bare_number, Expr.bareAll_number args]
  | .array _ entries, _ => by
    simp only [Expr.number, Expr.bare, Entry.bareAll_number entries]

theorem Expr.bareAll_number :
    ∀ (es : List (Expr Unit)) (n : Nat), Expr.bareAll (Expr.numberAll n es) = es
  | [], _ => rfl
  | e :: es, _ => by simp only [Expr.numberAll, Expr.bareAll, e.bare_number, Expr.bareAll_number es]

theorem Entry.bareAll_number :
    ∀ (es : List (Entry Unit)) (n : Nat), Entry.bareAll (Entry.numberAll n es) = es
  | [], _ => rfl
  | .value v :: es, _ => by
    simp only [Entry.numberAll, Entry.bareAll, v.bare_number, Entry.bareAll_number es]
  | .pair k v :: es, _ => by
    simp only [Entry.numberAll, Entry.bareAll, k.bare_number, v.bare_number, Entry.bareAll_number es]

end

def Op.bare : Op α → Op Unit
  | .eval e => .eval e.bare
  | .static name init => .static name (init.map Expr.bare)
  | .global names => .global names
  | .unset names => .unset names

/-- What is seen, expressions as written. -/
def Event.bare : Event α → Event Unit
  | .op o => .op o.bare
  | .test cond outcome => .test cond.bare outcome
  | .turn source key value outcome => .turn source.bare key value outcome
  | .ret e => .ret (e.map Expr.bare)

mutual

/-- The statement as written. -/
def Stmt.bare : Stmt α → Stmt Unit
  | .eval e => .eval e.bare
  | .block body => .block (Stmt.bareAll body)
  | .branch c yes no => .branch c.bare (Stmt.bareAll yes) (Stmt.bareAll no)
  | .loop c body => .loop c.bare (Stmt.bareAll body)
  | .each s key value body => .each s.bare key value (Stmt.bareAll body)
  | .ret e => .ret (e.map Expr.bare)
  | .leave => .leave
  | .next => .next
  | .static name init => .static name (init.map Expr.bare)
  | .global names => .global names
  | .unset names => .unset names

def Stmt.bareAll : List (Stmt α) → List (Stmt Unit)
  | [] => []
  | s :: ss => s.bare :: Stmt.bareAll ss

end

theorem Expr.map_bare_number (e : Option (Expr Unit)) (n : Nat) :
    (e.map (Expr.number n)).map Expr.bare = e := by
  cases e with
  | none => rfl
  | some e => exact congrArg some (e.bare_number n)

mutual

theorem Stmt.bare_number : ∀ (s : Stmt Unit) (n : Nat), (s.number n).bare = s
  | .eval e, n => by rw [Stmt.number, Stmt.bare, e.bare_number]
  | .block body, n => by rw [Stmt.number, Stmt.bare, Stmt.bareAll_number body]
  | .branch c yes no, n => by
    rw [Stmt.number, Stmt.bare, c.bare_number, Stmt.bareAll_number yes, Stmt.bareAll_number no]
  | .loop c body, n => by rw [Stmt.number, Stmt.bare, c.bare_number, Stmt.bareAll_number body]
  | .each s key value body, n => by
    rw [Stmt.number, Stmt.bare, s.bare_number, Stmt.bareAll_number body]
  | .ret _, n | .static _ _, n => by rw [Stmt.number, Stmt.bare, Expr.map_bare_number]
  | .leave, _ | .next, _ | .global _, _ | .unset _, _ => rfl

theorem Stmt.bareAll_number : ∀ (ss : List (Stmt Unit)) (n : Nat),
    Stmt.bareAll (Stmt.numberAll n ss) = ss
  | [], _ => rfl
  | s :: ss, n => by rw [Stmt.numberAll, Stmt.bareAll, s.bare_number, Stmt.bareAll_number ss]

end

theorem Stmt.bareAll_append (ss ss' : List (Stmt α)) :
    Stmt.bareAll (ss ++ ss') = Stmt.bareAll ss ++ Stmt.bareAll ss' := by
  induction ss with
  | nil => rfl
  | cons s ss ih => rw [List.cons_append, Stmt.bareAll, Stmt.bareAll, ih, List.cons_append]

namespace Rest

variable {r : Rest α}

def bare (r : Rest α) : Rest Unit :=
  ⟨Stmt.bareAll r.next, r.loops.map fun l => (l.1.bare, Stmt.bareAll l.2)⟩

theorem step_bare (outcome : Bool) (r : Rest α) :
    r.bare.step outcome = (r.step outcome).map fun x => (x.1.map Event.bare, x.2.map bare) := by
  obtain ⟨ss, loops⟩ := r
  rcases ss with _ | ⟨s, ss⟩
  · rcases loops with _ | ⟨⟨s, ss⟩, loops⟩ <;> rfl
  · cases s with
    | block body =>
      show some (none, some (Rest.mk (Stmt.bareAll body ++ Stmt.bareAll ss) _)) = _
      rw [← Stmt.bareAll_append]
      rfl
    | branch c yes no =>
      cases outcome with
      | true =>
        show some (some _, some (Rest.mk (Stmt.bareAll yes ++ Stmt.bareAll ss) _)) = _
        rw [← Stmt.bareAll_append]
        rfl
      | false =>
        show some (some _, some (Rest.mk (Stmt.bareAll no ++ Stmt.bareAll ss) _)) = _
        rw [← Stmt.bareAll_append]
        rfl
    | loop | each => cases outcome <;> rfl
    | leave | next => rcases loops with _ | ⟨⟨s, ss⟩, loops⟩ <;> rfl
    | eval | static | global | unset | ret => rfl

theorem Step.bare {o : Option (Event α)} {r' : Option (Rest α)} (h : r.Step o r') :
    r.bare.Step (o.map Event.bare) (r'.map Rest.bare) := by
  obtain ⟨outcome, h⟩ := h
  exact ⟨outcome, by rw [step_bare, h]; rfl⟩

theorem Step.of_bare {o : Option (Event Unit)} {t : Option (Rest Unit)} (h : r.bare.Step o t) :
    ∃ o' r', r.Step o' r' ∧ o = o'.map Event.bare ∧ t = r'.map Rest.bare := by
  obtain ⟨outcome, h⟩ := h
  rw [step_bare] at h
  obtain ⟨⟨o', r'⟩, hstep, heq⟩ := Option.map_eq_some_iff.1 h
  obtain ⟨rfl, rfl⟩ := Prod.mk.inj heq
  exact ⟨o', r', ⟨outcome, hstep⟩, rfl, rfl⟩

theorem toList_map_bare (o : Option (Event α)) :
    (o.map Event.bare).toList = o.toList.map Event.bare := by
  cases o <;> rfl

theorem emits_bare {l : List (Event α)} (h : Emits Step r l) :
    Emits Step r.bare (l.map Event.bare) := by
  induction h with
  | stop => exact .stop _
  | go hs _ ih =>
    rw [List.map_append, ← toList_map_bare]
    exact .go hs.bare ih
  | finish hs =>
    rw [← toList_map_bare]
    exact .finish hs.bare

theorem emits_of_bare {t : Rest Unit} {l : List (Event Unit)} (h : Emits Step t l) :
    ∀ {r : Rest α}, t = r.bare → ∃ l', Emits Step r l' ∧ l'.map Event.bare = l := by
  induction h with
  | stop => exact fun _ => ⟨[], .stop _, rfl⟩
  | go hs _ ih =>
    rintro r rfl
    obtain ⟨o', r', hstep, rfl, hr'⟩ := hs.of_bare
    obtain ⟨r1, rfl, hr1⟩ := Option.map_eq_some_iff.1 hr'.symm
    obtain ⟨l', hl', rfl⟩ := ih hr1.symm
    exact ⟨o'.toList ++ l', .go hstep hl', by rw [List.map_append, toList_map_bare]⟩
  | finish hs =>
    rintro r rfl
    obtain ⟨o', r', hstep, rfl, hr'⟩ := hs.of_bare
    obtain rfl := Option.map_eq_none_iff.1 hr'.symm
    exact ⟨o'.toList, .finish hstep, (toList_map_bare o').symm⟩

end Rest

theorem Stmt.traces_bareAll (ss : List (Stmt α)) :
    Stmt.traces (Stmt.bareAll ss) = List.map Event.bare '' Stmt.traces ss := by
  apply Set.ext
  intro l
  constructor
  · intro h
    obtain ⟨l', hl', rfl⟩ := Rest.emits_of_bare (r := ⟨ss, []⟩) h rfl
    exact ⟨l', hl', rfl⟩
  · rintro ⟨l', hl', rfl⟩
    exact Rest.emits_bare hl'

end ShapeFlow
