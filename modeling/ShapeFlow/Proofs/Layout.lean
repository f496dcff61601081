/-
# Where a body is in a graph

A walk goes through a graph from point to point.  `Laid` says where the
statements of a body are; it says nothing of what follows a jump, so code that
is never run may be anywhere.  Where a body is laid out, the walk answers every
step of the run, and the run every step of the walk.

Key definitions: `Graph.Step`, `Graph.traces`, `Graph.Laid`, `Graph.At`.
Key theorems: `Graph.Laid.forth`, `Graph.Laid.back`, `Graph.At.emits_iff`.
-/
import ShapeFlow.Proofs.Lowering
import ShapeFlow.Proofs.Traces

namespace ShapeFlow

variable {α : Type}

/-! ### Graphs -/

/-- A point in a block, before the operation with the given index. -/
structure Spot where
  block : Nat
  offset : Nat

/-- The label of an outcome. -/
def Label.of (outcome : Bool) : Label := if outcome then .onTrue else .onFalse

/-- What is seen when a block is left along an edge, if the exit takes edges of that label. -/
def Exit.along : Exit α → Label → Option (Option (Event α))
  | .fall, .always => some none
  | .branch cond, .onTrue => some (some (.test cond true))
  | .branch cond, .onFalse => some (some (.test cond false))
  | .each source key value, .onTrue => some (some (.turn source key value true))
  | .each source key value, .onFalse => some (some (.turn source key value false))
  | _, _ => none

variable {s : Stmt α}

theorem Rest.step_op {o : Op α} (h : s.op? = some o) (outcome : Bool) (ss : List (Stmt α))
    (loops : List (Stmt α × List (Stmt α))) :
    Rest.step outcome ⟨s :: ss, loops⟩ = some (some (.op o), some ⟨ss, loops⟩) := by
  cases s <;> simp only [Stmt.op?, reduceCtorEq] at h <;> cases h <;> rfl

theorem Rest.step_loop {x : Exit α} {body : List (Stmt α)} (h : s.loop? = some (x, body))
    (outcome : Bool) (ss : List (Stmt α)) (loops : List (Stmt α × List (Stmt α))) :
    ∃ o, x.along (.of outcome) = some o ∧
      Rest.step outcome ⟨s :: ss, loops⟩ =
        some (o, some (if outcome then ⟨body, (s, ss) :: loops⟩ else ⟨ss, loops⟩)) := by
  cases s <;> simp only [Stmt.loop?, reduceCtorEq] at h <;> cases h <;> cases outcome <;>
    exact ⟨_, rfl, rfl⟩

namespace Graph

/-- One step of a walk. -/
inductive Step (g : Graph α) : Spot → Option (Event α) → Option Spot → Prop
  | op {p : Spot} {k : Block α} {o : Op α} : g.blocks[p.block]? = some k →
    k.ops[p.offset]? = some o → Step g p (some (.op o)) (some ⟨p.block, p.offset + 1⟩)
  | edge {p : Spot} {k : Block α} {label : Label} {o : Option (Event α)} {d : Nat} :
    g.blocks[p.block]? = some k → k.ops.length = p.offset → k.exit.along label = some o →
    (d, label) ∈ k.succs → Step g p o (some ⟨d, 0⟩)
  | ret {p : Spot} {k : Block α} {e : Option (Expr α)} : g.blocks[p.block]? = some k →
    k.ops.length = p.offset → k.exit = .ret e → Step g p (some (.ret e)) none

/-- The events of the walks from the entry, up to any point. -/
def traces (g : Graph α) : Set (List (Event α)) := {l | Emits g.Step ⟨entry, 0⟩ l}

/-- Operation `o` is at `p`. -/
def OpAt (g : Graph α) (p : Spot) (o : Op α) : Prop :=
  ∃ k, g.blocks[p.block]? = some k ∧ k.ops[p.offset]? = some o

/-- At `p` a block ends, which is left by `x` along `edges`. -/
def EndsAt (g : Graph α) (p : Spot) (x : Exit α) (edges : List (Nat × Label)) : Prop :=
  ∃ k, g.blocks[p.block]? = some k ∧ k.ops.length = p.offset ∧ k.exit = x ∧ k.succs = edges

/-- At `p` a block ends that leads to `d`. -/
abbrev FallsAt (g : Graph α) (p : Spot) (d : Nat) : Prop := g.EndsAt p .fall [(d, .always)]

/-- At `p` a block ends that leads to `d` or to `d'` by the outcome of `x`. -/
abbrev ForksAt (g : Graph α) (p : Spot) (x : Exit α) (d d' : Nat) : Prop :=
  g.EndsAt p x [(d', .onFalse), (d, .onTrue)]

section Steps

variable {g : Graph α} {p : Spot} {t : Option Spot} {x : Exit α} {o : Option (Event α)}

theorem OpAt.step {o : Op α} (h : g.OpAt p o) :
    g.Step p (some (.op o)) (some ⟨p.block, p.offset + 1⟩) := by
  obtain ⟨k, hk, ho⟩ := h
  exact .op hk ho

theorem OpAt.of_step {c : Op α} (h : g.OpAt p c) (hs : g.Step p o t) :
    o = some (.op c) ∧ t = some ⟨p.block, p.offset + 1⟩ := by
  obtain ⟨k, hk, hc⟩ := h
  have hlt : p.offset < k.ops.length := (List.getElem?_eq_some_iff.1 hc).1
  cases hs with
  | op hk' ho =>
    obtain rfl := Option.mem_unique hk hk'
    obtain rfl := Option.mem_unique hc ho
    exact ⟨rfl, rfl⟩
  | edge hk' hlen | ret hk' hlen =>
    obtain rfl := Option.mem_unique hk hk'
    omega

theorem EndsAt.step_iff {edges : List (Nat × Label)} (h : g.EndsAt p x edges) :
    g.Step p o t ↔ (∃ d label, x.along label = some o ∧ (d, label) ∈ edges ∧ t = some ⟨d, 0⟩) ∨
      ∃ e, x = .ret e ∧ o = some (.ret e) ∧ t = none := by
  obtain ⟨k, hk, hlen, rfl, rfl⟩ := h
  constructor
  · intro hs
    cases hs with
    | op hk' ho =>
      obtain rfl := Option.mem_unique hk hk'
      have := (List.getElem?_eq_some_iff.1 ho).1
      omega
    | edge hk' _ halong hd =>
      obtain rfl := Option.mem_unique hk hk'
      exact .inl ⟨_, _, halong, hd, rfl⟩
    | ret hk' _ hexit =>
      obtain rfl := Option.mem_unique hk hk'
      exact .inr ⟨_, hexit, rfl, rfl⟩
  · rintro (⟨d, label, halong, hd, rfl⟩ | ⟨e, hexit, rfl, rfl⟩)
    · exact .edge hk hlen halong hd
    · exact .ret hk hlen hexit

theorem FallsAt.step_iff {d : Nat} (h : g.FallsAt p d) :
    g.Step p o t ↔ o = none ∧ t = some ⟨d, 0⟩ := by
  rw [EndsAt.step_iff h]
  constructor
  · rintro (⟨d', label, halong, hd, rfl⟩ | ⟨e, hexit, -, -⟩)
    · obtain ⟨rfl, rfl⟩ : d' = d ∧ label = .always := by simpa using hd
      exact ⟨(Option.some.inj halong).symm, rfl⟩
    · cases hexit
  · rintro ⟨rfl, rfl⟩
    exact .inl ⟨d, .always, rfl, by simp, rfl⟩

theorem EndsAt.ret_step_iff {e : Option (Expr α)} (h : g.EndsAt p (.ret e) []) :
    g.Step p o t ↔ o = some (.ret e) ∧ t = none := by
  rw [EndsAt.step_iff h]
  constructor
  · rintro (⟨d, label, -, hd, -⟩ | ⟨e', hexit, rfl, rfl⟩)
    · cases hd
    · cases hexit
      exact ⟨rfl, rfl⟩
  · rintro ⟨rfl, rfl⟩
    exact .inr ⟨e, rfl, rfl, rfl⟩

/-- A block that forks does so by an outcome. -/
theorem ForksAt.step_iff {d d' : Nat} (h : g.ForksAt p x d d') (hx : Lower.Forks x) :
    g.Step p o t ↔ ∃ outcome, x.along (.of outcome) = some o ∧
      t = some ⟨if outcome then d else d', 0⟩ := by
  rw [EndsAt.step_iff h]
  constructor
  · rintro (⟨b, label, halong, hb, rfl⟩ | ⟨e, rfl, -, -⟩)
    · rcases (by simpa using hb : b = d' ∧ label = .onFalse ∨ b = d ∧ label = .onTrue) with
        ⟨rfl, rfl⟩ | ⟨rfl, rfl⟩
      · exact ⟨false, halong, rfl⟩
      · exact ⟨true, halong, rfl⟩
    · exact hx.elim
  · rintro ⟨outcome, halong, rfl⟩
    refine .inl ⟨_, _, halong, ?_, rfl⟩
    cases outcome <;> simp [Label.of]

end Steps

/-! ### Where a body is in a graph -/

/-- From `p` to `q` are the statements `ss`, inside a loop whose jumps lead as `loop` says. -/
inductive Laid (g : Graph α) : Option Lower.Loop → Spot → List (Stmt α) → Spot → Prop
  | nil {loop : Option Lower.Loop} {p : Spot} : Laid g loop p [] p
  | jump {loop : Option Lower.Loop} {p q : Spot} {d : Nat} {ss : List (Stmt α)} :
    g.FallsAt p d → Laid g loop ⟨d, 0⟩ ss q → Laid g loop p ss q
  | op {loop : Option Lower.Loop} {p q : Spot} {s : Stmt α} {o : Op α} {ss : List (Stmt α)} :
    s.op? = some o → g.OpAt p o → Laid g loop ⟨p.block, p.offset + 1⟩ ss q → Laid g loop p (s :: ss) q
  | block {loop : Option Lower.Loop} {p q : Spot} {body ss : List (Stmt α)} :
    Laid g loop p (body ++ ss) q → Laid g loop p (.block body :: ss) q
  | branch {loop : Option Lower.Loop} {p q : Spot} {cond : Expr α} {yes no ss : List (Stmt α)}
      {d d' : Nat} : g.ForksAt p (.branch cond) d d' → Laid g loop ⟨d, 0⟩ (yes ++ ss) q →
    Laid g loop ⟨d', 0⟩ (no ++ ss) q → Laid g loop p (.branch cond yes no :: ss) q
  | loop {loop : Option Lower.Loop} {q r : Spot} {s : Stmt α} {x : Exit α} {body ss : List (Stmt α)}
      {h d f : Nat} : s.loop? = some (x, body) → g.ForksAt ⟨h, 0⟩ x d f →
    Laid g (some ⟨h, f⟩) ⟨d, 0⟩ body r → g.FallsAt r h → Laid g loop ⟨f, 0⟩ ss q →
    Laid g loop ⟨h, 0⟩ (s :: ss) q
  | ret {loop : Option Lower.Loop} {p q : Spot} {e : Option (Expr α)} {ss : List (Stmt α)} :
    g.EndsAt p (.ret e) [] → Laid g loop p (.ret e :: ss) q
  | leave {l : Lower.Loop} {p q : Spot} {ss : List (Stmt α)} :
    g.FallsAt p l.footer → Laid g (some l) p (.leave :: ss) q
  | next {l : Lower.Loop} {p q : Spot} {ss : List (Stmt α)} :
    g.FallsAt p l.header → Laid g (some l) p (.next :: ss) q

/-- At `q` the loops around are gone on with, as `loop` says for the innermost one. -/
inductive Around (g : Graph α) : Spot → Option Lower.Loop → List (Stmt α × List (Stmt α)) → Prop
  | none {q : Spot} : g.EndsAt q (.ret none) [] → Around g q none []
  | loop {q q' : Spot} {l : Lower.Loop} {loop : Option Lower.Loop} {s : Stmt α} {ss : List (Stmt α)}
      {loops : List (Stmt α × List (Stmt α))} : g.FallsAt q l.header →
    Laid g loop ⟨l.header, 0⟩ (s :: ss) q' → Laid g loop ⟨l.footer, 0⟩ ss q' →
    Around g q' loop loops → Around g q (some l) ((s, ss) :: loops)

/-- The walk is at `p` when `r` is left of the run. -/
def At (g : Graph α) (r : Rest α) (p : Spot) : Prop :=
  ∃ loop q, Laid g loop p r.next q ∧ Around g q loop r.loops

theorem forks_of_loop? {x : Exit α} {body : List (Stmt α)} (h : s.loop? = some (x, body)) :
    Lower.Forks x := by
  cases s <;> simp only [Stmt.loop?, reduceCtorEq] at h <;> cases h <;> exact trivial

section Simulation

variable {g : Graph α} {loop : Option Lower.Loop} {p q : Spot} {ss : List (Stmt α)}
  {loops : List (Stmt α × List (Stmt α))} {o : Option (Event α)}

theorem Laid.turn {r : Spot} {x : Exit α} {body : List (Stmt α)} {h d f : Nat}
    (hs : s.loop? = some (x, body)) (hfork : g.ForksAt ⟨h, 0⟩ x d f)
    (hbody : Laid g (some ⟨h, f⟩) ⟨d, 0⟩ body r) (hback : g.FallsAt r h)
    (hrest : Laid g loop ⟨f, 0⟩ ss q) (haround : Around g q loop loops) (outcome : Bool) :
    g.At (if outcome then ⟨body, (s, ss) :: loops⟩ else ⟨ss, loops⟩) ⟨if outcome then d else f, 0⟩ := by
  cases outcome with
  | true =>
    exact ⟨some ⟨h, f⟩, r, hbody, .loop hback (.loop hs hfork hbody hback hrest) hrest haround⟩
  | false => exact ⟨loop, q, hrest, haround⟩

/-- **A step of the run is answered by the walk.** -/
theorem Laid.forth (h : Laid g loop p ss q) (haround : Around g q loop loops) {r : Option (Rest α)}
    (hs : Rest.Step ⟨ss, loops⟩ o r) : Answers g.Step g.At p o r := by
  obtain ⟨outcome, hs⟩ := hs
  induction h with
  | nil =>
    cases haround with
    | none hend =>
      cases hs
      exact .finish ((EndsAt.ret_step_iff hend).2 ⟨rfl, rfl⟩)
    | loop hback hloop _ hout =>
      cases hs
      exact .one ((FallsAt.step_iff hback).2 ⟨rfl, rfl⟩) ⟨_, _, hloop, hout⟩
  | jump hj _ ih => exact (ih haround hs).silent ((FallsAt.step_iff hj).2 ⟨rfl, rfl⟩)
  | op hop hat hrest =>
    rw [Rest.step_op hop] at hs
    cases hs
    exact .one hat.step ⟨_, _, hrest, haround⟩
  | block hbody =>
    cases hs
    exact .stay ⟨_, _, hbody, haround⟩
  | branch hfork hyes hno =>
    cases hs
    cases outcome with
    | true => exact .one ((ForksAt.step_iff hfork trivial).2 ⟨true, rfl, rfl⟩) ⟨_, _, hyes, haround⟩
    | false => exact .one ((ForksAt.step_iff hfork trivial).2 ⟨false, rfl, rfl⟩) ⟨_, _, hno, haround⟩
  | loop hloop hfork hbody hback hrest =>
    obtain ⟨o', halong, hstep⟩ := Rest.step_loop hloop outcome _ loops
    rw [hstep] at hs
    cases hs
    exact .one ((ForksAt.step_iff hfork (forks_of_loop? hloop)).2 ⟨outcome, halong, rfl⟩)
      (Laid.turn hloop hfork hbody hback hrest haround outcome)
  | ret hend =>
    cases hs
    exact .finish ((EndsAt.ret_step_iff hend).2 ⟨rfl, rfl⟩)
  | leave hfall =>
    cases haround with
    | loop _ _ hrest hout =>
      cases hs
      exact .one ((FallsAt.step_iff hfall).2 ⟨rfl, rfl⟩) ⟨_, _, hrest, hout⟩
  | next hfall =>
    cases haround with
    | loop _ hloop _ hout =>
      cases hs
      exact .one ((FallsAt.step_iff hfall).2 ⟨rfl, rfl⟩) ⟨_, _, hloop, hout⟩

/-- **A step of the walk is answered by the run.** -/
theorem Laid.back (h : Laid g loop p ss q) (haround : Around g q loop loops) {t : Option Spot}
    (hs : g.Step p o t) : Answers Rest.Step (fun p r => g.At r p) ⟨ss, loops⟩ o t := by
  induction h with
  | nil =>
    cases haround with
    | none hend =>
      obtain ⟨rfl, rfl⟩ := (EndsAt.ret_step_iff hend).1 hs
      exact .finish ⟨true, rfl⟩
    | loop hback hloop _ hout =>
      obtain ⟨rfl, rfl⟩ := (FallsAt.step_iff hback).1 hs
      exact .one ⟨true, rfl⟩ ⟨_, _, hloop, hout⟩
  | jump hj hrest =>
    obtain ⟨rfl, rfl⟩ := (FallsAt.step_iff hj).1 hs
    exact .stay ⟨_, _, hrest, haround⟩
  | op hop hat hrest =>
    obtain ⟨rfl, rfl⟩ := hat.of_step hs
    exact .one ⟨true, Rest.step_op hop _ _ _⟩ ⟨_, _, hrest, haround⟩
  | block _ ih => exact (ih haround hs).silent ⟨true, rfl⟩
  | branch hfork hyes hno =>
    obtain ⟨outcome, halong, rfl⟩ := (ForksAt.step_iff hfork trivial).1 hs
    cases outcome with
    | true =>
      cases halong
      exact .one ⟨true, rfl⟩ ⟨_, _, hyes, haround⟩
    | false =>
      cases halong
      exact .one ⟨false, rfl⟩ ⟨_, _, hno, haround⟩
  | loop hloop hfork hbody hback hrest =>
    obtain ⟨outcome, halong, rfl⟩ := (ForksAt.step_iff hfork (forks_of_loop? hloop)).1 hs
    obtain ⟨o', halong', hstep⟩ := Rest.step_loop hloop outcome _ loops
    rw [Option.mem_unique halong' halong] at hstep
    exact .one ⟨outcome, hstep⟩ (Laid.turn hloop hfork hbody hback hrest haround outcome)
  | ret hend =>
    obtain ⟨rfl, rfl⟩ := (EndsAt.ret_step_iff hend).1 hs
    exact .finish ⟨true, rfl⟩
  | leave hfall =>
    obtain ⟨rfl, rfl⟩ := (FallsAt.step_iff hfall).1 hs
    cases haround with
    | loop _ _ hrest hout => exact .one ⟨true, rfl⟩ ⟨_, _, hrest, hout⟩
  | next hfall =>
    obtain ⟨rfl, rfl⟩ := (FallsAt.step_iff hfall).1 hs
    cases haround with
    | loop _ hloop _ hout => exact .one ⟨true, rfl⟩ ⟨_, _, hloop, hout⟩

/-- A walk that is where a run is has the same events. -/
theorem At.emits_iff {r : Rest α} (h : g.At r p) {l : List (Event α)} :
    Emits g.Step p l ↔ Emits Rest.Step r l := by
  constructor
  · intro hl
    refine hl.answer (R := fun p r => g.At r p) (fun p r o t hat hs => ?_) h
    obtain ⟨loop, q, hlaid, haround⟩ := hat
    exact hlaid.back haround hs
  · intro hl
    refine hl.answer (R := g.At) (fun r p o r' hat hs => ?_) h
    obtain ⟨loop, q, hlaid, haround⟩ := hat
    exact hlaid.forth haround hs

end Simulation

end Graph

end ShapeFlow
