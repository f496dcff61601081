/-
# Jumps and the loops around them

Lowering looks at one thing only that can be wrong with a body: a jump that no loop is around.
It fails if there is one, wherever it is, in dead code too, and says which kind of jump it
found.  Otherwise it goes through, and every block of the graph is left in one of three ways,
with the edges for it.  Nothing leads back to the entry: edges go to blocks made later, or to the
header or the footer of a loop, and the entry is neither.

Key definitions: `Stmt.Stray`, `Block.EndsBy`, `Lower.Guards`.
Key theorems: `Lower.stmts_guards`, `Lower.stmts_fail`, `Graph.lowers_iff_scoped`.
-/
import ShapeFlow.Proofs.Lowering

namespace ShapeFlow

open List

variable {α β γ : Type}

/-- A jump in the statement has no loop of the statement around it, as `f` says. -/
inductive Stmt.Stray : Fault → Stmt α → Prop
  | leave : Stray .breakOutsideLoop .leave
  | next : Stray .continueOutsideLoop .next
  | block {f : Fault} {s : Stmt α} {body : List (Stmt α)} : s ∈ body → Stray f s →
    Stray f (.block body)
  | yes {f : Fault} {s : Stmt α} {cond : Expr α} {yes no : List (Stmt α)} : s ∈ yes → Stray f s →
    Stray f (.branch cond yes no)
  | no {f : Fault} {s : Stmt α} {cond : Expr α} {yes no : List (Stmt α)} : s ∈ no → Stray f s →
    Stray f (.branch cond yes no)

/-- One of the statements has such a jump. -/
def Stmt.AnyStray (f : Fault) (ss : List (Stmt α)) : Prop := ∃ s ∈ ss, s.Stray f

theorem Stmt.Stray.category {f : Fault} {s : Stmt α} (h : s.Stray f) : f.category = .lowering := by
  induction h with
  | leave | next => rfl
  | block _ _ ih | yes _ _ ih | no _ _ ih => exact ih

/-! ### Numbering moves no jump -/

section Numbering

variable {f : Fault}

theorem Stmt.anyStray_nil : ¬ AnyStray f ([] : List (Stmt α)) := by
  rintro ⟨s, hs, -⟩
  cases hs

theorem Stmt.anyStray_cons {s : Stmt α} {ss : List (Stmt α)} :
    AnyStray f (s :: ss) ↔ s.Stray f ∨ AnyStray f ss := by
  simp [AnyStray]

theorem Stmt.stray_block {body : List (Stmt α)} : (Stmt.block body).Stray f ↔ AnyStray f body :=
  ⟨fun h => by cases h with | block hs h => exact ⟨_, hs, h⟩, fun ⟨_, hs, h⟩ => .block hs h⟩

theorem Stmt.stray_branch {cond : Expr α} {yes no : List (Stmt α)} :
    (Stmt.branch cond yes no).Stray f ↔ AnyStray f yes ∨ AnyStray f no := by
  constructor
  · intro h
    cases h with
    | yes hs h => exact .inl ⟨_, hs, h⟩
    | no hs h => exact .inr ⟨_, hs, h⟩
  · rintro (⟨s, hs, h⟩ | ⟨s, hs, h⟩)
    · exact .yes hs h
    · exact .no hs h

mutual

theorem Stmt.stray_number : ∀ (s : Stmt α) (n : Nat), (s.number n).Stray f ↔ s.Stray f
  | .block body, n => by
    rw [Stmt.number, stray_block, stray_block, Stmt.anyStray_number body]
  | .branch c yes no, n => by
    rw [Stmt.number, stray_branch, stray_branch, Stmt.anyStray_number yes, Stmt.anyStray_number no]
  | .leave, _ | .next, _ => by
    constructor <;> (intro h; cases h; constructor)
  | .eval _, _ | .loop .., _ | .each .., _ | .ret _, _ | .static .., _ | .global _, _
  | .unset _, _ => by
    rw [Stmt.number]
    constructor <;> (intro h; cases h)

theorem Stmt.anyStray_number : ∀ (ss : List (Stmt α)) (n : Nat),
    AnyStray f (Stmt.numberAll n ss) ↔ AnyStray f ss
  | [], _ => by
    rw [Stmt.numberAll]
    exact iff_of_false anyStray_nil anyStray_nil
  | s :: ss, n => by
    rw [Stmt.numberAll, anyStray_cons, anyStray_cons, Stmt.stray_number s, Stmt.anyStray_number ss]

end

end Numbering

/-! ### How blocks are left -/

/-- The ways to leave a block. -/
inductive Ending where
  | falls | forks | returns
deriving DecidableEq

/-- The block is left that way and has the edges for it, and no others. -/
def Block.EndsBy (k : Block α) : Ending → Prop
  | .falls => k.exit = .fall ∧ ∃ d, k.succs = [(d, .always)]
  | .forks => Lower.Forks k.exit ∧ ∃ d d', k.succs.Perm [(d, .onTrue), (d', .onFalse)]
  | .returns => (∃ e, k.exit = .ret e) ∧ k.succs = []

theorem Block.Closed.endsBy {n : Nat} {k : Block α} (h : k.Closed n) : ∃! x, k.EndsBy x := by
  obtain ⟨-, hedges⟩ := h
  have hfork : k.succs.map (·.2) = [.onFalse, .onTrue] →
      ∃ d d', k.succs.Perm [(d, .onTrue), (d', .onFalse)] := by
    intro hlabels
    obtain ⟨⟨d', l'⟩, rest, hsuccs, hl', hrest⟩ := map_eq_cons_iff.1 hlabels
    obtain ⟨⟨d, l⟩, rest', hrest', hl, hnil⟩ := map_eq_cons_iff.1 hrest
    cases hl
    cases hl'
    rw [hsuccs, hrest', map_eq_nil_iff.1 hnil]
    exact ⟨d, d', .swap ..⟩
  -- the exit tells which of the three it is
  rcases hexit : k.exit with _ | c | ⟨s, key, v⟩ | e <;> rw [hexit] at hedges
  · obtain ⟨⟨d, l⟩, rest, hsuccs, hl, hrest⟩ := map_eq_cons_iff.1 hedges
    cases hl
    rw [map_eq_nil_iff.1 hrest] at hsuccs
    refine ⟨.falls, ⟨hexit, d, hsuccs⟩, fun x hx => ?_⟩
    cases x <;> simp_all [EndsBy, Lower.Forks]
  · refine ⟨.forks, ⟨by rw [hexit]; trivial, hfork hedges⟩, fun x hx => ?_⟩
    cases x <;> simp_all [EndsBy]
  · refine ⟨.forks, ⟨by rw [hexit]; trivial, hfork hedges⟩, fun x hx => ?_⟩
    cases x <;> simp_all [EndsBy]
  · refine ⟨.returns, ⟨⟨e, hexit⟩, hedges⟩, fun x hx => ?_⟩
    cases x <;> simp_all [EndsBy, Lower.Forks]

namespace Lower

variable {m : Draft α β} {g : β → Draft α γ}

/-! ### What lowering guards against -/

/-- There is an entry, and no edge leads to it. -/
structure Rooted (bs : List (Block α)) : Prop where
  pos : 0 < bs.length
  edges : ∀ k ∈ bs, ∀ e ∈ k.succs, e.1 ≠ Graph.entry

/-- From blocks with an entry that no edge leads to, the step makes such blocks and gives a result
as `Q` says, or it fails as `E` says. -/
def Guards (E : Fault → Prop) (m : Draft α β) (Q : β → Prop) : Prop :=
  ∀ bs, Rooted bs → match m bs with
    | .ok (b, bs') => Rooted bs' ∧ Q b
    | .error f => E f

variable {E : Fault → Prop} {Q : β → Prop} {R : γ → Prop} {bs : List (Block α)} {b : β} {f : Fault}
  {s : Stmt α}

theorem Guards.bind (hm : Guards E m Q) (hg : ∀ b, Q b → Guards E (g b) R) :
    Guards E (m >>= g) R := by
  intro bs hbs
  have hfirst := hm bs hbs
  rw [show (m >>= g) bs = (m bs >>= fun p => g p.1 p.2) from rfl]
  revert hfirst
  rcases m bs with f | ⟨b, bs1⟩
  · exact id
  · exact fun hfirst => hg b hfirst.2 bs1 hfirst.1

theorem Guards.mono {F : Fault → Prop} (hm : Guards E m Q) (hE : ∀ f, E f → F f) :
    Guards F m Q := by
  intro bs hbs
  have hend := hm bs hbs
  revert hend
  rcases m bs with f | r
  · exact hE f
  · exact id

theorem Guards.anyResult (hm : Guards E m Q) : Guards E m fun _ => True := by
  rw [← bind_pure m]
  exact hm.bind fun b _ => fun _ hbs => ⟨hbs, trivial⟩

theorem Guards.ok (hm : Guards E m Q) {bs' : List (Block α)} (hbs : Rooted bs)
    (h : m bs = .ok (b, bs')) : Rooted bs' := by
  have hend := hm bs hbs
  rw [h] at hend
  exact hend.1

theorem Guards.error (hm : Guards E m Q) (hbs : Rooted bs) (h : m bs = .error f) : E f := by
  have hend := hm bs hbs
  rwa [h] at hend

theorem guards_pure (hb : Q b) : Guards E (pure b : Draft α β) Q := fun _ hbs => ⟨hbs, hb⟩

theorem guards_fresh : Guards E (fresh : Draft α Nat) (0 < ·) := by
  intro bs hbs
  refine ⟨⟨by simp, fun k hk => ?_⟩, hbs.pos⟩
  rcases mem_append.1 hk with hk | hk
  · exact hbs.edges k hk
  · rw [mem_singleton.1 hk]
    exact fun e he => absurd he not_mem_nil

theorem guards_update (b : Nat) {f : Block α → Block α}
    (hf : ∀ k, ∀ e ∈ (f k).succs, e ∈ k.succs ∨ 0 < e.1) :
    Guards E (update b f) fun _ => True := by
  intro bs hbs
  refine ⟨⟨by simpa using hbs.pos, fun k hk => ?_⟩, trivial⟩
  obtain ⟨i, hi⟩ := getElem?_of_mem hk
  rw [getElem?_modify] at hi
  split at hi
  · obtain ⟨k0, hk0, rfl⟩ := Option.map_eq_some_iff.1 hi
    intro e he
    rcases hf k0 e he with he | he
    · exact hbs.edges k0 (mem_of_getElem? hk0) e he
    · exact Nat.pos_iff_ne_zero.1 he
  · exact hbs.edges k (mem_of_getElem? (by simpa using hi))

theorem guards_addOp (b : Nat) (op : Op α) : Guards E (addOp b op) fun _ => True :=
  guards_update b fun _ _ => .inl

theorem guards_setExit (b : Nat) (x : Exit α) : Guards E (setExit b x) fun _ => True :=
  guards_update b fun _ _ => .inl

theorem guards_addEdge (b : Nat) {d : Nat} (hd : 0 < d) (l : Label) :
    Guards E (addEdge b d l : Draft α Unit) fun _ => True :=
  guards_update b fun k e he => by
    rcases mem_cons.1 he with rfl | he
    · exact .inr hd
    · exact .inl he

/-- The loop around a statement, if there is one, has been made after the entry. -/
def AfterEntry (loop : Option Loop) : Prop := ∀ l ∈ loop, 0 < l.header ∧ 0 < l.footer

theorem afterEntry_some {l : Loop} (hh : 0 < l.header) (hf : 0 < l.footer) : AfterEntry (some l) := by
  rintro _ ⟨⟩
  exact ⟨hh, hf⟩

theorem guards_loop {b : Nat} {x : Exit α} {m : Loop → Nat → Draft α Nat}
    (hm : ∀ l first, 0 < l.header → 0 < l.footer → Guards E (m l first) fun _ => True) :
    Guards E (do
      let header ← fresh
      let footer ← fresh
      addEdge b header .always
      setExit header x
      let first ← fresh
      let last ← m ⟨header, footer⟩ first
      addEdge header first .onTrue
      addEdge header footer .onFalse
      addEdge last header .always
      return footer) fun _ => True := by
  refine guards_fresh.bind fun header hheader => guards_fresh.bind fun footer hfooter => ?_
  refine (guards_addEdge b hheader _).bind fun _ _ => (guards_setExit header x).bind fun _ _ => ?_
  refine guards_fresh.bind fun first hfirst => (hm _ first hheader hfooter).bind fun last _ => ?_
  refine (guards_addEdge header hfirst _).bind fun _ _ => ?_
  refine (guards_addEdge header hfooter _).bind fun _ _ => ?_
  exact (guards_addEdge last hheader _).bind fun _ _ => guards_pure trivial

mutual

/-- Lowering fails only for a stray jump with no loop around the statement. -/
theorem stmt_guards {loop : Option Loop} (hl : AfterEntry loop) : ∀ (s : Stmt α) (b : Nat),
    Guards (fun f => loop = none ∧ s.Stray f) (stmt loop s b) fun _ => True
  | .eval _, b | .static .., b | .global _, b | .unset _, b => by
    rw [stmt]
    exact (guards_addOp b _).bind fun _ _ => guards_pure trivial
  | .block body, b => by
    rw [stmt]
    exact (stmts_guards hl body b).mono fun f hf => ⟨hf.1, Stmt.stray_block.2 hf.2⟩
  | .branch cond yes no, b => by
    have hyes := fun first => (stmts_guards hl yes first).mono
      (F := fun f => loop = none ∧ (Stmt.branch cond yes no).Stray f) fun f hf =>
        ⟨hf.1, Stmt.stray_branch.2 (.inl hf.2)⟩
    have hno := fun first => (stmts_guards hl no first).mono
      (F := fun f => loop = none ∧ (Stmt.branch cond yes no).Stray f) fun f hf =>
        ⟨hf.1, Stmt.stray_branch.2 (.inr hf.2)⟩
    rw [stmt]
    refine (guards_setExit b _).bind fun _ _ => guards_fresh.bind fun first hfirst => ?_
    refine (hyes first).bind fun last _ => guards_fresh.bind fun after hafter => ?_
    refine (guards_addEdge b hfirst _).bind fun _ _ => (guards_addEdge last hafter _).bind fun _ _ => ?_
    split
    · exact (guards_addEdge b hafter _).bind fun _ _ => guards_pure trivial
    · refine guards_fresh.bind fun first' hfirst' => (hno first').bind fun last' _ => ?_
      refine (guards_addEdge b hfirst' _).bind fun _ _ => ?_
      exact (guards_addEdge last' hafter _).bind fun _ _ => guards_pure trivial
  | .loop _ body, b | .each _ _ _ body, b => by
    rw [stmt]
    refine guards_loop (m := fun l first => stmts (some l) body first) fun l first hh hf => ?_
    exact (stmts_guards (afterEntry_some hh hf) body first).mono fun f hf => absurd hf.1 (by simp)
  | .ret e, b => by
    rw [stmt]
    exact (guards_setExit b _).bind fun _ _ => guards_fresh.anyResult
  | .leave, b => by
    cases loop with
    | none =>
      rw [stmt]
      exact fun _ _ => ⟨rfl, .leave⟩
    | some l =>
      rw [stmt]
      exact (guards_addEdge b (hl l rfl).2 _).bind fun _ _ => guards_fresh.anyResult
  | .next, b => by
    cases loop with
    | none =>
      rw [stmt]
      exact fun _ _ => ⟨rfl, .next⟩
    | some l =>
      rw [stmt]
      exact (guards_addEdge b (hl l rfl).1 _).bind fun _ _ => guards_fresh.anyResult

theorem stmts_guards {loop : Option Loop} (hl : AfterEntry loop) : ∀ (ss : List (Stmt α)) (b : Nat),
    Guards (fun f => loop = none ∧ Stmt.AnyStray f ss) (stmts loop ss b) fun _ => True
  | [], b => by
    rw [stmts]
    exact guards_pure trivial
  | s :: ss, b => by
    rw [stmts]
    refine ((stmt_guards hl s b).mono fun f hf => ?_).bind fun b' _ =>
      (stmts_guards hl ss b').mono fun f hf => ?_
    · exact ⟨hf.1, Stmt.anyStray_cons.2 (.inl hf.2)⟩
    · exact ⟨hf.1, Stmt.anyStray_cons.2 (.inr hf.2)⟩

end

/-! ### Stray jumps -/

/-- The step fails, whatever has been made before it. -/
def AlwaysFails (m : Draft α β) : Prop := ∀ bs, ∃ f, m bs = .error f

theorem AlwaysFails.bind (h : AlwaysFails m) (g : β → Draft α γ) : AlwaysFails (m >>= g) := by
  intro bs
  obtain ⟨f, hf⟩ := h bs
  refine ⟨f, ?_⟩
  rw [show (m >>= g) bs = (m bs >>= fun p => g p.1 p.2) from rfl, hf]
  rfl

theorem AlwaysFails.after (h : ∀ b, AlwaysFails (g b)) : AlwaysFails (m >>= g) := by
  intro bs
  rw [show (m >>= g) bs = (m bs >>= fun p => g p.1 p.2) from rfl]
  rcases m bs with f | ⟨b, bs1⟩
  · exact ⟨f, rfl⟩
  · exact h b bs1

theorem stmts_fail {loop : Option Loop} (hs : ∀ b, AlwaysFails (stmt loop s b)) :
    ∀ {ss : List (Stmt α)}, s ∈ ss → ∀ b, AlwaysFails (stmts loop ss b)
  | t :: ss, hmem, b => by
    rw [stmts]
    rcases mem_cons.1 hmem with rfl | hmem
    · exact (hs b).bind _
    · exact .after fun b' => stmts_fail hs hmem b'

/-- A stray jump is found wherever it is. -/
theorem stmt_fails (h : s.Stray f) : ∀ b, AlwaysFails (stmt none s b) := by
  induction h with
  | leave | next =>
    intro b
    rw [stmt]
    exact fun _ => ⟨_, rfl⟩
  | block hs _ ih =>
    intro b
    rw [stmt]
    exact stmts_fail ih hs b
  | yes hs _ ih =>
    intro b
    rw [stmt]
    exact .after fun _ => .after fun first => (stmts_fail ih hs first).bind _
  | @no f s cond yes no hs _ ih =>
    intro b
    have hsome : no.isEmpty = false := isEmpty_eq_false_iff.2 (ne_nil_of_mem hs)
    rw [stmt, hsome]
    refine .after fun _ => .after fun _ => .after fun _ => .after fun _ => .after fun _ =>
      .after fun _ => .after fun first => ?_
    exact (stmts_fail ih hs first).bind _

theorem body_fails {ss : List (Stmt α)} (h : Stmt.AnyStray f ss) : AlwaysFails (body ss) := by
  obtain ⟨s, hs, hstray⟩ := h
  exact .after fun first => (stmts_fail (stmt_fails hstray) hs first).bind _

theorem body_guards (ss : List (Stmt α)) : ∃ m : Draft α Unit, body ss [] = m [blank] ∧
    Guards (fun f => Stmt.AnyStray f ss) m fun _ => True := by
  refine ⟨_, fresh_bind _ [], ?_⟩
  refine ((stmts_guards (by simp [AfterEntry]) ss 0).mono fun _ hf => hf.2).bind fun last _ => ?_
  refine guards_update last fun k e he => .inl ?_
  revert he
  split <;> exact id

theorem rooted_blank : Rooted [(blank : Block α)] := ⟨by simp, by simp⟩

end Lower

namespace Graph

variable {ss : List (Stmt Unit)} {g : Graph Nat} {f : Fault}

theorem ofSource?_eq (ss : List (Stmt Unit)) : ofSource? ss =
    match Lower.body (Stmt.numberAll 0 ss) [] with
    | .ok (_, blocks) => .ok { blocks, exprCount := Stmt.sizeAll (Stmt.numberAll 0 ss) }
    | .error f => .error f := by
  rw [ofSource?, ofBody?, show (Lower.body (Stmt.numberAll 0 ss)).run [] =
    Lower.body (Stmt.numberAll 0 ss) [] from rfl]
  rcases Lower.body (Stmt.numberAll 0 ss) [] with f | ⟨⟨⟩, bs⟩ <;> rfl

theorem stray_of_error (h : ofSource? ss = .error f) : Stmt.AnyStray f ss := by
  obtain ⟨m, hm, hguards⟩ := Lower.body_guards (Stmt.numberAll 0 ss)
  rw [ofSource?_eq, hm] at h
  rcases hrun : m [Lower.blank] with f' | ⟨_, bs⟩ <;> rw [hrun] at h
  · cases h
    exact (Stmt.anyStray_number ss 0).1 (hguards.error Lower.rooted_blank hrun)
  · cases h

theorem error_of_stray (h : Stmt.AnyStray f ss) : ∃ f', ofSource? ss = .error f' := by
  obtain ⟨f', hf'⟩ := Lower.body_fails ((Stmt.anyStray_number ss 0).2 h) []
  exact ⟨f', by rw [ofSource?_eq, hf']⟩

theorem ne_entry_of_ok (h : ofSource? ss = .ok g) {b d : Nat} {l : Label} (he : (d, l) ∈ g.succs b) :
    d ≠ entry := by
  obtain ⟨m, hm, hguards⟩ := Lower.body_guards (Stmt.numberAll 0 ss)
  rw [ofSource?_eq, hm] at h
  rcases hrun : m [Lower.blank] with f' | ⟨_, bs⟩ <;> rw [hrun] at h
  · cases h
  · cases h
    obtain ⟨k, hk, he⟩ := mem_succs he
    exact (hguards.ok Lower.rooted_blank hrun).edges k (mem_of_getElem? hk) _ he

/-- **Lowering accepts exactly the bodies whose jumps are inside loops.**  It fails if and only if
some `break` or `continue` has no loop around it, then with a lowering error that says which of the
two such a jump is.  Otherwise there is a graph.  Every block of it is left in exactly one of three
ways: it falls through along its only edge; it forks, along one edge for either outcome; or it
returns and has no edge.  Edges lead to blocks of the graph, never to the entry. -/
theorem lowers_iff_scoped (ss : List (Stmt Unit)) :
    ((∃ f, ofSource? ss = .error f ∧ f.category = .lowering) ↔ ∃ f, ∃ s ∈ ss, s.Stray f) ∧
      (∀ f, ofSource? ss = .error f → ∃ s ∈ ss, s.Stray f) ∧
      ((¬ ∃ f, ∃ s ∈ ss, s.Stray f) → ∃ g, ofSource? ss = .ok g ∧
        (∀ k ∈ g.blocks, ∃! x, k.EndsBy x) ∧
        ∀ b d l, (d, l) ∈ g.succs b → d < g.size ∧ d ≠ entry) := by
  refine ⟨⟨fun ⟨f, hf, _⟩ => ⟨f, stray_of_error hf⟩, ?_⟩, fun f => stray_of_error, fun hscoped => ?_⟩
  · rintro ⟨f, hstray⟩
    obtain ⟨f', hf'⟩ := error_of_stray hstray
    obtain ⟨s, -, hs⟩ := stray_of_error hf'
    exact ⟨f', hf', hs.category⟩
  · rcases hg : ofSource? ss with f | g
    · exact absurd ⟨f, stray_of_error hg⟩ hscoped
    · have hsound := sound_ofSource? hg
      exact ⟨g, rfl, fun k hk => (hsound.closed k hk).endsBy, fun b d l he =>
        ⟨hsound.succs_lt he, ne_entry_of_ok hg he⟩⟩

/-- A loop that is left from one branch and gone on with from the other, with dead code after
either jump. -/
def searching : List (Stmt Unit) :=
  [.loop (.var () "more") [.branch (.var () "found") [.leave, .eval (.var () "dead")]
    [.block [.next], .leave]], .ret none]

theorem searching_lowers : (¬ ∃ f, ∃ s ∈ searching, s.Stray f) ∧ ∃ g, ofSource? searching = .ok g ∧
    (∀ k ∈ g.blocks, ∃! x, k.EndsBy x) ∧
    ∀ b d l, (d, l) ∈ g.succs b → d < g.size ∧ d ≠ entry := by
  have hscoped : ¬ ∃ f, ∃ s ∈ searching, s.Stray f := by
    rintro ⟨f, s, hs, hstray⟩
    simp only [searching, List.mem_cons, List.not_mem_nil, or_false] at hs
    rcases hs with rfl | rfl <;> cases hstray
  exact ⟨hscoped, (lowers_iff_scoped searching).2.2 hscoped⟩

/-- A jump in dead code counts as well. -/
example : ofSource? [.ret none, .block [.leave]] = .error .breakOutsideLoop := rfl

end Graph

end ShapeFlow
