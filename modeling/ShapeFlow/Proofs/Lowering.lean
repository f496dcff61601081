/-
# What lowering builds

Lowering a statement works on one open block and on blocks it makes itself; all
others stay as they are.  In the end every block is closed: it falls through
along one edge, branches along two, or returns.  The expressions of the graph
are those of the text, so each has a number of its own.

Key definitions: `Block.Closed`, `Lower.Grown`, `Graph.Sound`, `Graph.Reach`.
Key theorems: `Lower.stmts_grown`, `Graph.sound_ofSource?`, `Graph.names_of_op`,
`Graph.names_of_exit`.
-/
import Mathlib
import ShapeFlow.Graph.Lower

namespace ShapeFlow

open List

theorem ok_of_except {ε α β : Type} {x : Except ε α} {f : α → Except ε β} {b : β}
    (h : (x >>= f) = .ok b) : ∃ a, x = .ok a ∧ f a = .ok b := by
  cases x with
  | error e => cases h
  | ok a => exact ⟨a, rfl, h⟩

variable {α : Type}

/-! ### Blocks -/

namespace Block

variable {α : Type}

/-- The expressions of a block, without their operands. -/
def roots (k : Block α) : List (Expr α) := k.ops.flatMap Op.exprs ++ k.exit.exprs

/-- A block that operations may still be added to. -/
def Open (k : Block α) : Prop := k.exit = .fall ∧ k.succs = []

/-- A finished block, in a graph of `n` blocks. -/
def Closed (n : Nat) (k : Block α) : Prop :=
  (∀ e ∈ k.succs, e.1 < n) ∧
    match k.exit with
    | .fall => k.succs.map (·.2) = [.always]
    | .branch _ | .each .. => k.succs.map (·.2) = [.onFalse, .onTrue]
    | .ret _ => k.succs = []

theorem Closed.mono {n m : Nat} {k : Block α} (h : k.Closed n) (hle : n ≤ m) : k.Closed m :=
  ⟨fun e he => Nat.lt_of_lt_of_le (h.1 e he) hle, h.2⟩

end Block

/-- The expressions of the blocks, without their operands. -/
def Lower.roots {α : Type} (bs : List (Block α)) : List (Expr α) := bs.flatMap Block.roots

mutual

/-- The expressions of a statement in the order of the text, without their operands. -/
def Stmt.roots {α : Type} : Stmt α → List (Expr α)
  | .eval e => [e]
  | .block body => Stmt.rootsAll body
  | .branch c yes no => c :: (Stmt.rootsAll yes ++ Stmt.rootsAll no)
  | .loop c body => c :: Stmt.rootsAll body
  | .each s _ _ body => s :: Stmt.rootsAll body
  | .ret e | .static _ e => e.toList
  | .leave | .next | .global _ | .unset _ => []

def Stmt.rootsAll {α : Type} : List (Stmt α) → List (Expr α)
  | [] => []
  | s :: ss => s.roots ++ Stmt.rootsAll ss

end

/-- The operation that a statement is. -/
def Stmt.op? : Stmt α → Option (Op α)
  | .eval e => some (.eval e)
  | .static name init => some (.static name init)
  | .global names => some (.global names)
  | .unset names => some (.unset names)
  | _ => none

/-- How a loop is left or gone through once more, and its body. -/
def Stmt.loop? : Stmt α → Option (Exit α × List (Stmt α))
  | .loop cond body => some (.branch cond, body)
  | .each source key value body => some (.each source key value, body)
  | _ => none

namespace Lower

variable {α γ : Type} {b b1 d n b' last last' : Nat} {f : Block α → Block α}

/-- A new block. -/
abbrev blank : Block α := ⟨[], .fall, []⟩

theorem roots_append (bs : List (Block α)) : roots (bs ++ [blank]) = roots bs := by
  simp [roots, Block.roots, Exit.exprs]

theorem roots_modify {x : List (Expr α)} :
    ∀ {bs : List (Block α)} {b : Nat} {k : Block α}, bs[b]? = some k →
      (f k).roots.Perm (k.roots ++ x) → (roots (bs.modify b f)).Perm (roots bs ++ x)
  | [], _, _, h, _ => by cases h
  | k :: bs, 0, _, h, hf => by
    obtain rfl : k = _ := Option.some.inj h
    show ((f k).roots ++ roots bs).Perm (k.roots ++ roots bs ++ x)
    refine (hf.append_right (roots bs)).trans ?_
    rw [append_assoc, append_assoc]
    exact perm_append_comm.append_left k.roots
  | k' :: bs, b + 1, k, h, hf => by
    show (k'.roots ++ roots (bs.modify b f)).Perm (k'.roots ++ roots bs ++ x)
    rw [append_assoc]
    exact (roots_modify (b := b) (by simpa using h) hf).append_left k'.roots

/-! ### Steps of lowering -/

/-- Blocks `bs` with `b` open became `bs'` with `b'` open, and the expressions
`es` came in. -/
structure Grown (bs : List (Block α)) (b : Nat) (bs' : List (Block α)) (b' : Nat)
    (es : List (Expr α)) : Prop where
  length_le : bs.length ≤ bs'.length
  /-- Only the open block and new ones change. -/
  frame : ∀ i < bs.length, i ≠ b → bs'[i]? = bs[i]?
  /-- A block stays open or makes way for a new one. -/
  next : b' = b ∨ bs.length ≤ b'
  opened : ∃ k, bs'[b']? = some k ∧ k.Open
  closed : ∀ (i : Nat) (k : Block α), i = b ∨ bs.length ≤ i → i ≠ b' → bs'[i]? = some k →
    k.Closed bs'.length
  exprs : (roots bs').Perm (roots bs ++ es)

variable {k kl : Block α} {bs bs1 bs₂ bs' bs4 : List (Block α)}

theorem Grown.refl (hb : bs[b]? = some k) (hk : k.Open) : Grown bs b bs b [] where
  length_le := Nat.le_refl _
  frame _ _ _ := rfl
  next := .inl rfl
  opened := ⟨k, hb, hk⟩
  closed i k' hi hne hk' := by
    have hlt := (List.getElem?_eq_some_iff.1 hk').1
    rcases hi with hi | hi
    · exact absurd hi hne
    · omega
  exprs := by simp

variable {es : List (Expr α)}

theorem Grown.trans {b2 : Nat} {es1 : List (Expr α)} (h : Grown bs b bs1 b1 es)
    (h' : Grown bs1 b1 bs₂ b2 es1) : Grown bs b bs₂ b2 (es ++ es1) where
  length_le := Nat.le_trans h.length_le h'.length_le
  frame i hi hne := by
    have hne1 : i ≠ b1 := by rcases h.next with h | h <;> omega
    rw [h'.frame i (Nat.lt_of_lt_of_le hi h.length_le) hne1, h.frame i hi hne]
  next := by
    have := h.length_le
    rcases h'.next with h' | h'
    · rw [h']
      exact h.next
    · exact .inr (by omega)
  opened := h'.opened
  closed i k hi hne hk := by
    by_cases hnew : i = b1 ∨ bs1.length ≤ i
    · exact h'.closed i k hnew hne hk
    · rw [h'.frame i (by omega) (by omega)] at hk
      exact (h.closed i k hi (by omega) hk).mono h'.length_le
  exprs := by
    rw [← append_assoc]
    exact h'.exprs.trans (h.exprs.append_right _)

theorem Grown.addOp (hb : bs[b]? = some k) (hk : k.Open) (op : Op α) :
    Grown bs b (bs.modify b fun k => { k with ops := k.ops ++ [op] }) b op.exprs where
  length_le := by simp
  frame i _ hne := by simp [Ne.symm hne]
  next := .inl rfl
  opened := ⟨{ k with ops := k.ops ++ [op] }, by simp [hb], hk⟩
  closed i k' hi hne hk' := by
    have hlt := (List.getElem?_eq_some_iff.1 hk').1
    rw [length_modify] at hlt
    rcases hi with hi | hi
    · exact absurd hi hne
    · omega
  exprs := roots_modify hb (by
    simp only [Block.roots, flatMap_append, flatMap_singleton, hk.1, Exit.exprs,
      append_nil]
    exact .refl _)

theorem Grown.close (hb : bs[b]? = some k) (hf : (f k).Closed (bs.length + 1))
    (hes : (f k).roots.Perm (k.roots ++ es)) :
    Grown bs b (bs.modify b f ++ [blank]) bs.length es where
  length_le := by simp
  frame i hi hne := by
    rw [getElem?_append_left (by simpa using hi)]
    simp [Ne.symm hne]
  next := .inr (Nat.le_refl _)
  opened := ⟨blank, by simp, rfl, rfl⟩
  closed i k' hi hne hk' := by
    have hlt := (List.getElem?_eq_some_iff.1 hk').1
    rw [length_append, length_modify, length_singleton] at hlt
    have hlt' : i < bs.length := by omega
    obtain rfl : i = b := by omega
    rw [getElem?_append_left (by simpa using hlt')] at hk'
    rw [getElem?_modify_eq, hb] at hk'
    obtain rfl : f k = k' := Option.some.inj hk'
    simpa using hf
  exprs := by
    rw [roots_append]
    exact roots_modify hb hes

/-! ### Branches and loops -/

/-- The block with one more edge. -/
abbrev withEdge (d : Nat) (l : Label) (k : Block α) : Block α :=
  { k with succs := (d, l) :: k.succs }

/-- The block with another exit. -/
abbrev withExit (x : Exit α) (k : Block α) : Block α := { k with exit := x }

/-- An exit that takes one of two edges. -/
def Forks : Exit α → Prop
  | .branch _ | .each .. => True
  | .fall | .ret _ => False

theorem roots_withEdge (bs : List (Block α)) (b d : Nat) (l : Label) :
    (roots (bs.modify b (withEdge d l))).Perm (roots bs) := by
  rcases hb : bs[b]? with _ | k
  · rw [modify_eq_self (by simpa using hb)]
  · simpa using roots_modify (x := []) (f := withEdge d l) hb (by simp [Block.roots])

theorem roots_withExit (hb : bs[b]? = some k) (hk : k.Open) (x : Exit α) :
    (roots (bs.modify b (withExit x))).Perm (roots bs ++ x.exprs) :=
  roots_modify hb (by simp [Block.roots, hk.1, Exit.exprs])

theorem closed_fall (hk : k.Open) (hd : d < n) : (withEdge d .always k).Closed n := by
  obtain ⟨hexit, hsuccs⟩ := hk
  refine ⟨?_, ?_⟩
  · simpa [hsuccs] using hd
  · simp [hexit, hsuccs]

variable {x : Exit α}

theorem closed_fork (hx : Forks x) (hk : k.Open) {d' : Nat} (hd : d < n) (hd' : d' < n) :
    (withEdge d' .onFalse (withEdge d .onTrue (withExit x k))).Closed n := by
  refine ⟨?_, ?_⟩
  · simp [hk.2, hd, hd']
  · cases x <;> simp_all [Forks, Block.Open]

theorem Grown.lt (h : Grown bs b bs' b' es) : b' < bs'.length := by
  obtain ⟨k, hk, -⟩ := h.opened
  exact (List.getElem?_eq_some_iff.1 hk).1

theorem Grown.le (h : Grown bs b bs' b' es) (hb : b ≤ bs.length) : b ≤ b' := by
  rcases h.next with h | h
  · exact h.ge
  · omega

/-- The blocks before the body of a condition is lowered into the last of them. -/
abbrev branchBlocks (bs : List (Block α)) (b : Nat) (c : Expr α) : List (Block α) :=
  bs.modify b (withExit (.branch c)) ++ [blank]

/-- The blocks once it has been lowered, into `bs₂`, and leads to a new block. -/
abbrev branchedBlocks (bs bs₂ : List (Block α)) (b last : Nat) : List (Block α) :=
  ((bs₂ ++ [blank]).modify b (withEdge bs.length .onTrue)).modify last (withEdge bs₂.length .always)

/-- What those blocks are. -/
structure Branched (bs bs₂ : List (Block α)) (b last : Nat) (c : Expr α) (k kl : Block α) : Prop where
  lt : b < bs.length
  le : bs.length ≤ last
  last_lt : last < bs₂.length
  fork : (branchedBlocks bs bs₂ b last)[b]? =
    some (withEdge bs.length .onTrue (withExit (.branch c) k))
  fall : (branchedBlocks bs bs₂ b last)[last]? = some (withEdge bs₂.length .always kl)
  new : (branchedBlocks bs bs₂ b last)[bs₂.length]? = some blank
  old : ∀ i < bs.length, i ≠ b → (branchedBlocks bs bs₂ b last)[i]? = bs[i]?
  body : ∀ i, bs.length ≤ i → i ≠ last → i < bs₂.length →
    (branchedBlocks bs bs₂ b last)[i]? = bs₂[i]?

variable {c : Expr α}

theorem Grown.branched (hbody : Grown (branchBlocks bs b c) bs.length bs₂ last es)
    (hb : bs[b]? = some k) (hkl : bs₂[last]? = some kl) : Branched bs bs₂ b last c k kl := by
  have hlt : b < bs.length := (List.getElem?_eq_some_iff.1 hb).1
  have hle : bs.length + 1 ≤ bs₂.length := by simpa using hbody.length_le
  have hlast := hbody.lt
  have hge := hbody.le (by simp)
  have hframe : ∀ i < bs.length, bs₂[i]? = (bs.modify b (withExit (.branch c)))[i]? := by
    intro i hi
    rw [hbody.frame i (by simp; omega) (by omega), getElem?_append_left (by simpa using hi)]
  refine ⟨hlt, hge, hlast, ?_, ?_, ?_, fun i hi hib => ?_, fun i hi hil hi2 => ?_⟩
  · simp only [getElem?_modify, show last ≠ b by omega, if_true, if_false, id_map']
    rw [getElem?_append_left (by omega), hframe b hlt]
    simp [hb]
  · simp only [getElem?_modify, show b ≠ last by omega, if_true, if_false, id_map']
    rw [getElem?_append_left hlast, hkl]
    rfl
  · simp [show b ≠ bs₂.length by omega, show last ≠ bs₂.length by omega]
  · simp only [getElem?_modify, Ne.symm hib, show last ≠ i by omega, if_false, id_map']
    rw [getElem?_append_left (by omega), hframe i hi]
    simp [Ne.symm hib]
  · simp only [getElem?_modify, Ne.symm hil, show b ≠ i by omega, if_false, id_map']
    rw [getElem?_append_left hi2]

theorem Grown.roots_branched (hbody : Grown (branchBlocks bs b c) bs.length bs₂ last es)
    (hb : bs[b]? = some k) (hk : k.Open) :
    (roots (branchedBlocks bs bs₂ b last)).Perm (roots bs ++ c :: es) := by
  refine (roots_withEdge _ _ _ _).trans ((roots_withEdge _ _ _ _).trans ?_)
  rw [roots_append]
  refine hbody.exprs.trans ?_
  rw [roots_append]
  exact ((roots_withExit hb hk (.branch c)).append_right es).trans (by simp [Exit.exprs])

/-- Block `b` forks to a body, and past it. -/
theorem Grown.branch (hb : bs[b]? = some k) (hk : k.Open)
    (hbody : Grown (branchBlocks bs b c) bs.length bs₂ last es) :
    Grown bs b ((branchedBlocks bs bs₂ b last).modify b (withEdge bs₂.length .onFalse)) bs₂.length
      (c :: es) := by
  obtain ⟨kl, hkl, hopen⟩ := hbody.opened
  have h := hbody.branched hb hkl
  have hlt := h.lt
  have hle := h.le
  have hlast := h.last_lt
  refine ⟨by simp; omega, fun i hi hib => ?_, .inr (by omega), ⟨blank, ?_, rfl, rfl⟩,
    fun i k' hi hi' hk' => ?_, (roots_withEdge _ _ _ _).trans (hbody.roots_branched hb hk)⟩
  · rw [getElem?_modify_ne _ _ (Ne.symm hib), h.old i hi hib]
  · rw [getElem?_modify_ne _ _ (by omega), h.new]
  · have hi2 : i < bs₂.length := by
      have := (List.getElem?_eq_some_iff.1 hk').1
      simp at this
      omega
    by_cases hib : b = i
    · subst hib
      rw [getElem?_modify_eq, h.fork] at hk'
      cases hk'
      exact closed_fork (by trivial) hk (by simp; omega) (by simp)
    rw [getElem?_modify_ne _ _ hib] at hk'
    by_cases hil : last = i
    · subst hil
      rw [h.fall] at hk'
      cases hk'
      exact closed_fall hopen (by simp)
    · rw [h.body i (by omega) (Ne.symm hil) hi2] at hk'
      refine (hbody.closed i k' ?_ (Ne.symm hil) hk').mono (by simp)
      simp
      omega

theorem Grown.frame_branched
    (h : Grown (branchedBlocks bs bs₂ b last ++ [blank]) (bs₂.length + 1) bs4 last' es) :
    ∀ i ≤ bs₂.length, bs4[i]? = (branchedBlocks bs bs₂ b last)[i]? := by
  intro i hi
  rw [h.frame i (by simp; omega) (by omega), getElem?_append_left (by simp; omega)]

theorem Grown.branchElse {es' : List (Expr α)} (hb : bs[b]? = some k) (hk : k.Open)
    (hbody : Grown (branchBlocks bs b c) bs.length bs₂ last es)
    (hbody' : Grown (branchedBlocks bs bs₂ b last ++ [blank]) (bs₂.length + 1) bs4 last' es') :
    Grown bs b ((bs4.modify b (withEdge (bs₂.length + 1) .onFalse)).modify last'
      (withEdge bs₂.length .always)) bs₂.length (c :: (es ++ es')) := by
  obtain ⟨kl, hkl, hopen⟩ := hbody.opened
  obtain ⟨kl', hkl', hopen'⟩ := hbody'.opened
  have h := hbody.branched hb hkl
  have hlt := h.lt
  have hle := h.le
  have hlast := h.last_lt
  have hle' : bs₂.length + 1 < bs4.length := by simpa using hbody'.length_le
  have hlast' := hbody'.le (by simp)
  have hframe := hbody'.frame_branched
  refine ⟨by simp; omega, fun i hi hib => ?_, .inr (by omega), ⟨blank, ?_, rfl, rfl⟩,
    fun i k' hi hi' hk' => ?_, ?_⟩
  · rw [getElem?_modify_ne _ _ (by omega), getElem?_modify_ne _ _ (Ne.symm hib),
      hframe i (by omega), h.old i hi hib]
  · rw [getElem?_modify_ne _ _ (by omega), getElem?_modify_ne _ _ (by omega),
      hframe _ (Nat.le_refl _), h.new]
  · have hi4 : i < bs4.length := by simpa using (List.getElem?_eq_some_iff.1 hk').1
    by_cases hib : b = i
    · subst hib
      rw [getElem?_modify_ne _ _ (by omega), getElem?_modify_eq, hframe b (by omega),
        h.fork] at hk'
      cases hk'
      exact closed_fork (by trivial) hk (by simp; omega) (by simp; omega)
    by_cases hil' : last' = i
    · subst hil'
      rw [getElem?_modify_eq, getElem?_modify_ne _ _ hib, hkl'] at hk'
      cases hk'
      exact closed_fall hopen' (by simp; omega)
    rw [getElem?_modify_ne _ _ hil', getElem?_modify_ne _ _ hib] at hk'
    rcases Nat.lt_or_ge bs₂.length i with hi2 | hi2
    · refine (hbody'.closed i k' ?_ (Ne.symm hil') hk').mono (by simp)
      simp
      omega
    · rw [hframe i hi2] at hk'
      by_cases hil : last = i
      · subst hil
        rw [h.fall] at hk'
        cases hk'
        exact closed_fall hopen (by simp; omega)
      · rw [h.body i (by omega) (Ne.symm hil) (by omega)] at hk'
        refine (hbody.closed i k' ?_ (Ne.symm hil) hk').mono (by simp; omega)
        simp
        omega
  · refine (roots_withEdge _ _ _ _).trans ((roots_withEdge _ _ _ _).trans ?_)
    refine hbody'.exprs.trans ?_
    rw [roots_append, ← cons_append, ← append_assoc]
    exact (hbody.roots_branched hb hk).append_right es'

/-- The blocks before the body of a loop is lowered into the last of them. -/
abbrev loopBlocks (bs : List (Block α)) (b : Nat) (x : Exit α) : List (Block α) :=
  (((bs ++ [blank]) ++ [blank]).modify b (withEdge bs.length .always)).modify bs.length (withExit x) ++
    [blank]

/-- The blocks once the body of a loop has been lowered and leads back. -/
abbrev loopedBlocks (bs bs₂ : List (Block α)) (last : Nat) : List (Block α) :=
  ((bs₂.modify bs.length (withEdge (bs.length + 2) .onTrue)).modify bs.length
    (withEdge (bs.length + 1) .onFalse)).modify last (withEdge bs.length .always)

/-- What those blocks are. -/
structure Looped (bs bs₂ : List (Block α)) (b last : Nat) (x : Exit α) (k kl : Block α) : Prop where
  lt : b < bs.length
  le : bs.length + 2 ≤ last
  last_lt : last < bs₂.length
  enter : (loopedBlocks bs bs₂ last)[b]? = some (withEdge bs.length .always k)
  fork : (loopedBlocks bs bs₂ last)[bs.length]? = some (withEdge (bs.length + 1) .onFalse
    (withEdge (bs.length + 2) .onTrue (withExit x blank)))
  back : (loopedBlocks bs bs₂ last)[last]? = some (withEdge bs.length .always kl)
  new : (loopedBlocks bs bs₂ last)[bs.length + 1]? = some blank
  old : ∀ i < bs.length, i ≠ b → (loopedBlocks bs bs₂ last)[i]? = bs[i]?
  body : ∀ i, bs.length + 2 ≤ i → i ≠ last → (loopedBlocks bs bs₂ last)[i]? = bs₂[i]?

theorem Grown.looped (hbody : Grown (loopBlocks bs b x) (bs.length + 2) bs₂ last es)
    (hb : bs[b]? = some k) (hkl : bs₂[last]? = some kl) : Looped bs bs₂ b last x k kl := by
  have hlt : b < bs.length := (List.getElem?_eq_some_iff.1 hb).1
  have hge := hbody.le (by simp)
  have hframe : ∀ i < bs.length + 2, bs₂[i]? =
      ((((bs ++ [blank]) ++ [blank]).modify b (withEdge bs.length .always)).modify
        bs.length (withExit x))[i]? := by
    intro i hi
    rw [hbody.frame i (by simp; omega) (by omega), getElem?_append_left (by simp; omega)]
  -- only the header and the end of the body have got edges
  have hrest : ∀ i, i ≠ bs.length → i ≠ last → (loopedBlocks bs bs₂ last)[i]? = bs₂[i]? := by
    intro i hih hil
    simp only [getElem?_modify, Ne.symm hih, Ne.symm hil, if_false, id_map']
  refine ⟨hlt, hge, hbody.lt, ?_, ?_, ?_, ?_, fun i hi hib => ?_, fun i hi hil => ?_⟩
  · rw [hrest b (by omega) (by omega), hframe b (by omega)]
    simp only [getElem?_modify, show bs.length ≠ b by omega, if_true, if_false, id_map']
    rw [getElem?_append_left (by simp; omega), getElem?_append_left hlt, hb]
    rfl
  · simp only [getElem?_modify, show last ≠ bs.length by omega, if_true, if_false, id_map']
    rw [hframe bs.length (by omega)]
    simp only [getElem?_modify, show b ≠ bs.length by omega, if_true, if_false, id_map']
    rw [getElem?_append_left (by simp), getElem?_append_right (Nat.le_refl _), Nat.sub_self]
    rfl
  · simp only [getElem?_modify, show bs.length ≠ last by omega, if_true, if_false, id_map', hkl]
    rfl
  · rw [hrest _ (by omega) (by omega), hframe _ (by omega)]
    simp [show b ≠ bs.length + 1 by omega]
  · rw [hrest i (by omega) (by omega), hframe i (by omega)]
    simp only [getElem?_modify, show bs.length ≠ i by omega, Ne.symm hib, if_false, id_map']
    rw [getElem?_append_left (by simp; omega), getElem?_append_left hi]
  · exact hrest i (by omega) hil

theorem Grown.loop (hx : Forks x) (hb : bs[b]? = some k) (hk : k.Open)
    (hbody : Grown (loopBlocks bs b x) (bs.length + 2) bs₂ last es) :
    Grown bs b (loopedBlocks bs bs₂ last) (bs.length + 1) (x.exprs ++ es) := by
  obtain ⟨kl, hkl, hopen⟩ := hbody.opened
  have h := hbody.looped hb hkl
  have hlt := h.lt
  have hle := h.le
  have hlast := h.last_lt
  refine ⟨by simp; omega, h.old, .inr (by omega), ⟨blank, h.new, rfl, rfl⟩,
    fun i k' hi hi' hk' => ?_, ?_⟩
  · by_cases hib : b = i
    · subst hib
      rw [h.enter] at hk'
      cases hk'
      exact closed_fall hk (by simp; omega)
    by_cases hih : bs.length = i
    · subst hih
      rw [h.fork] at hk'
      cases hk'
      exact closed_fork hx ⟨rfl, rfl⟩ (by simp; omega) (by simp; omega)
    by_cases hil : last = i
    · subst hil
      rw [h.back] at hk'
      cases hk'
      exact closed_fall hopen (by simp; omega)
    · rw [h.body i (by omega) (Ne.symm hil)] at hk'
      refine (hbody.closed i k' ?_ (Ne.symm hil) hk').mono (by simp)
      simp
      omega
  · refine (roots_withEdge _ _ _ _).trans ((roots_withEdge _ _ _ _).trans
      ((roots_withEdge _ _ _ _).trans ?_))
    refine hbody.exprs.trans ?_
    rw [roots_append, ← append_assoc]
    refine List.Perm.append_right es ?_
    refine (roots_withExit (k := blank) (by simp [show b ≠ bs.length by omega]) ⟨rfl, rfl⟩ x).trans ?_
    refine List.Perm.append_right x.exprs ?_
    refine (roots_withEdge _ _ _ _).trans ?_
    rw [roots_append, roots_append]

/-! ### Statements -/

theorem bind_ok {β : Type} {x : Draft α β} {f : β → Draft α γ} {r : γ × List (Block α)}
    (h : (x >>= f) bs = .ok r) : ∃ b bs1, x bs = .ok (b, bs1) ∧ f b bs1 = .ok r := by
  obtain ⟨⟨b, bs1⟩, hx, hf⟩ := ok_of_except (x := x bs) (f := fun p => f p.1 p.2) h
  exact ⟨b, bs1, hx, hf⟩

theorem fresh_bind (f : Nat → Draft α γ) (bs : List (Block α)) :
    (fresh >>= f) bs = f bs.length (bs ++ [blank]) := rfl

theorem update_bind (b : Nat) (g : Block α → Block α) (f : Unit → Draft α γ) (bs : List (Block α)) :
    (update b g >>= f) bs = f () (bs.modify b g) := rfl

/-- The jumps of a loop body lead to blocks that exist. -/
def LoopIn (loop : Option Loop) (n : Nat) : Prop := ∀ l ∈ loop, l.header < n ∧ l.footer < n

theorem LoopIn.mono {loop : Option Loop} {m : Nat} (h : LoopIn loop n) (hle : n ≤ m) :
    LoopIn loop m := fun l hl => ⟨(h l hl).1.trans_le hle, (h l hl).2.trans_le hle⟩

variable {s : Stmt α}

theorem stmt_op {loop : Option Loop} {o : Op α} (hs : s.op? = some o)
    (h : stmt loop s b bs = .ok (b', bs')) :
    b' = b ∧ bs' = bs.modify b fun k => { k with ops := k.ops ++ [o] } := by
  cases s <;> simp only [Stmt.op?, reduceCtorEq] at hs <;> cases hs
  all_goals
    rw [stmt, addOp, update_bind] at h
    cases h
    exact ⟨rfl, rfl⟩

theorem stmt_loop {loop : Option Loop} {body : List (Stmt α)} (hs : s.loop? = some (x, body))
    (h : stmt loop s b bs = .ok (b1, bs1)) : ∃ last bs₂,
      stmts (some ⟨bs.length, bs.length + 1⟩) body (bs.length + 2) (loopBlocks bs b x) =
        .ok (last, bs₂) ∧ bs1 = loopedBlocks bs bs₂ last ∧ b1 = bs.length + 1 := by
  cases s <;> simp only [Stmt.loop?, reduceCtorEq] at hs <;> cases hs
  all_goals
    rw [stmt, fresh_bind, fresh_bind, addEdge, update_bind, setExit, update_bind, fresh_bind] at h
    obtain ⟨last, bs₂, hbody, h⟩ := bind_ok h
    rw [addEdge, update_bind, addEdge, update_bind, addEdge, update_bind] at h
    cases h
    simp only [length_modify, length_append, length_singleton] at hbody
    exact ⟨last, bs₂, hbody, by simp, by simp⟩

theorem stmt_jump {loop : Option Loop} {t : Loop → Nat}
    (hs : s = .leave ∧ t = Loop.footer ∨ s = .next ∧ t = Loop.header)
    (h : stmt loop s b bs = .ok (b1, bs1)) : ∃ l, loop = some l ∧ b1 = bs.length ∧
      bs1 = bs.modify b (withEdge (t l) .always) ++ [blank] := by
  rcases hs with ⟨rfl, rfl⟩ | ⟨rfl, rfl⟩
  all_goals
    rcases loop with _ | l <;> rw [stmt] at h
    · cases h
    · rw [addEdge, update_bind] at h
      cases h
      exact ⟨l, rfl, length_modify .., rfl⟩

theorem stmt_branch {loop : Option Loop} {yes no : List (Stmt α)}
    (h : stmt loop (.branch c yes no) b bs = .ok (b1, bs1)) : ∃ last bs₂,
      stmts loop yes bs.length (branchBlocks bs b c) = .ok (last, bs₂) ∧ b1 = bs₂.length ∧
        (no = [] ∧ bs1 = (branchedBlocks bs bs₂ b last).modify b (withEdge bs₂.length .onFalse) ∨
          ∃ last' bs4, stmts loop no (bs₂.length + 1) (branchedBlocks bs bs₂ b last ++ [blank]) =
            .ok (last', bs4) ∧ bs1 = (bs4.modify b (withEdge (bs₂.length + 1) .onFalse)).modify last'
              (withEdge bs₂.length .always)) := by
  rw [stmt, setExit, update_bind, fresh_bind] at h
  obtain ⟨last, bs₂, hyes, h⟩ := bind_ok h
  rw [length_modify] at hyes h
  rw [fresh_bind, addEdge, update_bind, addEdge, update_bind] at h
  refine ⟨last, bs₂, hyes, ?_⟩
  cases no with
  | nil =>
    cases h
    exact ⟨rfl, .inl ⟨rfl, rfl⟩⟩
  | cons s ss =>
    simp only [isEmpty_cons, Bool.false_eq_true, if_false] at h
    rw [fresh_bind] at h
    obtain ⟨last', bs4, hno, h⟩ := bind_ok h
    rw [addEdge, update_bind, addEdge, update_bind] at h
    cases h
    simp only [length_modify, length_append, length_singleton] at hno ⊢
    exact ⟨trivial, .inr ⟨last', bs4, hno, rfl⟩⟩

mutual

theorem stmt_grown {loop : Option Loop} : ∀ {s : Stmt α} {bs bs' : List (Block α)} {b b' : Nat}
    {k : Block α}, LoopIn loop bs.length → bs[b]? = some k → k.Open →
    stmt loop s b bs = .ok (b', bs') → Grown bs b bs' b' s.roots
  | .eval _, _, _, _, _, _, _, hb, hk, h | .static _ _, _, _, _, _, _, _, hb, hk, h
  | .global _, _, _, _, _, _, _, hb, hk, h | .unset _, _, _, _, _, _, _, hb, hk, h => by
    obtain ⟨rfl, rfl⟩ := stmt_op rfl h
    exact Grown.addOp hb hk _
  | .block body, bs, bs', b, b', k, hl, hb, hk, h => by
    rw [stmt] at h
    exact stmts_grown hl hb hk h
  | .branch cond yes no, bs, bs', b, b', k, hl, hb, hk, h => by
    obtain ⟨last, bs₂, hyes, rfl, hno⟩ := stmt_branch h
    have hbody := stmts_grown (k := blank) (hl.mono (by simp)) (by simp) ⟨rfl, rfl⟩ hyes
    rcases hno with ⟨rfl, rfl⟩ | ⟨last', bs4, hno, rfl⟩
    · simpa [Stmt.roots, Stmt.rootsAll] using hbody.branch hb hk
    · have hin := hl.mono (Nat.le_trans (by simp) hbody.length_le)
      have hbody' := stmts_grown (k := blank) (hin.mono (by simp; omega)) (by simp) ⟨rfl, rfl⟩ hno
      exact hbody.branchElse hb hk hbody'
  | .loop _ _, _, _, _, _, _, _, hb, hk, h | .each _ _ _ _, _, _, _, _, _, _, hb, hk, h => by
    obtain ⟨last, bs₂, hbody, rfl, rfl⟩ := stmt_loop rfl h
    have hgrown := stmts_grown (k := blank) (by simp [LoopIn]) (by simp) ⟨rfl, rfl⟩ hbody
    exact hgrown.loop (by trivial) hb hk
  | .ret e, bs, bs', b, b', k, _, hb, hk, h => by
    rw [stmt, setExit, update_bind] at h
    cases h
    rw [length_modify]
    refine Grown.close hb ⟨by simp [hk.2], by simpa using hk.2⟩ ?_
    simp [Block.roots, hk.1, Exit.exprs, Stmt.roots]
  | .leave, bs, bs', b, b', k, hl, hb, hk, h => by
    obtain ⟨l, rfl, rfl, rfl⟩ := stmt_jump (t := Loop.footer) (.inl ⟨rfl, rfl⟩) h
    refine Grown.close hb (closed_fall hk ?_) (by simp [Block.roots, Stmt.roots])
    exact (hl l rfl).2.trans (Nat.lt_succ_self _)
  | .next, bs, bs', b, b', k, hl, hb, hk, h => by
    obtain ⟨l, rfl, rfl, rfl⟩ := stmt_jump (t := Loop.header) (.inr ⟨rfl, rfl⟩) h
    refine Grown.close hb (closed_fall hk ?_) (by simp [Block.roots, Stmt.roots])
    exact (hl l rfl).1.trans (Nat.lt_succ_self _)

theorem stmts_grown {loop : Option Loop} : ∀ {ss : List (Stmt α)} {bs bs' : List (Block α)}
    {b b' : Nat} {k : Block α}, LoopIn loop bs.length → bs[b]? = some k → k.Open →
    stmts loop ss b bs = .ok (b', bs') → Grown bs b bs' b' (Stmt.rootsAll ss)
  | [], bs, bs', b, b', k, _, hb, hk, h => by
    rw [stmts] at h
    cases h
    exact .refl hb hk
  | s :: ss, bs, bs', b, b', k, hl, hb, hk, h => by
    rw [stmts] at h
    obtain ⟨b1, bs1, hs, hss⟩ := bind_ok h
    have hfirst := stmt_grown hl hb hk hs
    obtain ⟨k1, hb1, hk1⟩ := hfirst.opened
    exact hfirst.trans (stmts_grown (hl.mono hfirst.length_le) hb1 hk1 hss)

end

theorem body_closed {ss : List (Stmt α)} (h : body ss [] = .ok ((), bs)) :
    0 < bs.length ∧ (∀ k ∈ bs, k.Closed bs.length) ∧ (roots bs).Perm (Stmt.rootsAll ss) := by
  rw [body, fresh_bind] at h
  obtain ⟨last, bs1, hss, h⟩ := bind_ok h
  have hgrown := stmts_grown (k := blank) (by simp [LoopIn]) (by simp) ⟨rfl, rfl⟩ hss
  obtain ⟨k, hlast, hk⟩ := hgrown.opened
  obtain rfl : (bs1.modify last _) = bs := (Prod.mk.inj (Except.ok.inj h)).2
  have hpos : 0 < bs1.length := by
    have := hgrown.length_le
    simp at this
    omega
  refine ⟨by simpa using hpos, fun k' hk' => ?_, ?_⟩
  · obtain ⟨i, hi⟩ := getElem?_of_mem hk'
    rw [getElem?_modify] at hi
    by_cases hil : last = i
    · subst hil
      rw [hlast] at hi
      cases hi
      simp [Block.Closed, hk.1, hk.2]
    · simp only [hil, if_false, id_map'] at hi
      simpa using hgrown.closed i k' (by simp; omega) (Ne.symm hil) hi
  · refine (roots_modify (x := []) hlast ?_).trans ?_
    · simp [hk.1, Block.roots, Exit.exprs]
    · simpa [roots, Block.roots, Exit.exprs] using hgrown.exprs

end Lower

/-! ### Numbers -/

theorem range'_three (n a b c : Nat) :
    List.range' n a ++ (List.range' (n + a) b ++ List.range' (n + a + b) c) =
      List.range' n (a + b + c) := by
  rw [← append_assoc, range'_append_two]

mutual

theorem Stmt.tags_number : ∀ (s : Stmt α) (n : Nat),
    ((s.number n).roots.flatMap Expr.walk).map Expr.tag = List.range' n s.size
  | .eval e, n => by simp [Stmt.number, Stmt.roots, Stmt.size, e.tags_number]
  | .block body, n => by
    rw [Stmt.number, Stmt.roots, Stmt.size]
    exact Stmt.tagsAll_number body n
  | .branch c yes no, n => by
    simp only [Stmt.number, Stmt.roots, Stmt.size, flatMap_cons, flatMap_append,
      map_append, c.tags_number, Stmt.tagsAll_number yes, Stmt.tagsAll_number no, range'_three]
  | .loop c body, n | .each c _ _ body, n => by
    simp only [Stmt.number, Stmt.roots, Stmt.size, flatMap_cons, map_append,
      c.tags_number, Stmt.tagsAll_number body, range'_append_1]
  | .ret e, n | .static _ e, n => by
    cases e with
    | none => rfl
    | some e => simp [Stmt.number, Stmt.roots, Stmt.size, e.tags_number]
  | .leave, _ | .next, _ | .global _, _ | .unset _, _ => rfl

theorem Stmt.tagsAll_number : ∀ (ss : List (Stmt α)) (n : Nat),
    ((Stmt.rootsAll (Stmt.numberAll n ss)).flatMap Expr.walk).map Expr.tag =
      List.range' n (Stmt.sizeAll ss)
  | [], _ => rfl
  | s :: ss, n => by
    simp only [Stmt.numberAll, Stmt.rootsAll, Stmt.sizeAll, flatMap_append, map_append,
      s.tags_number, Stmt.tagsAll_number ss, range'_append_1]

theorem Stmt.size_number : ∀ (s : Stmt α) (n : Nat), (s.number n).size = s.size
  | .eval e, n => by simp [Stmt.number, Stmt.size, e.size_number]
  | .block body, n => by
    rw [Stmt.number, Stmt.size, Stmt.size]
    exact Stmt.sizeAll_number body n
  | .branch c yes no, n => by
    simp only [Stmt.number, Stmt.size, c.size_number, Stmt.sizeAll_number yes,
      Stmt.sizeAll_number no]
  | .loop c body, n | .each c _ _ body, n => by
    simp only [Stmt.number, Stmt.size, c.size_number, Stmt.sizeAll_number body]
  | .ret e, n | .static _ e, n => by
    cases e with
    | none => rfl
    | some e => simp [Stmt.number, Stmt.size, e.size_number]
  | .leave, _ | .next, _ | .global _, _ | .unset _, _ => rfl

theorem Stmt.sizeAll_number : ∀ (ss : List (Stmt α)) (n : Nat),
    Stmt.sizeAll (Stmt.numberAll n ss) = Stmt.sizeAll ss
  | [], _ => rfl
  | s :: ss, n => by
    simp only [Stmt.numberAll, Stmt.sizeAll, s.size_number, Stmt.sizeAll_number ss]

end

/-! ### Graphs -/

theorem mem_firstMentions {l : List String} {x : String} : x ∈ firstMentions l ↔ x ∈ l := by
  have hfold : ∀ (l seen : List String),
      x ∈ l.foldl (fun seen name => if seen.contains name then seen else seen ++ [name]) seen ↔
        x ∈ seen ∨ x ∈ l := by
    intro l
    induction l with
    | nil => simp
    | cons y l ih =>
      intro seen
      rw [foldl_cons, ih]
      split
      next h =>
        have hy : y ∈ seen := contains_iff_mem.1 h
        constructor
        · exact Or.imp_right (mem_cons_of_mem y)
        · rintro (h | h)
          · exact .inl h
          · rcases mem_cons.1 h with rfl | h
            · exact .inl hy
            · exact .inr h
      next => simp [or_assoc]
  exact (hfold l []).trans (by simp)

variable {e : Expr α}

theorem Op.names_of_exprs {o : Op α} (he : e ∈ o.exprs) : ∀ name ∈ e.names, name ∈ o.names := by
  intro name hname
  cases o with
  | eval e' =>
    obtain rfl : e = e' := by simpa [Op.exprs] using he
    exact hname
  | static x init =>
    exact mem_cons_of_mem _ (mem_flatMap.2 ⟨e, he, hname⟩)
  | global _ => cases he
  | unset _ => cases he

theorem Exit.names_of_exprs {o : Exit α} (he : e ∈ o.exprs) : ∀ name ∈ e.names, name ∈ o.names := by
  intro name hname
  cases o with
  | fall => cases he
  | branch c =>
    obtain rfl : e = c := by simpa [Exit.exprs] using he
    exact hname
  | each source key value =>
    obtain rfl : e = source := by simpa [Exit.exprs] using he
    simp [Exit.names, hname]
  | ret o => exact mem_flatMap.2 ⟨e, he, hname⟩

namespace Graph

variable {α : Type} {g : Graph Nat} {b : Nat} {e : Nat × Label} {x : String}

/-- Block `b` can be reached from the entry. -/
inductive Reach (g : Graph α) : Nat → Prop
  | entry : Reach g entry
  | step {b d : Nat} {l : Label} : Reach g b → (d, l) ∈ g.succs b → Reach g d

/-- A graph as lowering builds them. -/
structure Sound (g : Graph Nat) : Prop where
  pos : 0 < g.size
  closed : ∀ k ∈ g.blocks, k.Closed g.size
  /-- Each expression has a number of its own. -/
  numbered : (g.exprs.map Expr.tag).Perm (List.range g.exprCount)

theorem sound_ofSource? {ss : List (Stmt Unit)} (h : ofSource? ss = .ok g) : g.Sound := by
  unfold ofSource? ofBody? at h
  obtain ⟨⟨⟨⟩, bs⟩, hb, h⟩ := ok_of_except h
  obtain rfl := Except.ok.inj h
  obtain ⟨hpos, hclosed, hroots⟩ := Lower.body_closed hb
  refine ⟨hpos, hclosed, ?_⟩
  show ((bs.flatMap Block.roots).flatMap Expr.walk |>.map Expr.tag).Perm
    (range (Stmt.sizeAll (Stmt.numberAll 0 ss)))
  rw [Stmt.sizeAll_number, range_eq_range', ← Stmt.tagsAll_number]
  exact (hroots.flatMap_right Expr.walk).map Expr.tag

theorem mem_succs {g : Graph α} (h : e ∈ g.succs b) : ∃ k, g.blocks[b]? = some k ∧ e ∈ k.succs := by
  unfold succs at h
  rcases hb : g.blocks[b]? with _ | k
  · simp [hb] at h
  · exact ⟨k, rfl, by simpa [hb] using h⟩

theorem Sound.succs_lt (h : g.Sound) (he : e ∈ g.succs b) : e.1 < g.size := by
  obtain ⟨k, hk, he⟩ := mem_succs he
  exact (h.closed k (mem_of_getElem? hk)).1 e he

theorem Sound.succs_of_ret (h : g.Sound) {k : Block Nat} (hk : g.blocks[b]? = some k)
    {x : Option (Expr Nat)} (hexit : k.exit = .ret x) : g.succs b = [] := by
  have hclosed := (h.closed k (mem_of_getElem? hk)).2
  rw [hexit] at hclosed
  refine eq_nil_iff_forall_not_mem.2 fun e he => ?_
  obtain ⟨k', hk', he⟩ := mem_succs he
  obtain rfl : k = k' := Option.mem_unique hk hk'
  exact not_mem_nil (hclosed ▸ he)

theorem Sound.reach_lt (h : g.Sound) (hb : g.Reach b) : b < g.size := by
  cases hb with
  | entry => exact h.pos
  | step _ he => exact h.succs_lt he

variable {k : Block α}

theorem names_of_op {g : Graph α} (hk : k ∈ g.blocks) {op : Op α} (hop : op ∈ k.ops)
    (hx : x ∈ op.names) : x ∈ g.names :=
  mem_firstMentions.2 (mem_flatMap.2 ⟨k, hk, mem_append_left _
    (mem_flatMap.2 ⟨op, hop, hx⟩)⟩)

theorem names_of_exit {g : Graph α} (hk : k ∈ g.blocks) (hx : x ∈ k.exit.names) : x ∈ g.names :=
  mem_firstMentions.2 (mem_flatMap.2 ⟨k, hk, mem_append_right _ hx⟩)

end Graph
end ShapeFlow
