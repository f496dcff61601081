/-
# Lowering keeps the meaning of a body

Lowering adds to one open block and to blocks it makes itself, so what it has
closed stays as it is in the end.  Statement by statement this shows where a
body is in its graph.  A graph therefore has just the same finite sequences of
events as the body it was made from.

Key definitions: `Lower.Completes`, `Lower.Lays`.
Key theorems: `Lower.stmts_lays`, `Graph.traces_ofBody?`, `Graph.traces_ofSource?`.
-/
import ShapeFlow.Proofs.Layout

namespace ShapeFlow

open List

variable {α : Type}

namespace Lower

/-- Since there were `n` blocks with `b` open, lowering has made `bs` with `b'` open, and `g` is
the graph in the end: only what is open gets more. -/
structure Completes (g : Graph α) (n b : Nat) (bs : List (Block α)) (b' : Nat) : Prop where
  same : ∀ i, i = b ∨ n ≤ i → i ≠ b' → i < bs.length → g.blocks[i]? = bs[i]?
  opened : ∀ k, bs[b']? = some k → ∃ k', g.blocks[b']? = some k' ∧ k.ops <+: k'.ops

/-- In `g` the statements `ss` are between what block `b` had as `k` and what block `b'` had
as `k'`. -/
structure Lays (g : Graph α) (loop : Option Loop) (ss : List (Stmt α)) (b : Nat) (k : Block α)
    (b' : Nat) (k' : Block α) : Prop where
  kept : ∃ k₁, g.blocks[b]? = some k₁ ∧ k.ops <+: k₁.ops
  laid : ∀ rest q, g.Laid loop ⟨b', k'.ops.length⟩ rest q →
    g.Laid loop ⟨b, k.ops.length⟩ (ss ++ rest) q

section Lays

variable {g : Graph α} {loop : Option Loop} {bs bs1 bs2 : List (Block α)} {b b1 b2 last d : Nat}
  {k k₁ k2 kl : Block α} {ss ss' yes no : List (Stmt α)} {es es' : List (Expr α)} {c : Expr α}
  {s : Stmt α}

theorem Lays.trans (h : Lays g loop ss b k b1 k₁) (h' : Lays g loop ss' b1 k₁ b2 k2) :
    Lays g loop (ss ++ ss') b k b2 k2 where
  kept := h.kept
  laid rest q hrest := by
    rw [append_assoc]
    exact h.laid _ q (h'.laid rest q hrest)

theorem Completes.second (h : Completes g bs.length b bs2 b2) (hfirst : Grown bs b bs1 b1 es) :
    Completes g bs1.length b1 bs2 b2 where
  same i hi := by
    refine h.same i ?_
    have := hfirst.length_le
    rcases hi with rfl | hi
    · exact hfirst.next
    · exact .inr (by omega)
  opened := h.opened

theorem Completes.first (h : Completes g bs.length b bs2 b2) (hsecond : Grown bs1 b1 bs2 b2 es)
    (hk : bs1[b1]? = some k₁) (hkept : ∃ k, g.blocks[b1]? = some k ∧ k₁.ops <+: k.ops) :
    Completes g bs.length b bs1 b1 where
  same i hi hne hlt := by
    have hle := hsecond.length_le
    have hne2 : i ≠ b2 := by rcases hsecond.next with h | h <;> omega
    rw [h.same i hi hne2 (by omega), hsecond.frame i hlt hne]
  opened k hk' := by
    obtain rfl := Option.mem_unique hk hk'
    exact hkept

theorem lays_op {o : Op α} (hs : s.op? = some o) (hb : bs[b]? = some k)
    (hc : Completes g bs.length b (bs.modify b fun k => { k with ops := k.ops ++ [o] }) b) :
    Lays g loop [s] b k b { k with ops := k.ops ++ [o] } := by
  obtain ⟨kg, hkg, hprefix⟩ := hc.opened { k with ops := k.ops ++ [o] } (by simp [hb])
  have hat : kg.ops[k.ops.length]? = some o := by
    obtain ⟨t, ht⟩ := hprefix
    rw [← ht]
    simp
  refine ⟨⟨kg, hkg, (prefix_append _ _).trans hprefix⟩, fun rest q hrest => ?_⟩
  refine .op hs ⟨kg, hkg, hat⟩ ?_
  simpa using hrest

/-- A jump closes the open block; nothing is said of the block that is opened. -/
theorem lays_jump {f : Block α → Block α} (hb : bs[b]? = some k) (hf : (f k).ops = k.ops)
    (hc : Completes g bs.length b (bs.modify b f ++ [blank]) bs.length)
    (hlaid : ∀ rest q, g.EndsAt ⟨b, k.ops.length⟩ (f k).exit (f k).succs →
      g.Laid loop ⟨b, k.ops.length⟩ (s :: rest) q) : Lays g loop [s] b k bs.length blank := by
  have hlt : b < bs.length := (List.getElem?_eq_some_iff.1 hb).1
  have hkb : g.blocks[b]? = some (f k) := by
    rw [hc.same b (.inl rfl) (by omega) (by simp; omega), getElem?_append_left (by simpa using hlt)]
    simp [hb]
  exact ⟨⟨f k, hkb, hf ▸ prefix_refl _⟩, fun rest q _ => hlaid rest q ⟨f k, hkb, by rw [hf], rfl, rfl⟩⟩

theorem completes_part {n : Nat} {l : Label} (hkl : bs2[last]? = some kl)
    (hlast : g.blocks[last]? = some (withEdge d l kl))
    (hrest : ∀ i, n ≤ i → i ≠ last → i < bs2.length → g.blocks[i]? = bs2[i]?) :
    Completes g (n + 1) n bs2 last where
  same i hi := hrest i (by omega)
  opened k' hk' := by
    obtain rfl := Option.mem_unique hkl hk'
    exact ⟨_, hlast, prefix_refl _⟩

theorem lays_fork (hb : bs[b]? = some k) (hk : k.Open)
    (hbody : Grown (branchBlocks bs b c) bs.length bs2 last es) (hkl : bs2[last]? = some kl)
    (hopen : kl.Open) (hgb : g.blocks[b]? =
      some (withEdge d .onFalse (withEdge bs.length .onTrue (withExit (.branch c) k))))
    (hsame : ∀ i, bs.length ≤ i → i < bs2.length →
      g.blocks[i]? = (branchedBlocks bs bs2 b last)[i]?)
    (ih : Completes g (bs.length + 1) bs.length bs2 last → Lays g loop yes bs.length blank last kl)
    (hno : ∀ rest q, g.Laid loop ⟨bs2.length, 0⟩ rest q → g.Laid loop ⟨d, 0⟩ (no ++ rest) q) :
    Lays g loop [.branch c yes no] b k bs2.length blank := by
  have h := hbody.branched hb hkl
  have hgl := (hsame last h.le h.last_lt).trans h.fall
  have hyes := ih (completes_part hkl hgl fun i hi hil hlt2 =>
    (hsame i hi hlt2).trans (h.body i hi hil hlt2))
  refine ⟨⟨_, hgb, prefix_refl _⟩, fun rest q hlaid => ?_⟩
  have hfall : g.FallsAt ⟨last, kl.ops.length⟩ bs2.length :=
    ⟨_, hgl, rfl, hopen.1, by simp [hopen.2]⟩
  have hfork : g.ForksAt ⟨b, k.ops.length⟩ (.branch c) bs.length d :=
    ⟨_, hgb, rfl, rfl, by simp [hk.2]⟩
  exact .branch hfork (hyes.laid rest q (.jump hfall hlaid)) (hno rest q hlaid)

theorem lays_branch (hb : bs[b]? = some k) (hk : k.Open)
    (hbody : Grown (branchBlocks bs b c) bs.length bs2 last es) (hkl : bs2[last]? = some kl)
    (hopen : kl.Open)
    (hc : Completes g bs.length b ((branchedBlocks bs bs2 b last).modify b
      (withEdge bs2.length .onFalse)) bs2.length)
    (ih : Completes g (bs.length + 1) bs.length bs2 last → Lays g loop yes bs.length blank last kl) :
    Lays g loop [.branch c yes []] b k bs2.length blank := by
  have h := hbody.branched hb hkl
  have hlt := h.lt
  have hge := h.le
  have hlast := h.last_lt
  refine lays_fork hb hk hbody hkl hopen ?_ (fun i hi hlt2 => ?_) ih fun _ _ hlaid => hlaid
  · rw [hc.same b (.inl rfl) (by omega) (by simp; omega), getElem?_modify_eq, h.fork]
    rfl
  · rw [hc.same i (.inr hi) (by omega) (by simp; omega), getElem?_modify_ne _ _ (by omega)]

theorem lays_branchElse {bs4 : List (Block α)} {last' : Nat} {kl' : Block α}
    (hb : bs[b]? = some k) (hk : k.Open)
    (hbody : Grown (branchBlocks bs b c) bs.length bs2 last es)
    (hbody' : Grown (branchedBlocks bs bs2 b last ++ [blank]) (bs2.length + 1) bs4 last' es')
    (hkl : bs2[last]? = some kl) (hopen : kl.Open) (hkl' : bs4[last']? = some kl')
    (hopen' : kl'.Open)
    (hc : Completes g bs.length b ((bs4.modify b (withEdge (bs2.length + 1) .onFalse)).modify last'
      (withEdge bs2.length .always)) bs2.length)
    (ih : Completes g (bs.length + 1) bs.length bs2 last → Lays g loop yes bs.length blank last kl)
    (ih' : Completes g (bs2.length + 2) (bs2.length + 1) bs4 last' →
      Lays g loop no (bs2.length + 1) blank last' kl') :
    Lays g loop [.branch c yes no] b k bs2.length blank := by
  have h := hbody.branched hb hkl
  have hlt := h.lt
  have hge := h.le
  have hlast := h.last_lt
  have hle' : bs2.length + 1 < bs4.length := by simpa using hbody'.length_le
  have hlast' := hbody'.lt
  have hge' := hbody'.le (by simp)
  -- the other blocks of the bodies are what they were
  have hsame : ∀ i, bs.length ≤ i → i ≠ bs2.length → i ≠ last' → i < bs4.length →
      g.blocks[i]? = bs4[i]? := fun i hi hne hil hlt4 => by
    rw [hc.same i (.inr hi) hne (by simp; omega), getElem?_modify_ne _ _ (Ne.symm hil),
      getElem?_modify_ne _ _ (by omega)]
  have hgl' : g.blocks[last']? = some (withEdge bs2.length .always kl') := by
    rw [hc.same last' (.inr (by omega)) (by omega) (by simp; omega), getElem?_modify_eq,
      getElem?_modify_ne _ _ (by omega), hkl']
    rfl
  have hno := ih' (completes_part hkl' hgl' fun i hi hil hlt4 =>
    hsame i (by omega) (by omega) hil hlt4)
  have hfall' : g.FallsAt ⟨last', kl'.ops.length⟩ bs2.length :=
    ⟨_, hgl', rfl, hopen'.1, by simp [hopen'.2]⟩
  refine lays_fork hb hk hbody hkl hopen ?_ (fun i hi hlt2 => ?_) ih fun rest q hlaid =>
    hno.laid rest q (.jump hfall' hlaid)
  · rw [hc.same b (.inl rfl) (by omega) (by simp; omega), getElem?_modify_ne _ _ (by omega),
      getElem?_modify_eq, hbody'.frame_branched b (by omega), h.fork]
    rfl
  · exact (hsame i hi (by omega) (by omega) (by omega)).trans (hbody'.frame_branched i (by omega))

theorem lays_loop {x : Exit α} {body : List (Stmt α)} (hs : s.loop? = some (x, body))
    (hb : bs[b]? = some k) (hk : k.Open)
    (hlower : stmts (some ⟨bs.length, bs.length + 1⟩) body (bs.length + 2) (loopBlocks bs b x) =
      .ok (last, bs2)) (hk1 : (loopedBlocks bs bs2 last)[bs.length + 1]? = some k₁)
    (hc : Completes g bs.length b (loopedBlocks bs bs2 last) (bs.length + 1))
    (ih : ∀ {kl : Block α}, LoopIn (some ⟨bs.length, bs.length + 1⟩) (loopBlocks bs b x).length →
      (loopBlocks bs b x)[bs.length + 2]? = some blank → bs2[last]? = some kl →
      Completes g (loopBlocks bs b x).length (bs.length + 2) bs2 last →
      Lays g (some ⟨bs.length, bs.length + 1⟩) body (bs.length + 2) blank last kl) :
    Lays g loop [s] b k (bs.length + 1) k₁ := by
  have hin : LoopIn (some ⟨bs.length, bs.length + 1⟩) (loopBlocks bs b x).length := by simp [LoopIn]
  have hnew : (loopBlocks bs b x)[bs.length + 2]? = some blank := by simp
  have hbody := stmts_grown hin hnew ⟨rfl, rfl⟩ hlower
  obtain ⟨kl, hkl, hopen⟩ := hbody.opened
  have h := hbody.looped hb hkl
  obtain rfl := Option.some.inj (h.new.symm.trans hk1)
  have hlt := h.lt
  have hge := h.le
  have hlast := h.last_lt
  have hgb := (hc.same b (.inl rfl) (by omega) (by simp; omega)).trans h.enter
  have hgh := (hc.same bs.length (.inr (Nat.le_refl _)) (by omega) (by simp; omega)).trans h.fork
  have hgl := (hc.same last (.inr (by omega)) (by omega) (by simp; omega)).trans h.back
  have hpart := completes_part (n := bs.length + 2) hkl hgl fun i hi hil hlt2 =>
    (hc.same i (.inr (by omega)) (by omega) (by simp; omega)).trans (h.body i hi hil)
  have hinner := ih hin hnew hkl (by simpa using hpart)
  refine ⟨⟨_, hgb, prefix_refl _⟩, fun rest q hlaid => ?_⟩
  have henter : g.FallsAt ⟨b, k.ops.length⟩ bs.length := ⟨_, hgb, rfl, hk.1, by simp [hk.2]⟩
  have hfork : g.ForksAt ⟨bs.length, 0⟩ x (bs.length + 2) (bs.length + 1) := ⟨_, hgh, rfl, rfl, rfl⟩
  have hback : g.FallsAt ⟨last, kl.ops.length⟩ bs.length := ⟨_, hgl, rfl, hopen.1, by simp [hopen.2]⟩
  have hin := hinner.laid [] ⟨last, kl.ops.length⟩ .nil
  rw [append_nil] at hin
  exact .jump henter (.loop hs hfork hin hback hlaid)

end Lays

mutual

theorem stmt_lays {g : Graph α} {loop : Option Loop} : ∀ {s : Stmt α} {bs bs' : List (Block α)}
    {b b' : Nat} {k k' : Block α}, LoopIn loop bs.length → bs[b]? = some k → k.Open →
    stmt loop s b bs = .ok (b', bs') → bs'[b']? = some k' → Completes g bs.length b bs' b' →
    Lays g loop [s] b k b' k'
  | .eval _, _, _, _, _, _, k', _, hb, _, h, hk', hc
  | .static _ _, _, _, _, _, _, k', _, hb, _, h, hk', hc
  | .global _, _, _, _, _, _, k', _, hb, _, h, hk', hc
  | .unset _, _, _, _, _, _, k', _, hb, _, h, hk', hc => by
    obtain ⟨rfl, rfl⟩ := stmt_op rfl h
    obtain rfl : _ = k' := by simpa [hb] using hk'
    exact lays_op rfl hb hc
  | .block body, bs, bs', b, b', k, k', hl, hb, hk, h, hk', hc => by
    rw [stmt] at h
    have hbody := stmts_lays hl hb hk h hk' hc
    exact ⟨hbody.kept, fun rest q hrest => .block (hbody.laid rest q hrest)⟩
  | .branch cond yes no, bs, bs', b, b', k, k', hl, hb, hk, h, hk', hc => by
    obtain ⟨last, bs2, hyes, rfl, hno⟩ := stmt_branch h
    have hin : LoopIn loop (branchBlocks bs b cond).length := hl.mono (by simp)
    have hnew : (branchBlocks bs b cond)[bs.length]? = some blank := by simp
    have hbody := stmts_grown hin hnew ⟨rfl, rfl⟩ hyes
    obtain ⟨kl, hkl, hopen⟩ := hbody.opened
    have hbranched := hbody.branched hb hkl
    have hlt := hbranched.lt
    have hle : bs.length + 1 ≤ bs2.length := by simpa using hbody.length_le
    have ih : Completes g (bs.length + 1) bs.length bs2 last →
        Lays g loop yes bs.length blank last kl := fun hc' =>
      stmts_lays hin hnew ⟨rfl, rfl⟩ hyes hkl (by simpa using hc')
    rcases hno with ⟨rfl, rfl⟩ | ⟨last', bs4, hno, rfl⟩
    · rw [getElem?_modify_ne _ _ (by omega), hbranched.new] at hk'
      obtain rfl := Option.some.inj hk'
      exact lays_branch hb hk hbody hkl hopen hc ih
    · have hnew' : (branchedBlocks bs bs2 b last ++ [blank])[bs2.length + 1]? = some blank := by simp
      have hin' : LoopIn loop (branchedBlocks bs bs2 b last ++ [blank]).length :=
        (hin.mono hbody.length_le).mono (by simp; omega)
      have hbody' := stmts_grown hin' hnew' ⟨rfl, rfl⟩ hno
      obtain ⟨kl', hkl', hopen'⟩ := hbody'.opened
      have hge' := hbody'.le (by simp)
      rw [getElem?_modify_ne _ _ (by omega), getElem?_modify_ne _ _ (by omega),
        hbody'.frame_branched _ (Nat.le_refl _), hbranched.new] at hk'
      obtain rfl := Option.some.inj hk'
      exact lays_branchElse hb hk hbody hbody' hkl hopen hkl' hopen' hc ih fun hc' =>
        stmts_lays hin' hnew' ⟨rfl, rfl⟩ hno hkl' (by simpa using hc')
  | .loop _ _, _, _, _, _, _, _, _, hb, hk, h, hk', hc
  | .each _ _ _ _, _, _, _, _, _, _, _, hb, hk, h, hk', hc => by
    obtain ⟨last, bs2, hbody, rfl, rfl⟩ := stmt_loop rfl h
    exact lays_loop rfl hb hk hbody hk' hc fun hin hnew => stmts_lays hin hnew ⟨rfl, rfl⟩ hbody
  | .ret e, bs, bs', b, b', k, k', _, hb, hk, h, hk', hc => by
    rw [stmt, setExit, update_bind] at h
    cases h
    rw [length_modify] at hc hk' ⊢
    obtain rfl : blank = k' := by simpa using hk'
    refine lays_jump hb rfl hc fun rest q hend => .ret ?_
    rwa [show (withExit (.ret e) k).succs = [] from hk.2] at hend
  | .leave, bs, bs', b, b', k, k', hl, hb, hk, h, hk', hc => by
    obtain ⟨l, rfl, rfl, rfl⟩ := stmt_jump (t := Loop.footer) (.inl ⟨rfl, rfl⟩) h
    obtain rfl : blank = k' := by simpa using hk'
    refine lays_jump hb rfl hc fun rest q hend => .leave ?_
    simpa [hk.1, hk.2] using hend
  | .next, bs, bs', b, b', k, k', hl, hb, hk, h, hk', hc => by
    obtain ⟨l, rfl, rfl, rfl⟩ := stmt_jump (t := Loop.header) (.inr ⟨rfl, rfl⟩) h
    obtain rfl : blank = k' := by simpa using hk'
    refine lays_jump hb rfl hc fun rest q hend => .next ?_
    simpa [hk.1, hk.2] using hend

theorem stmts_lays {g : Graph α} {loop : Option Loop} : ∀ {ss : List (Stmt α)}
    {bs bs' : List (Block α)} {b b' : Nat} {k k' : Block α}, LoopIn loop bs.length →
    bs[b]? = some k → k.Open → stmts loop ss b bs = .ok (b', bs') → bs'[b']? = some k' →
    Completes g bs.length b bs' b' → Lays g loop ss b k b' k'
  | [], bs, bs', b, b', k, k', _, hb, _, h, hk', hc => by
    rw [stmts] at h
    cases h
    obtain rfl := Option.mem_unique hb hk'
    exact ⟨hc.opened k hb, fun rest q hrest => hrest⟩
  | s :: ss, bs, bs', b, b', k, k', hl, hb, hk, h, hk', hc => by
    rw [stmts] at h
    obtain ⟨b1, bs1, hs, hss⟩ := bind_ok h
    have hfirst := stmt_grown hl hb hk hs
    obtain ⟨k₁, hb1, hk1⟩ := hfirst.opened
    have hl1 := hl.mono hfirst.length_le
    have hsecond := stmts_grown hl1 hb1 hk1 hss
    have hlays' := stmts_lays hl1 hb1 hk1 hss hk' (hc.second hfirst)
    have hlays := stmt_lays hl hb hk hs hb1 (hc.first hsecond hb1 hlays'.kept)
    exact hlays.trans hlays'

end

end Lower

theorem Graph.traces_ofBody? {ss : List (Stmt α)} {g : Graph α} (h : ofBody? ss = .ok g) :
    g.traces = Stmt.traces ss := by
  obtain ⟨⟨⟨⟩, bs⟩, hbody, hg⟩ := ok_of_except h
  have hg := Except.ok.inj hg
  change Lower.body ss [] = _ at hbody
  rw [Lower.body, Lower.fresh_bind] at hbody
  obtain ⟨last, bs1, hss, hbody⟩ := Lower.bind_ok hbody
  have hin : Lower.LoopIn none ([] ++ [(Lower.blank : Block α)]).length := by simp [Lower.LoopIn]
  have hgrown := Lower.stmts_grown hin (k := Lower.blank) (by simp) ⟨rfl, rfl⟩ hss
  obtain ⟨k, hlast, hk⟩ := hgrown.opened
  obtain ⟨close, hblocks, hclose⟩ : ∃ close : Block α → Block α, g.blocks = bs1.modify last close ∧
      close k = { k with exit := .ret none } := by
    refine ⟨_, by rw [← hg]; exact (Prod.mk.inj (Except.ok.inj hbody)).2.symm, ?_⟩
    simp only [hk.1]
  have hend : g.blocks[last]? = some { k with exit := .ret none } := by
    rw [hblocks]
    simp [hlast, hclose]
  have hc : Lower.Completes g ([] ++ [(Lower.blank : Block α)]).length 0 bs1 last := by
    refine ⟨fun i _ hne _ => ?_, fun k' hk' => ?_⟩
    · rw [hblocks]
      simp [hne.symm]
    · obtain rfl := Option.mem_unique hlast hk'
      exact ⟨_, hend, prefix_refl _⟩
  have hlays := Lower.stmts_lays hin (k := Lower.blank) (by simp) ⟨rfl, rfl⟩ hss hlast hc
  have hlaid := hlays.laid [] ⟨last, k.ops.length⟩ .nil
  rw [append_nil] at hlaid
  have hat : g.At ⟨ss, []⟩ ⟨entry, 0⟩ := ⟨none, _, hlaid, .none ⟨_, hend, rfl, rfl, hk.2⟩⟩
  exact Set.ext fun l => hat.emits_iff

/-- **Lowering keeps the meaning of a body.**  The walks of the graph from its entry have the
events of the runs of the body, up to any point: those of the body with its expressions
numbered, and so, up to the numbers, those of the body as written. -/
theorem Graph.traces_ofSource? {ss : List (Stmt Unit)} {g : Graph Nat} (h : ofSource? ss = .ok g) :
    g.traces = Stmt.traces (Stmt.numberAll 0 ss) ∧
      List.map Event.bare '' g.traces = Stmt.traces ss := by
  have htraces : g.traces = Stmt.traces (Stmt.numberAll 0 ss) := traces_ofBody? h
  refine ⟨htraces, ?_⟩
  rw [htraces, ← Stmt.traces_bareAll, Stmt.bareAll_number]

/-- A loop that goes on with its next turn, or is left, by a condition; what follows the jump is
never run. -/
def jumping : List (Stmt Unit) :=
  [.loop (.var () "c")
    [.branch (.var () "d") [.leave, .unset ["x"]] [.next], .ret none],
   .unset ["y"]]

/-- The loop of `jumping` is gone through once more, then left. -/
def onceMore : List (Event Unit) :=
  [.test (.var () "c") true, .test (.var () "d") false, .test (.var () "c") true,
   .test (.var () "d") true, .op (.unset ["y"]), .ret none]

theorem onceMore_mem : onceMore ∈ Stmt.traces jumping := by
  have seen : ∀ {r r' : Rest Unit} {e : Event Unit} {l : List (Event Unit)} (outcome : Bool),
      r.step outcome = some (some e, some r') → Emits Rest.Step r' l → Emits Rest.Step r (e :: l) :=
    fun outcome h hl => .go ⟨outcome, h⟩ hl
  have unseen : ∀ {r r' : Rest Unit} {l : List (Event Unit)},
      r.step true = some (none, some r') → Emits Rest.Step r' l → Emits Rest.Step r l :=
    fun h hl => Emits.go (o := none) ⟨true, h⟩ hl
  refine seen true rfl (seen false rfl (unseen rfl (seen true rfl (seen true rfl (unseen rfl
    (seen true rfl ?_))))))
  exact Emits.finish (o := some _) ⟨true, rfl⟩

theorem jumping_lowered : ∃ g, Graph.ofSource? jumping = .ok g ∧
    g.traces = Stmt.traces (Stmt.numberAll 0 jumping) ∧
    List.map Event.bare '' g.traces = Stmt.traces jumping ∧
    ∃ l ∈ g.traces, l.map Event.bare = onceMore := by
  obtain ⟨g, hg⟩ : ∃ g, Graph.ofSource? jumping = .ok g := ⟨_, rfl⟩
  obtain ⟨hnumbered, hwritten⟩ := Graph.traces_ofSource? hg
  refine ⟨g, hg, hnumbered, hwritten, ?_⟩
  have hmem := onceMore_mem
  rw [← hwritten] at hmem
  exact hmem

end ShapeFlow
