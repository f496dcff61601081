/-
# Reaching a dynamic call

Nodes are visited until none is left on the agenda.  A node that is not waiting has
the marks it depends on, a mark is there only if it leads to one that was there at
first, and each visit uses up room: an entry of the agenda, or dependencies on a
node without a mark.  So the visits come to an end before their bound, whatever
cycles the dependencies form, and in the end exactly the routines are marked from
which, by any number of calls, one can be reached that makes a dynamic call.

Key definitions: `Marking.Solving`, `Marking.Agrees`, `Program.ReachesDynamic`.
Key theorems: `Marking.Solving.visit`, `Marking.mark_solve`, `Marking.Agrees.get_solve`,
`Program.forwardDynamic_marks`.
-/
import ShapeFlow.Proofs.Moves
import ShapeFlow.Run.Dynamic

namespace ShapeFlow

open Relation List

/-- Routine `i` calls routine `j`. -/
def CallGraph.Leads (g : CallGraph) (i j : Nat) : Prop := ∃ e ∈ g.edges, e.caller = i ∧ e.callee = j

theorem Agenda.size_insertAll_le : ∀ (l : List Nat) (q : Agenda Nat),
    (q.insertAll l).size ≤ q.size + l.length
  | [], q => Nat.le_refl _
  | a :: l, q => by
    have hrest := size_insertAll_le l (q.insert a)
    have hone := q.size_insert_le a
    rw [show q.insertAll (a :: l) = (q.insert a).insertAll l from rfl, length_cons]
    omega

namespace Marking

variable {a a' : Marking} {n m k j : Nat} {q : Agenda Nat}

/-! ### One visit -/

theorem foldl_join (f : Nat → Bool) : ∀ (l : List Nat) (changed mark : Bool),
    l.foldl (fun (x : Bool × Bool) m => (x.1 || (join x.2 (f m)).1, (join x.2 (f m)).2)) (changed, mark) =
      (changed || (l.any f && !mark), mark || l.any f)
  | [], changed, mark => by simp
  | m :: l, changed, mark => by
    rw [foldl_cons, foldl_join f l, any_cons]
    cases mark <;> cases f m <;> simp [join]

/-- The mark of a node, joined with those of the nodes it depends on. -/
def joined (a : Marking) (n : Nat) : Bool := a.mark n || (a.sources n).any a.mark

theorem visit_eq (a : Marking) (n : Nat) :
    a.visit n = (a.joined n && !a.mark n, { a with marks := a.marks.set n (a.joined n) }) := by
  unfold visit
  simp only [foldl_join, set_set, Bool.false_or]
  cases hmark : a.mark n with
  | true => simp [joined, hmark]
  | false =>
    have hsame : a.marks.set n false = a.marks := by
      refine ext_getElem? fun i => ?_
      rw [getElem?_set]
      split
      next h =>
        subst h
        rw [mark, getD_eq_getElem?_getD] at hmark
        split
        next hlt => rw [getElem?_eq_getElem hlt] at hmark ⊢; exact congrArg some hmark.symm
        next hge => rw [getElem?_eq_none (Nat.le_of_not_lt hge)]
      next => rfl
    rw [hsame]
    simp [joined, hmark]

theorem mark_visit (hn : n < a.marks.length) (m : Nat) :
    (a.visit n).2.mark m = if m = n then a.joined n else a.mark m := by
  rw [visit_eq]
  show (a.marks.set n (a.joined n)).getD m false = _
  rw [getD_eq_getElem?_getD, getElem?_set]
  by_cases h : m = n
  · subst h
    simp [hn]
  · simp [h, Ne.symm h, mark]

/-! ### Any number of visits -/

/-- Node `n` depends on node `m`. -/
def Needs (a : Marking) (n m : Nat) : Prop := (n, m) ∈ a.deps

/-- The dependencies are between nodes. -/
def Within (a : Marking) : Prop := ∀ d ∈ a.deps, d.1 < a.marks.length ∧ d.2 < a.marks.length

/-- What holds between visits, with the nodes of `l` still to visit: the marks are between those
there were at first and those wanted, and only what waits has yet to take over a mark. -/
structure Solving (a : Marking) (l : List Nat) (b : Marking) : Prop where
  frame : b = { a with marks := b.marks }
  length : b.marks.length = a.marks.length
  inside : ∀ n ∈ l, n < a.marks.length
  kept : ∀ n, a.mark n = true → b.mark n = true
  sound : ∀ n, b.mark n = true → ∃ m, a.mark m = true ∧ ReflTransGen a.Needs n m
  taken : ∀ n m, a.Needs n m → b.mark m = true → b.mark n = true ∨ n ∈ l

/-- What is left to do: the agenda, and the dependencies on nodes without a mark. -/
def room (q : Agenda Nat) (a : Marking) : Nat := q.size + a.deps.countP (!a.mark ·.2)

theorem needs_visit : (a.visit k).2.Needs n m ↔ a.Needs n m := by
  rw [visit_eq]
  exact Iff.rfl

theorem mem_sources : m ∈ a.sources n ↔ a.Needs n m := by
  simp [sources, Needs]

theorem mem_dependents : m ∈ a.dependents n ↔ a.Needs m n := by
  simp [dependents, Needs]

theorem joined_iff : a.joined n = true ↔ a.mark n = true ∨ ∃ m, a.Needs n m ∧ a.mark m = true := by
  rw [joined, Bool.or_eq_true, any_eq_true]
  simp only [mem_sources]

/-- The agenda after a visit of `n`. -/
def next (q : Agenda Nat) (a : Marking) (n : Nat) : Agenda Nat :=
  if (a.visit n).1 then q.insertAll ((a.visit n).2.dependents n) else q

variable {b : Marking} {q' : Agenda Nat}

/-- **One visit** of the next node. -/
theorem Solving.visit (h : Solving a q.toList b) (ha : a.Within) (hpop : q.pop? = some (n, q')) :
    Solving a (next q' b n).toList (b.visit n).2 := by
  obtain ⟨hlist, -⟩ := Agenda.pop?_spec hpop
  have hn : n < b.marks.length := h.length ▸ h.inside n (hlist ▸ .head _)
  have hneeds : ∀ {x y}, b.Needs x y ↔ a.Needs x y := by rw [h.frame]; exact Iff.rfl
  have hmark := mark_visit hn
  have hnext : ∀ m, m ∈ (next q' b n).toList ↔
      m ∈ q'.toList ∨ (b.visit n).1 = true ∧ a.Needs m n := by
    intro m
    unfold next
    split
    next hc => rw [Agenda.mem_insertAll, mem_dependents, needs_visit, hneeds, and_iff_right hc]
    next hc => simp [hc]
  have hgrows : ∀ m, b.mark m = true → (b.visit n).2.mark m = true := fun m hm => by
    rw [hmark]
    split
    next heq => exact joined_iff.2 (.inl (heq ▸ hm))
    next => exact hm
  refine ⟨?_, ?_, fun m hm => ?_, fun m hm => hgrows m (h.kept m hm), fun m hm => ?_, fun x y hxy hy => ?_⟩
  · rw [visit_eq, h.frame]
  · rw [visit_eq, length_set, h.length]
  · rcases (hnext m).1 hm with hm | ⟨-, hm⟩
    · exact h.inside m (hlist ▸ .tail _ hm)
    · exact (ha _ hm).1
  · rw [hmark] at hm
    split at hm
    next heq =>
      rcases joined_iff.1 hm with hm | ⟨y, hy, hm⟩
      · exact heq ▸ h.sound n hm
      · obtain ⟨z, hz, hpath⟩ := h.sound y hm
        exact ⟨z, hz, heq ▸ .head (hneeds.1 hy) hpath⟩
    next => exact h.sound m hm
  · -- a node that was waiting is visited now or still waits; one that needs `n` waits if `n` changed
    by_cases hx : x = n
    · subst hx
      left
      by_cases hyx : y = x
      · exact hyx ▸ hy
      · rw [hmark, if_neg hyx] at hy
        rw [hmark, if_pos rfl]
        exact joined_iff.2 (.inr ⟨y, hneeds.2 hxy, hy⟩)
    · by_cases hold : b.mark y = true
      · rcases h.taken x y hxy hold with hx' | hx'
        · exact .inl (hgrows x hx')
        · rw [hlist] at hx'
          exact .inr ((hnext x).2 (.inl ((mem_cons.1 hx').resolve_left hx)))
      · rw [hmark] at hy
        split at hy
        next heq =>
          subst heq
          exact .inr ((hnext x).2 (.inr ⟨by rw [visit_eq]; simp [hy, hold], hxy⟩))
        next => exact absurd hy hold

/-- The mark of a node that gets one is counted once for each node that needs it. -/
theorem countP_unmarked (hn : a.mark n = false) (hmark : ∀ m, a'.mark m = if m = n then true else a.mark m)
    (l : List (Nat × Nat)) : l.countP (!a'.mark ·.2) + (l.filter (·.2 == n)).length =
      l.countP (!a.mark ·.2) := by
  induction l with
  | nil => rfl
  | cons d l ih =>
    have hhead := hmark d.2
    rw [countP_cons, countP_cons, ← ih]
    by_cases hd : d.2 = n
    · rw [if_pos hd] at hhead
      rw [filter_cons_of_pos (by simpa using hd), length_cons, hhead, hd, hn]
      simp only [Bool.not_true, Bool.not_false, Bool.false_eq_true, if_true, if_false]
      omega
    · rw [if_neg hd] at hhead
      rw [filter_cons_of_neg (by simpa using hd), hhead]
      omega

theorem room_visit (hn : n < a.marks.length) (hpop : q.pop? = some (n, q')) :
    room (next q' a n) (a.visit n).2 < room q a := by
  obtain ⟨-, hsize⟩ := Agenda.pop?_spec hpop
  have hdeps : (a.visit n).2.deps = a.deps := by rw [visit_eq]
  have hmark := mark_visit hn
  unfold next room
  rw [hdeps]
  cases hc : (a.visit n).1 with
  | true =>
    rw [visit_eq, Bool.and_eq_true, Bool.not_eq_true'] at hc
    rw [hc.1] at hmark
    have hcount := countP_unmarked hc.2 hmark a.deps
    have hinsert := Agenda.size_insertAll_le ((a.visit n).2.dependents n) q'
    rw [dependents, length_map, hdeps] at hinsert
    rw [if_pos rfl, dependents, hdeps]
    omega
  | false =>
    rw [visit_eq] at hc
    have hjoined : a.joined n = a.mark n := by
      cases hm : a.mark n with
      | true => exact joined_iff.2 (.inl hm)
      | false => simpa [hm] using hc
    have hsame : ∀ m, (a.visit n).2.mark m = a.mark m := fun m => by
      rw [hmark, hjoined]
      split
      next heq => rw [heq]
      next => rfl
    simp only [hsame]
    rw [if_neg (by simp)]
    omega

/-- **All visits**: with enough room nothing is left waiting. -/
theorem Solving.visitAll (ha : a.Within) : ∀ {bound : Nat} {q : Agenda Nat} {b : Marking},
    Solving a q.toList b → room q b ≤ bound → Solving a [] (visitAll bound q b)
  | 0, q, b, h, hroom => by
    have hempty : q.toList = [] := length_eq_zero_iff.1 (Nat.le_zero.1 (Nat.le_trans (Nat.le_add_right _ _) hroom))
    exact hempty ▸ h
  | bound + 1, q, b, h, hroom => by
    rw [Marking.visitAll]
    rcases hpop : q.pop? with _ | ⟨n, q'⟩
    · exact Agenda.pop?_eq_none hpop ▸ h
    · have hn : n < b.marks.length := h.length ▸ h.inside n ((Agenda.pop?_spec hpop).1 ▸ .head _)
      have hless := room_visit hn hpop
      have hrest : room (next q' b n) (b.visit n).2 ≤ bound := by omega
      exact Solving.visitAll ha (h.visit ha hpop) hrest

theorem solving_solve (ha : a.Within) : Solving a [] a.solve := by
  refine Solving.visitAll ha ⟨rfl, rfl, fun n hn => ?_, fun _ h => h, fun n hn => ⟨n, hn, .refl⟩,
    fun n m hnm _ => .inr ?_⟩ ?_
  · simpa [Agenda.empty, Agenda.toList] using (Agenda.mem_insertAll.1 hn).resolve_left (not_mem_nil)
  · exact Agenda.mem_insertAll.2 (.inr (mem_range.2 (ha _ hnm).1))
  · have hsize := Agenda.size_insertAll_le (range a.marks.length) Agenda.empty
    have hcount : a.deps.countP (!a.mark ·.2) ≤ a.deps.length := countP_le_length
    rw [length_range, show (Agenda.empty : Agenda Nat).size = 0 from rfl] at hsize
    unfold room
    omega

/-- **The solution**: a node is marked if and only if it leads to one that was marked at first. -/
theorem mark_solve (ha : a.Within) (n : Nat) :
    a.solve.mark n = true ↔ ∃ m, a.mark m = true ∧ ReflTransGen a.Needs n m := by
  have h := solving_solve ha
  refine ⟨h.sound n, ?_⟩
  rintro ⟨m, hm, hpath⟩
  induction hpath using ReflTransGen.head_induction_on with
  | refl => exact h.kept m hm
  | head hneeds _ ih => exact (h.taken _ _ hneeds ih).resolve_right not_mem_nil

/-! ### Keys -/

/-- Every node is that of one key, and dependencies are between nodes. -/
structure Agrees (a : Marking) : Prop where
  inside : ∀ {k n}, a.nodes k = some n → n < a.marks.length
  unique : ∀ {k j n}, a.nodes k = some n → a.nodes j = some n → k = j
  named : ∀ {n}, n < a.marks.length → ∃ k, a.nodes k = some n
  within : a.Within

/-- The key `k` is marked. -/
def Source (a : Marking) (k : Nat) : Prop := ∃ n, a.nodes k = some n ∧ a.mark n = true

/-- The key `k` depends on the key `j`. -/
def Leads (a : Marking) (k j : Nat) : Prop :=
  ∃ n m, a.nodes k = some n ∧ a.nodes j = some m ∧ a.Needs n m

theorem lt_of_mark (h : a.mark n = true) : n < a.marks.length := by
  by_contra hge
  rw [mark, getD_eq_default _ _ (Nat.le_of_not_lt hge)] at h
  cases h

theorem Agrees.congr (h : a.Agrees) (hnodes : a'.nodes = a.nodes)
    (hlength : a'.marks.length = a.marks.length) (hwithin : a'.Within) : a'.Agrees where
  inside hn := hlength ▸ h.inside (hnodes ▸ hn)
  unique hn hn' := h.unique (hnodes ▸ hn) (hnodes ▸ hn')
  named hn := hnodes ▸ h.named (hlength ▸ hn)
  within := hwithin

theorem agrees_empty : Agrees {} where
  inside h := by cases h
  unique h := by cases h
  named h := by cases h
  within _ h := by cases h

/-- **The solution in terms of keys.** -/
theorem Agrees.get_solve (h : a.Agrees) (k : Nat) :
    (a.solve.get k).getD false = true ↔ ∃ j, a.Source j ∧ ReflTransGen a.Leads k j := by
  have hget : (a.solve.get k).getD false = true ↔ ∃ n, a.nodes k = some n ∧ a.solve.mark n = true := by
    rw [get, (solving_solve h.within).frame]
    cases a.nodes k <;> simp [mark]
  rw [hget]
  clear hget
  constructor
  · rintro ⟨n, hn, hmark⟩
    obtain ⟨m, hm, hpath⟩ := (mark_solve h.within n).1 hmark
    have hkeys : ∃ j, a.nodes j = some m ∧ ReflTransGen a.Leads k j := by
      clear hm
      induction hpath with
      | refl => exact ⟨k, hn, .refl⟩
      | tail _ hneeds ih =>
        obtain ⟨j, hj, hpath⟩ := ih
        obtain ⟨j', hj'⟩ := h.named (h.within _ hneeds).2
        exact ⟨j', hj', hpath.tail ⟨_, _, hj, hj', hneeds⟩⟩
    obtain ⟨j, hj, hpath⟩ := hkeys
    exact ⟨j, ⟨m, hj, hm⟩, hpath⟩
  · rintro ⟨j, ⟨m, hj, hm⟩, hpath⟩
    have hnodes : ∃ n, a.nodes k = some n ∧ ReflTransGen a.Needs n m := by
      induction hpath using ReflTransGen.head_induction_on with
      | refl => exact ⟨m, hj, .refl⟩
      | head hleads _ ih =>
        obtain ⟨x, y, hx, hy, hneeds⟩ := hleads
        obtain ⟨n, hn, hpath⟩ := ih
        obtain rfl := Option.some.inj (hy.symm.trans hn)
        exact ⟨x, hx, .head hneeds hpath⟩
    obtain ⟨n, hn, hpath⟩ := hnodes
    exact ⟨n, hn, (mark_solve h.within n).2 ⟨m, hm, hpath⟩⟩

/-- `a'` has more keys and nothing else. -/
structure Enlarges (a a' : Marking) : Prop where
  agrees : a'.Agrees
  nodes : ∀ {k n}, a.nodes k = some n → a'.nodes k = some n
  mark : ∀ n, a'.mark n = a.mark n
  deps : a'.deps = a.deps

theorem Enlarges.trans {a'' : Marking} (h : Enlarges a a') (h' : Enlarges a' a'') : Enlarges a a'' :=
  ⟨h'.agrees, fun hn => h'.nodes (h.nodes hn), fun n => (h'.mark n).trans (h.mark n), h'.deps.trans h.deps⟩

theorem Enlarges.nodes_iff (h : Enlarges a a') (ha : a.Agrees) (hn : n < a.marks.length) :
    a'.nodes k = some n ↔ a.nodes k = some n := by
  refine ⟨fun hk => ?_, h.nodes⟩
  obtain ⟨j, hj⟩ := ha.named hn
  exact h.agrees.unique (h.nodes hj) hk ▸ hj

theorem Enlarges.source (h : Enlarges a a') (ha : a.Agrees) : a'.Source k ↔ a.Source k :=
  exists_congr fun n => by
    rw [h.mark]
    exact and_congr_left fun hn => h.nodes_iff ha (lt_of_mark hn)

theorem Enlarges.leads (h : Enlarges a a') (ha : a.Agrees) : a'.Leads k j ↔ a.Leads k j :=
  exists₂_congr fun n m => by
    have hneeds : a'.Needs n m ↔ a.Needs n m := by rw [Needs, h.deps, Needs]
    rw [hneeds, ← and_assoc, ← and_assoc]
    exact and_congr_left fun hn =>
      and_congr (h.nodes_iff ha (ha.within _ hn).1) (h.nodes_iff ha (ha.within _ hn).2)

theorem adds_node (h : a.Agrees) (k : Nat) :
    Enlarges a (a.node k).2 ∧ (a.node k).2.nodes k = some (a.node k).1 := by
  unfold node
  split
  next n hn => exact ⟨⟨h, id, fun _ => rfl, rfl⟩, hn⟩
  next hnone =>
    refine ⟨⟨⟨?_, ?_, ?_, fun d hd => ?_⟩, ?_, fun n => ?_, rfl⟩, if_pos rfl⟩
    · have := @h.inside
      grind
    · have := @h.inside
      have := @h.unique
      grind
    · intro n hn
      by_cases heq : n = a.marks.length
      · exact ⟨k, by simp [heq]⟩
      · obtain ⟨j, hj⟩ := h.named (Nat.lt_of_le_of_ne (Nat.lt_succ_iff.1 (by simpa using hn)) heq)
        exact ⟨j, by grind⟩
    · have := h.within d hd
      grind
    · grind
    · simp [mark, getElem?_append]
      grind

theorem addSource_spec (h : a.Agrees) (k : Nat) (mark : Bool) : (a.addSource k mark).Agrees ∧
    (∀ j, (a.addSource k mark).Source j ↔ a.Source j ∨ k = j ∧ mark = true) ∧
    ∀ x y, (a.addSource k mark).Leads x y ↔ a.Leads x y := by
  obtain ⟨hadds, hnode⟩ := adds_node h k
  unfold addSource
  rcases hfirst : a.node k with ⟨n, a'⟩
  rw [hfirst] at hadds hnode
  dsimp only at hadds hnode ⊢
  have hagrees := hadds.agrees
  have hmark : ∀ m, (a'.marks.modify n fun old => (join old mark).2).getD m false = true ↔
      a'.mark m = true ∨ m = n ∧ mark = true := fun m => by
    rw [getD_eq_getElem?_getD, getElem?_modify]
    by_cases hm : n = m
    · subst hm
      simp [hagrees.inside hnode, Marking.mark, join]
    · simp [hm, Ne.symm hm, Marking.mark]
  refine ⟨hagrees.congr rfl (length_modify ..) ?_, fun j => ?_, fun x y => hadds.leads h⟩
  · simpa [Within] using hagrees.within
  · rw [← hadds.source h]
    constructor
    · rintro ⟨m, hj, hm⟩
      rcases (hmark m).1 hm with hold | ⟨rfl, hnew⟩
      · exact .inl ⟨m, hj, hold⟩
      · exact .inr ⟨hagrees.unique hnode hj, hnew⟩
    · rintro (⟨m, hj, hm⟩ | ⟨rfl, hm⟩)
      · exact ⟨m, hj, (hmark m).2 (.inl hm)⟩
      · exact ⟨n, hnode, (hmark n).2 (.inr ⟨rfl, hm⟩)⟩

theorem addDep_spec (h : a.Agrees) (k j : Nat) : (a.addDep k j).Agrees ∧
    (∀ x, (a.addDep k j).Source x ↔ a.Source x) ∧
    ∀ x y, (a.addDep k j).Leads x y ↔ a.Leads x y ∨ k = x ∧ j = y := by
  obtain ⟨hadds, hk⟩ := adds_node h k
  obtain ⟨hadds', hj⟩ := adds_node hadds.agrees j
  have hboth := hadds.trans hadds'
  have hk' := hadds'.nodes hk
  unfold addDep
  rcases hfirst : a.node k with ⟨n, a1⟩
  rw [hfirst] at hboth hk' hj
  dsimp only
  rcases hsecond : a1.node j with ⟨m, a2⟩
  rw [hsecond] at hboth hk' hj
  dsimp only at hboth hk' hj ⊢
  have hagrees := hboth.agrees
  refine ⟨hagrees.congr rfl rfl fun d hd => ?_, fun x => hboth.source h, fun x y => ?_⟩
  · rcases mem_cons.1 hd with rfl | hd
    · exact ⟨hagrees.inside hk', hagrees.inside hj⟩
    · exact hagrees.within d hd
  · rw [← hboth.leads h]
    constructor
    · rintro ⟨n', m', hx, hy, hneeds⟩
      rcases mem_cons.1 hneeds with heq | hneeds
      · cases heq
        exact .inr ⟨hagrees.unique hk' hx, hagrees.unique hj hy⟩
      · exact .inl ⟨n', m', hx, hy, hneeds⟩
    · rintro (⟨n', m', hx, hy, hneeds⟩ | ⟨rfl, rfl⟩)
      · exact ⟨n', m', hx, hy, .tail _ hneeds⟩
      · exact ⟨n, m, hk', hj, .head _⟩

theorem foldl_addDep (k : Nat) : ∀ (es : List CallEdge) {a : Marking}, a.Agrees →
    (es.foldl (fun a e => a.addDep k e.callee) a).Agrees ∧
    (∀ x, (es.foldl (fun a e => a.addDep k e.callee) a).Source x ↔ a.Source x) ∧
    ∀ x y, (es.foldl (fun a e => a.addDep k e.callee) a).Leads x y ↔
      a.Leads x y ∨ k = x ∧ ∃ e ∈ es, e.callee = y
  | [], _, h => ⟨h, fun _ => Iff.rfl, by simp⟩
  | e :: es, a, h => by
    obtain ⟨hagrees, hsource, hleads⟩ := addDep_spec h k e.callee
    obtain ⟨hagrees', hsource', hleads'⟩ := foldl_addDep k es hagrees
    refine ⟨hagrees', fun x => (hsource' x).trans (hsource x), fun x y => (hleads' x y).trans ?_⟩
    rw [hleads, or_assoc, ← and_or_left, exists_mem_cons_iff]

theorem foldl_routines (g : CallGraph) : ∀ (rs : List Routine) {a : Marking}, a.Agrees →
    let a' := rs.foldl (fun a r => (g.outOf r.id).foldl (fun a e => a.addDep r.id e.callee)
      (a.addSource r.id r.flags.dynamicCall)) a
    a'.Agrees ∧
    (∀ x, a'.Source x ↔ a.Source x ∨ ∃ r ∈ rs, r.id = x ∧ r.flags.dynamicCall = true) ∧
    ∀ x y, a'.Leads x y ↔ a.Leads x y ∨ ∃ r ∈ rs, r.id = x ∧ ∃ e ∈ g.outOf r.id, e.callee = y
  | [], _, h => ⟨h, by simp, by simp⟩
  | r :: rs, a, h => by
    obtain ⟨hagrees, hsource, hleads⟩ := addSource_spec h r.id r.flags.dynamicCall
    obtain ⟨hagrees1, hsource1, hleads1⟩ := foldl_addDep r.id (g.outOf r.id) hagrees
    obtain ⟨hagrees2, hsource2, hleads2⟩ := foldl_routines g rs hagrees1
    refine ⟨hagrees2, fun x => (hsource2 x).trans ?_, fun x y => (hleads2 x y).trans ?_⟩
    · rw [hsource1, hsource, exists_mem_cons_iff, or_assoc]
    · rw [hleads1, hleads, exists_mem_cons_iff, or_assoc]

end Marking

namespace Program

/-! ### The routines of a program -/

variable {p : Program} {i : Nat}

/-- By any number of calls, routine `i` leads to one that makes a dynamic call. -/
def ReachesDynamic (p : Program) (i : Nat) : Prop :=
  ∃ d ∈ p.routines, d.flags.dynamicCall = true ∧ ReflTransGen p.calls.Leads i d.id

theorem mem_of_caller (hp : p.Kept) {e : CallEdge} (he : e ∈ p.calls.edges) :
    ∃ r ∈ p.routines, r.id = e.caller := by
  obtain ⟨r, hr, -⟩ := (hp.edges e he).caller
  exact ⟨r, mem_of_getElem? hr, hp.ids _ r hr⟩

/-- **The marks of a program**: its routines are the keys, and its calls the dependencies. -/
theorem get_marking (hp : p.Kept) :
    (p.marking.solve.get i).getD false = true ↔ p.ReachesDynamic i := by
  obtain ⟨hagrees, hsource, hleads⟩ := Marking.foldl_routines p.calls p.routines Marking.agrees_empty
  have hcalls : p.marking.Leads = p.calls.Leads := by
    funext x y
    refine propext ((hleads x y).trans ⟨?_, fun ⟨e, he, hcaller, hcallee⟩ => .inr ?_⟩)
    · rintro (⟨_, _, hx, -⟩ | ⟨r, -, rfl, e, he, rfl⟩)
      · cases hx
      · obtain ⟨he, hcaller⟩ := CallGraph.mem_outOf.1 he
        exact ⟨e, he, hcaller, rfl⟩
    · obtain ⟨r, hr, hid⟩ := mem_of_caller hp he
      exact ⟨r, hr, hid.trans hcaller, e, CallGraph.mem_outOf.2 ⟨he, hid.symm⟩, hcallee⟩
  refine (hagrees.get_solve i).trans ⟨?_, fun ⟨d, hd, hflag, hpath⟩ => ?_⟩
  · rintro ⟨j, hj, hpath⟩
    rcases (hsource j).1 hj with ⟨_, hj, -⟩ | ⟨d, hd, rfl, hflag⟩
    · cases hj
    · exact ⟨d, hd, hflag, hcalls ▸ hpath⟩
  · exact ⟨d.id, (hsource d.id).2 (.inr ⟨d, hd, rfl, hflag⟩), hcalls.symm ▸ hpath⟩

theorem forwardDynamic_marks (hp : p.Kept) : Each (fun r r' => r' = { r with flags := r'.flags } ∧
    r'.flags.dynamicCall = r.flags.dynamicCall ∧
    (r'.flags.callsDynamic = true ↔ r.flags.callsDynamic = true ∨ p.ReachesDynamic r.id))
    p p.forwardDynamic := by
  refine each_map p _ fun r _ => ?_
  split
  next hmarked =>
    have hreach : p.ReachesDynamic r.id := (get_marking hp).1 hmarked
    refine ⟨rfl, ?_, ?_⟩
    · change (r.flags.dynamicCall || false) = _
      rw [Bool.or_false]
    · change (r.flags.callsDynamic || true) = true ↔ _
      simp [hreach]
  next hmarked =>
    have hreach : ¬ p.ReachesDynamic r.id := mt (get_marking hp).2 hmarked
    exact ⟨rfl, rfl, by simp [hreach]⟩

end Program
end ShapeFlow
