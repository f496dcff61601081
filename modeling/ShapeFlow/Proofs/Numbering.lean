/-
# The numbers of expressions

What is recorded about an expression is recorded under its number, so two expressions must
not share one.  An occurrence of an expression in a body is given by its place: the condition,
source or other top-level expression it is in, counted in the order of the text, and the seats
on the way down to it.  The graph of a body lists what stands at the places, each place once,
and the numbers that it uses are as many as there are places.

Key definitions: `Seat`, `Expr.at?`, `Stmt.at?`, `Lists`.
Key theorems: `Expr.lists_operands`, `Expr.lists_walk`, `Expr.operands_number`,
`Graph.roots_ofSource?`, `Graph.numbers_places`.
-/
import ShapeFlow.Proofs.Lowering
import ShapeFlow.Proofs.Operands
import ShapeFlow.Proofs.Traces

namespace ShapeFlow

open List

variable {α : Type}

/-! ### Places -/

/-- Where an operand stands in an expression. -/
inductive Seat where
  /-- Operand `i` as written. -/
  | operand (i : Nat)
  /-- The key of entry `i` of an array. -/
  | key (i : Nat)
  /-- The value of entry `i` of an array. -/
  | value (i : Nat)

/-- What stands at a seat. -/
def Expr.part? : Expr α → Seat → Option (Expr α)
  | .assign _ a b, .operand i => [a, b][i]?
  | .update _ _ a b, .operand i => [a, b][i]?
  | .step _ _ a, .operand i => [a][i]?
  | .binary _ _ a b, .operand i => [a, b][i]?
  | .unary _ _ a, .operand i => [a][i]?
  | .cast _ _ a, .operand i => [a][i]?
  | .choose _ a b c, .operand i => [a, b, c][i]?
  | .orElse _ a b, .operand i => [a, b][i]?
  | .call _ _ args, .operand i => args[i]?
  | .method _ a _ args, .operand i => (a :: args)[i]?
  | .new _ _ args, .operand i => args[i]?
  | .field _ a _, .operand i => [a][i]?
  | .item _ a b, .operand i => [a, b][i]?
  | .append _ a, .operand i => [a][i]?
  | .array _ entries, .key i => entries[i]?.bind fun x => x.parts.1
  | .array _ entries, .value i => entries[i]?.map fun x => x.parts.2
  | .instanceOf _ a _, .operand i => [a][i]?
  | .isset _ args, .operand i => args[i]?
  | .concat _ args, .operand i => args[i]?
  | _, _ => none

/-- What stands at the end of a path of seats. -/
def Expr.at? (e : Expr α) : List Seat → Option (Expr α)
  | [] => some e
  | s :: path => (e.part? s).bind fun x => x.at? path

/-- What stands at a place of a body: on a path in one of its expressions, which are counted in
the order of the text. -/
def Stmt.at? (ss : List (Stmt α)) (place : Nat × List Seat) : Option (Expr α) :=
  (Stmt.rootsAll ss)[place.1]?.bind fun e => e.at? place.2

/-! ### Lists of places -/

/-- The list holds what stands at the places of `f`, each place once. -/
def Lists {ι β : Type} (f : ι → Option β) (l : List β) : Prop :=
  ∃ places : List ι, places.Nodup ∧ (∀ p, p ∈ places ↔ (f p).isSome = true) ∧
    places.map f = l.map some

namespace Lists

variable {ι κ β γ : Type}

theorem getElem? (l : List β) : Lists (fun i : Nat => l[i]?) l := by
  refine ⟨range l.length, nodup_range, fun i => ?_, ?_⟩
  · simp
  · apply ext_getElem?
    intro i
    rcases Nat.lt_or_ge i l.length with hi | hi
    · simp [hi]
    · simp [hi]

variable {l : List β} {f : ι → Option β}

theorem image {f' : κ → Option β} (h : Lists f l) {j : ι → κ} (hj : j.Injective)
    (heq : ∀ i, f' (j i) = f i) (honto : ∀ k, (f' k).isSome = true → ∃ i, j i = k) :
    Lists f' l := by
  obtain ⟨places, hnodup, hmem, hmap⟩ := h
  refine ⟨places.map j, hnodup.map hj, fun k => ?_, ?_⟩
  · constructor
    · intro hk
      obtain ⟨i, hi, rfl⟩ := mem_map.1 hk
      rw [heq]
      exact (hmem i).1 hi
    · intro hk
      obtain ⟨i, rfl⟩ := honto k hk
      rw [heq] at hk
      exact mem_map_of_mem ((hmem i).2 hk)
  · rw [map_map, ← hmap]
    exact map_congr_left fun i _ => heq i

theorem flatMap (h : Lists f l) {g : β → κ → Option γ} {m : β → List γ}
    (hg : ∀ x ∈ l, Lists (g x) (m x)) :
    Lists (fun p : ι × κ => (f p.1).bind fun x => g x p.2) (l.flatMap m) := by
  obtain ⟨places, hnodup, hmem, hmap⟩ := h
  -- by induction on the outer places, as far as they are listed
  have hsome : ∀ (ps : List ι) (l : List β), ps.Nodup → ps.map f = l.map some →
      (∀ x ∈ l, Lists (g x) (m x)) → ∃ qs : List (ι × κ), qs.Nodup ∧
        (∀ q, q ∈ qs ↔ q.1 ∈ ps ∧ ((f q.1).bind fun x => g x q.2).isSome = true) ∧
        qs.map (fun q => (f q.1).bind fun x => g x q.2) = (l.flatMap m).map some := by
    intro ps
    induction ps with
    | nil =>
      intro l _ hl _
      obtain rfl : l = [] := by simpa using hl.symm
      exact ⟨[], nodup_nil, by simp, rfl⟩
    | cons p ps ih =>
      intro l hps hl hg
      obtain ⟨x, l, rfl⟩ : ∃ x l', l = x :: l' := exists_cons_of_ne_nil (by rintro rfl; simp at hl)
      obtain ⟨hp, hl⟩ : f p = some x ∧ ps.map f = l.map some := by simpa using hl
      obtain ⟨hnew, hps⟩ := nodup_cons.1 hps
      obtain ⟨ks, hks, hkmem, hkmap⟩ := hg x (.head _)
      obtain ⟨qs, hqs, hqmem, hqmap⟩ := ih l hps hl fun y hy => hg y (.tail _ hy)
      refine ⟨ks.map (Prod.mk p) ++ qs, ?_, fun q => ?_, ?_⟩
      · refine List.Nodup.append (hks.map (Prod.mk_right_injective p)) hqs fun q hq hq' => hnew ?_
        obtain ⟨k, -, rfl⟩ := mem_map.1 hq
        exact ((hqmem _).1 hq').1
      · rw [mem_append, hqmem, mem_cons]
        constructor
        · rintro (hq | ⟨hq, hq'⟩)
          · obtain ⟨k, hk, rfl⟩ := mem_map.1 hq
            exact ⟨.inl rfl, by simpa [hp] using (hkmem k).1 hk⟩
          · exact ⟨.inr hq, hq'⟩
        · rintro ⟨hq | hq, hq'⟩
          · obtain ⟨i, k⟩ := q
            obtain rfl : i = p := hq
            exact .inl (mem_map_of_mem ((hkmem k).2 (by simpa [hp] using hq')))
          · exact .inr ⟨hq, hq'⟩
      · rw [map_append, hqmap, flatMap_cons, map_append, ← hkmap, map_map]
        congr 1
        exact map_congr_left fun k _ => by simp [hp]
  obtain ⟨qs, hqs, hqmem, hqmap⟩ := hsome places l hnodup hmap hg
  refine ⟨qs, hqs, fun q => ?_, hqmap⟩
  rw [hqmem, hmem]
  refine ⟨And.right, fun hq => ⟨?_, hq⟩⟩
  rcases hf : f q.1 with _ | x
  · simp [hf] at hq
  · rfl

theorem numbering (h : Lists f l) : ∃ number : ι → Nat,
    Set.BijOn number {p | (f p).isSome = true} (Set.Iio l.length) ∧
      ∀ p x, f p = some x → l[number p]? = some x := by
  classical
  obtain ⟨places, hnodup, hmem, hmap⟩ := h
  have hlength : places.length = l.length := by simpa using congrArg length hmap
  refine ⟨fun p => places.idxOf p, ⟨fun p hp => ?_, fun p hp q _ heq => ?_, fun i hi => ?_⟩, ?_⟩
  · exact hlength ▸ idxOf_lt_length_of_mem ((hmem p).2 hp)
  · exact (idxOf_inj ((hmem p).2 hp)).1 heq
  · have hi' : i < places.length := hlength ▸ hi
    exact ⟨places[i], (hmem _).1 (getElem_mem hi'), hnodup.idxOf_getElem i hi'⟩
  · intro p x hp
    have hlt := idxOf_lt_length_of_mem ((hmem p).2 (by rw [hp]; rfl))
    have hthere : (places.map f)[places.idxOf p]? = some (some x) := by
      rw [getElem?_map, getElem?_eq_getElem hlt, getElem_idxOf hlt, Option.map_some, hp]
    rw [hmap, getElem?_map, Option.map_eq_some_iff] at hthere
    obtain ⟨y, hy, hyx⟩ := hthere
    rw [hy, Option.some.inj hyx]

end Lists

/-! ### Expressions -/

/-- An expression that has no entries has its operands in a row. -/
theorem Expr.lists_of_row {e : Expr α} {l : List (Expr α)} (hrow : ∀ i, e.part? (.operand i) = l[i]?)
    (hkey : ∀ i, e.part? (.key i) = none) (hvalue : ∀ i, e.part? (.value i) = none) :
    Lists e.part? l := by
  refine (Lists.getElem? l).image (j := Seat.operand) (fun _ _ => Seat.operand.inj) hrow ?_
  rintro (i | i | i) hi
  · exact ⟨i, rfl⟩
  · rw [hkey] at hi
    cases hi
  · rw [hvalue] at hi
    cases hi

/-- The key of an entry, or its value. -/
def Entry.part? (x : Entry α) (isValue : Bool) : Option (Expr α) :=
  if isValue then some x.parts.2 else x.parts.1

theorem Entry.lists_operands : ∀ x : Entry α, Lists x.part? x.operands
  | .value v => ⟨[true], by simp, by simp [part?, parts], rfl⟩
  | .pair k v => ⟨[false, true], by simp, by simp [part?, parts], rfl⟩

/-- **The operands** are what stands in an expression, each seat once. -/
theorem Expr.lists_operands (e : Expr α) : Lists e.part? e.operands := by
  cases e
  case array t entries =>
    have hlists := (Lists.getElem? entries).flatMap fun x _ => x.lists_operands
    refine hlists.image (j := fun p => if p.2 then .value p.1 else .key p.1) ?_ ?_ ?_
    · rintro ⟨i, _ | _⟩ ⟨i', _ | _⟩ heq <;> cases heq <;> rfl
    · rintro ⟨i, _ | _⟩
      · rfl
      · show entries[i]?.map _ = entries[i]?.bind _
        rw [Option.map_eq_bind]
        rfl
    · rintro (i | i | i) hi
      · cases hi
      · exact ⟨(i, false), rfl⟩
      · exact ⟨(i, true), rfl⟩
  all_goals exact lists_of_row (fun _ => rfl) (fun _ => rfl) fun _ => rfl

/-- **A walk** meets what stands in an expression, at whatever depth, each place once. -/
theorem Expr.lists_walk (e : Expr α) : Lists e.at? e.walk := by
  induction e using Expr.induct_operands with
  | h e ih =>
    obtain ⟨places, hnodup, hmem, hmap⟩ := e.lists_operands.flatMap ih
    refine ⟨[] :: places.map fun p => p.1 :: p.2, ?_, fun path => ?_, ?_⟩
    · refine nodup_cons.2 ⟨by simp, hnodup.map ?_⟩
      rintro ⟨s, path⟩ ⟨s', path'⟩ heq
      cases heq
      rfl
    · cases path with
      | nil => exact iff_of_true (.head _) rfl
      | cons s path =>
        rw [mem_cons, or_iff_right (cons_ne_nil s path)]
        refine .trans ⟨fun h => ?_, fun h => mem_map.2 ⟨_, h, rfl⟩⟩ (hmem (s, path))
        obtain ⟨⟨s', path'⟩, hp, heq⟩ := mem_map.1 h
        cases heq
        exact hp
    · rw [e.walk_eq, map_cons, map_cons, map_map, ← hmap]
      rfl

theorem Stmt.lists_rootsAll (ss : List (Stmt α)) :
    Lists (Stmt.at? ss) ((Stmt.rootsAll ss).flatMap Expr.walk) :=
  (Lists.getElem? _).flatMap fun e _ => e.lists_walk

/-! ### Numbering follows the operands -/

theorem Expr.tag_number (e : Expr α) (n : Nat) : (e.number n).tag = n := by
  cases e <;> rfl

theorem Expr.numberAll_append : ∀ (as bs : List (Expr α)) (n : Nat),
    numberAll n (as ++ bs) = numberAll n as ++ numberAll (n + sizeAll as) bs
  | [], _, _ => rfl
  | a :: as, bs, n => by
    rw [cons_append, numberAll, numberAll, sizeAll, numberAll_append as bs, cons_append,
      Nat.add_assoc]

theorem Expr.sizeAll_append (as bs : List (Expr α)) :
    sizeAll (as ++ bs) = sizeAll as + sizeAll bs := by
  rw [sizeAll_eq, sizeAll_eq, sizeAll_eq, map_append, sum_append]

theorem Entry.operands_numberAll : ∀ (entries : List (Entry α)) (n : Nat),
    (Entry.numberAll n entries).flatMap Entry.operands =
      Expr.numberAll n (entries.flatMap Entry.operands)
  | [], _ => rfl
  | entry :: entries, n => by
    cases entry <;> simp only [Entry.numberAll, flatMap_cons, Entry.operands, cons_append, nil_append,
      Expr.numberAll, operands_numberAll entries]

/-- **Numbering goes through the operands** of an expression in the order they are listed in. -/
theorem Expr.operands_number (e : Expr α) (n : Nat) :
    (e.number n).operands = numberAll (n + 1) e.operands := by
  cases e <;>
    simp only [Expr.number, Expr.operands, Expr.numberAll, Entry.operands_numberAll]

theorem Expr.mem_numberAll : ∀ {es : List (Expr α)} {n : Nat} {y : Expr Nat},
    y ∈ numberAll n es → ∃ x ∈ es, ∃ m, y = x.number m
  | [], _, _, h => by cases h
  | e :: es, n, y, h => by
    rcases mem_cons.1 h with rfl | h
    · exact ⟨e, .head _, n, rfl⟩
    · obtain ⟨x, hx, m, hm⟩ := mem_numberAll h
      exact ⟨x, .tail _ hx, m, hm⟩

theorem Expr.tags_walk_number (e : Expr α) (n : Nat) :
    (e.number n).walk.map tag = List.range' n (e.number n).walk.length := by
  have hlength : (e.number n).walk.length = e.size := by
    simpa using congrArg length (e.tags_number n)
  rw [hlength, e.tags_number]

/-- Numbering from 0 counts the expressions. -/
theorem Expr.tag_of_getElem? {es : List (Expr α)} {i : Nat} {y : Expr Nat}
    (h : ((numberAll 0 es).flatMap walk)[i]? = some y) : y.tag = i := by
  have htag : ((walkAll (numberAll 0 es)).map tag)[i]? = some y.tag := by
    rw [walkAll_eq, getElem?_map, h, Option.map_some]
  rw [tagsAll_number] at htag
  obtain ⟨hlt, htag⟩ := List.getElem?_eq_some_iff.1 htag
  rw [← htag, getElem_range', Nat.zero_add, Nat.one_mul]

theorem Expr.bare_walk_numberAll : ∀ (es : List (Expr Unit)),
    (∀ x ∈ es, ∀ n, (x.number n).walk.map bare = x.walk) → ∀ n,
      ((numberAll n es).flatMap walk).map bare = es.flatMap walk
  | [], _, _ => rfl
  | e :: es, h, n => by
    rw [numberAll, flatMap_cons, map_append, h e (.head _), flatMap_cons,
      bare_walk_numberAll es fun x hx => h x (.tail _ hx)]

theorem Expr.bare_walk_number (e : Expr Unit) : ∀ n, (e.number n).walk.map bare = e.walk := by
  induction e using Expr.induct_operands with
  | h e ih =>
    intro n
    rw [(e.number n).walk_eq, e.operands_number, map_cons, bare_number,
      bare_walk_numberAll _ ih, ← e.walk_eq]

/-! ### Bodies -/

mutual

theorem Stmt.sizeAll_roots : ∀ s : Stmt α, Expr.sizeAll s.roots = s.size
  | .eval e => by simp only [Stmt.roots, Stmt.size, Expr.sizeAll, Nat.add_zero]
  | .block body => by rw [Stmt.roots, Stmt.size, Stmt.sizeAll_rootsAll body]
  | .branch c yes no => by
    rw [Stmt.roots, Stmt.size, Expr.sizeAll, Expr.sizeAll_append, Stmt.sizeAll_rootsAll yes,
      Stmt.sizeAll_rootsAll no, Nat.add_assoc]
  | .loop c body | .each c _ _ body => by
    rw [Stmt.roots, Stmt.size, Expr.sizeAll, Stmt.sizeAll_rootsAll body]
  | .ret e | .static _ e => by cases e <;> rfl
  | .leave | .next | .global _ | .unset _ => rfl

theorem Stmt.sizeAll_rootsAll : ∀ ss : List (Stmt α), Expr.sizeAll (Stmt.rootsAll ss) = Stmt.sizeAll ss
  | [] => rfl
  | s :: ss => by
    rw [Stmt.rootsAll, Stmt.sizeAll, Expr.sizeAll_append, s.sizeAll_roots, Stmt.sizeAll_rootsAll ss]

end

mutual

theorem Stmt.roots_number : ∀ (s : Stmt α) (n : Nat), (s.number n).roots = Expr.numberAll n s.roots
  | .eval e, _ => rfl
  | .block body, n => by
    rw [Stmt.number, Stmt.roots, Stmt.roots, Stmt.rootsAll_number body]
  | .branch c yes no, n => by
    rw [Stmt.number, Stmt.roots, Stmt.roots, Expr.numberAll, Expr.numberAll_append,
      Stmt.rootsAll_number yes, Stmt.rootsAll_number no, Stmt.sizeAll_rootsAll]
  | .loop c body, n | .each c _ _ body, n => by
    rw [Stmt.number, Stmt.roots, Stmt.roots, Expr.numberAll, Stmt.rootsAll_number body]
  | .ret e, _ | .static _ e, _ => by cases e <;> rfl
  | .leave, _ | .next, _ | .global _, _ | .unset _, _ => rfl

theorem Stmt.rootsAll_number : ∀ (ss : List (Stmt α)) (n : Nat),
    Stmt.rootsAll (Stmt.numberAll n ss) = Expr.numberAll n (Stmt.rootsAll ss)
  | [], _ => rfl
  | s :: ss, n => by
    rw [Stmt.numberAll, Stmt.rootsAll, Stmt.rootsAll, Expr.numberAll_append, s.roots_number,
      Stmt.rootsAll_number ss, s.sizeAll_roots]

end

/-! ### Graphs -/

namespace Graph

variable {ss : List (Stmt Unit)} {g : Graph Nat}

/-- **The expressions of the graph** of a body are those of the body, numbered. -/
theorem roots_ofSource? (h : ofSource? ss = .ok g) :
    g.roots.Perm (Expr.numberAll 0 (Stmt.rootsAll ss)) := by
  unfold ofSource? ofBody? at h
  obtain ⟨⟨⟨⟩, bs⟩, hb, h⟩ := ok_of_except h
  obtain rfl := Except.ok.inj h
  rw [← Stmt.rootsAll_number]
  exact (Lower.body_closed hb).2.2

/-- **Every expression has a number of its own.**  The numbers of the expressions of a graph are
those below their count, each once.  The places of the body, dead code included, are numbered one
by one, so that the graph lists under the number of a place what stands there, and nothing else.
The numbers of a top-level expression follow each other in the order of a walk, which goes from an
expression to its operands, and numbering has gone through the same operands in the same order. -/
theorem numbers_places (h : ofSource? ss = .ok g) :
    (g.exprs.map Expr.tag).Perm (List.range g.exprCount) ∧
    (∃ number : Nat × List Seat → Nat,
      Set.BijOn number {p | (Stmt.at? ss p).isSome = true} (Set.Iio g.exprCount) ∧
      (∀ p x, Stmt.at? ss p = some x → ∃ y ∈ g.exprs, y.tag = number p ∧ y.bare = x) ∧
      ∀ y ∈ g.exprs, ∃ p, Stmt.at? ss p = some y.bare ∧ number p = y.tag) ∧
    (∀ e ∈ g.roots, e.walk.map Expr.tag = List.range' e.tag e.walk.length) ∧
    ∀ (e : Expr Unit) (n : Nat),
      (e.number n).operands = Expr.numberAll (n + 1) e.operands ∧
      (e.number n).walk = e.number n :: (e.number n).operands.flatMap Expr.walk := by
  have hroots := roots_ofSource? h
  have hnumbered := (sound_ofSource? h).numbered
  refine ⟨hnumbered, ?_, fun e he => ?_, fun e n => ⟨e.operands_number n, (e.number n).walk_eq⟩⟩
  · -- the expressions in the order of the text, which is that of their numbers
    obtain ⟨l, hl⟩ : ∃ l, l = (Expr.numberAll 0 (Stmt.rootsAll ss)).flatMap Expr.walk := ⟨_, rfl⟩
    have hperm : g.exprs.Perm l := hl ▸ hroots.flatMap_right Expr.walk
    have hcount : l.length = g.exprCount := by
      simpa using (hperm.map Expr.tag).symm.length_eq.trans hnumbered.length_eq
    have htag : ∀ {i : Nat} {y : Expr Nat}, l[i]? = some y → y.tag = i := fun hy =>
      Expr.tag_of_getElem? (hl ▸ hy)
    have hlists : Lists (Stmt.at? ss) (l.map Expr.bare) := by
      rw [hl, Expr.bare_walk_numberAll _ fun x _ => x.bare_walk_number]
      exact Stmt.lists_rootsAll ss
    obtain ⟨number, hbij, hat⟩ := hlists.numbering
    rw [List.length_map, hcount] at hbij
    have hfound : ∀ p x, Stmt.at? ss p = some x → ∃ y, l[number p]? = some y ∧ y.bare = x :=
      fun p x hp => Option.map_eq_some_iff.1 (List.getElem?_map ▸ hat p x hp)
    refine ⟨number, hbij, fun p x hp => ?_, fun y hy => ?_⟩
    · obtain ⟨y, hy, hbare⟩ := hfound p x hp
      exact ⟨y, hperm.mem_iff.2 (List.mem_of_getElem? hy), htag hy, hbare⟩
    · obtain ⟨i, hi⟩ := List.getElem?_of_mem (hperm.mem_iff.1 hy)
      have hlt : i < g.exprCount := hcount ▸ (List.getElem?_eq_some_iff.1 hi).1
      obtain ⟨p, hp, rfl⟩ := hbij.surjOn hlt
      obtain ⟨x, hx⟩ := Option.isSome_iff_exists.1 hp
      obtain ⟨z, hz, rfl⟩ := hfound p x hx
      obtain rfl : z = y := Option.some.inj (hz.symm.trans hi)
      exact ⟨p, hx, (htag hi).symm⟩
  · obtain ⟨x, -, m, rfl⟩ := Expr.mem_numberAll (hroots.mem_iff.1 he)
    rw [x.tag_number, x.tags_walk_number]

/-- An array with a key, in a branch that returns, and an expression after the return. -/
def returning : List (Stmt Unit) :=
  [.branch (.var () "c")
    [.ret (some (.array () [.pair (.lit () .string) (.var () "x"), .value (.lit () .int)])),
      .eval (.var () "dead")]
    [.eval (.step () .preInc (.var () "x"))],
   .static "n" (some (.orElse () (.var () "x") (.lit () .null)))]

/-- Eleven expressions are numbered, the key of the array and the one in dead code among them. -/
theorem returning_numbered : ∃ g, ofSource? returning = .ok g ∧
    Stmt.at? returning (1, [.key 0]) = some (.lit () .string) ∧
    Stmt.at? returning (2, []) = some (.var () "dead") ∧
    (g.exprs.map Expr.tag).Perm (List.range 11) ∧
    ∃ number : Nat × List Seat → Nat,
      Set.BijOn number {p | (Stmt.at? returning p).isSome = true} (Set.Iio 11) ∧
      (∀ p x, Stmt.at? returning p = some x → ∃ y ∈ g.exprs, y.tag = number p ∧ y.bare = x) ∧
      ∀ y ∈ g.exprs, ∃ p, Stmt.at? returning p = some y.bare ∧ number p = y.tag := by
  obtain ⟨g, hg⟩ : ∃ g, ofSource? returning = .ok g := ⟨_, rfl⟩
  have hcount : g.exprCount = 11 := by
    cases hg
    rfl
  obtain ⟨hnumbered, hplaces, -⟩ := numbers_places hg
  rw [hcount] at hnumbered hplaces
  exact ⟨g, hg, rfl, rfl, hnumbered, hplaces⟩

end Graph

end ShapeFlow
