/-
# What the call graph records

Calls come in one by one.  Those from one expression of one routine to one routine share an edge,
which stands where the first of them put it and keeps the block and the expressions of that one;
the types of its arguments are those of all of them.  So an edge can be described by the calls
alone, and only the place of an edge depends on their order, not the types.

Key definitions: `CallEdge.argument`, `CallEdge.arity`, `CallGraph.Records`.
Key theorems: `CallGraph.Records.add`, `CallGraph.records_ofCalls`, `CallGraph.ofCalls_accumulates`.
-/
import ShapeFlow.Proofs.Steps

namespace ShapeFlow

open List TypeSet

/-! ### Unions of types -/

namespace TypeSet

variable {l : List TypeSet}

/-- The union of sets. -/
def unions (l : List TypeSet) : TypeSet := l.foldr (· ∪ ·) .void

theorem mem_unions {i : Nat} : i ∈ unions l ↔ ∃ s ∈ l, i ∈ s := by
  induction l with
  | nil => simp [unions]
  | cons s l ih =>
    rw [unions, foldr_cons, mem_union, ← unions, ih]
    simp

theorem byRef_unions : (unions l).byRef = true ↔ ∃ s ∈ l, s.byRef = true := by
  induction l with
  | nil => simp [unions, void]
  | cons s l ih =>
    rw [unions, foldr_cons, byRef_union, Bool.or_eq_true, ← unions, ih]
    simp

theorem unions_congr {l' : List TypeSet} (h : ∀ s, s ∈ l ↔ s ∈ l') : unions l = unions l' := by
  refine ext_mem (fun i => ?_) (Bool.eq_iff_iff.2 ?_)
  · simp only [mem_unions, h]
  · simp only [byRef_unions, h]

theorem unions_append_singleton (l : List TypeSet) (s : TypeSet) : unions (l ++ [s]) = unions l ∪ s := by
  refine ext_mem (fun i => ?_) (Bool.eq_iff_iff.2 ?_)
  · simp only [mem_union, mem_unions, mem_append, mem_singleton, or_and_right, exists_or,
      exists_eq_left]
  · simp only [byRef_union, Bool.or_eq_true, byRef_unions, mem_append, mem_singleton,
      or_and_right, exists_or, exists_eq_left]

theorem void_union (s : TypeSet) : void ∪ s = s :=
  ext_mem (fun i => by simp) (Bool.false_or _)

theorem union_void (s : TypeSet) : s ∪ void = s :=
  ext_mem (fun i => by simp) (Bool.or_false _)

end TypeSet

/-! ### Calls over a link -/

namespace CallEdge

/-- The calls over a link. -/
def callsOver (es : List CallEdge) (k : Nat × Nat × Nat) : List CallEdge := es.filter (·.link == k)

/-- The types of argument `i` in all calls over a link; a call that does not give it has void there. -/
def argument (es : List CallEdge) (k : Nat × Nat × Nat) (i : Nat) : TypeSet :=
  TypeSet.unions ((callsOver es k).map (·.argTypes.getD i .void))

/-- The most arguments that a call over a link gives. -/
def arity (es : List CallEdge) (k : Nat × Nat × Nat) : Nat :=
  ((callsOver es k).map (·.argTypes.length)).foldr max 0

variable {es : List CallEdge} {e : CallEdge} {k : Nat × Nat × Nat}

theorem mem_callsOver {d : CallEdge} : d ∈ callsOver es k ↔ d ∈ es ∧ d.link = k := by
  rw [callsOver, mem_filter, beq_iff_eq]

theorem callsOver_append_of_eq (h : e.link = k) : callsOver (es ++ [e]) k = callsOver es k ++ [e] := by
  simp [callsOver, filter_append, h]

theorem callsOver_append_of_ne (h : e.link ≠ k) : callsOver (es ++ [e]) k = callsOver es k := by
  simp [callsOver, filter_append, h]

theorem callsOver_eq_nil (h : k ∉ es.map link) : callsOver es k = [] := by
  rw [callsOver, filter_eq_nil_iff]
  intro d hd hk
  exact h (mem_map.2 ⟨d, hd, beq_iff_eq.1 hk⟩)

theorem lt_arity_iff {i : Nat} : i < arity es k ↔ ∃ d ∈ callsOver es k, i < d.argTypes.length := by
  unfold arity
  induction callsOver es k with
  | nil => simp
  | cons d l ih => simp [ih]

theorem argument_append (h : e.link = k) (i : Nat) :
    argument (es ++ [e]) k i = argument es k i ∪ e.argTypes.getD i .void := by
  rw [argument, callsOver_append_of_eq h, map_append, map_singleton,
    unions_append_singleton, argument]

theorem arity_append (h : e.link = k) : arity (es ++ [e]) k = max (arity es k) e.argTypes.length := by
  refine eq_of_forall_lt_iff fun i => ?_
  rw [lt_max_iff, lt_arity_iff, lt_arity_iff, callsOver_append_of_eq h]
  simp [or_and_right, exists_or]

/-- Beyond the arity there is nothing. -/
theorem argument_eq_void {i : Nat} (h : arity es k ≤ i) : argument es k i = .void := by
  have hvoid : ∀ s ∈ (callsOver es k).map (·.argTypes.getD i .void), s = .void := by
    intro s hs
    obtain ⟨d, hd, rfl⟩ := mem_map.1 hs
    have hlength : d.argTypes.length ≤ i :=
      Nat.le_of_not_lt fun hlt => Nat.not_lt.2 h (lt_arity_iff.2 ⟨d, hd, hlt⟩)
    rw [getD_eq_default _ _ hlength]
  refine ext_mem (fun x => ?_) (Bool.eq_iff_iff.2 ?_)
  · rw [argument, mem_unions]
    refine iff_of_false ?_ (not_mem_void x)
    rintro ⟨s, hs, hx⟩
    exact not_mem_void x (hvoid s hs ▸ hx)
  · rw [argument, byRef_unions]
    refine iff_of_false ?_ (by simp [void])
    rintro ⟨s, hs, hx⟩
    rw [hvoid s hs] at hx
    cases hx

/-- The types of the arguments over a link, for as many as any call gives. -/
def arguments (es : List CallEdge) (k : Nat × Nat × Nat) : List TypeSet :=
  (List.range (arity es k)).map (argument es k)

theorem getD_arguments (i : Nat) : (arguments es k).getD i .void = argument es k i := by
  rcases Nat.lt_or_ge i (arity es k) with hi | hi
  · simp [arguments, getD_eq_getElem?_getD, hi]
  · rw [argument_eq_void hi, getD_eq_default _ _ (by simpa [arguments] using hi)]

theorem arguments_perm {es' : List CallEdge} (h : es'.Perm es) : arguments es' k = arguments es k := by
  have hover : ∀ d, d ∈ callsOver es' k ↔ d ∈ callsOver es k := fun d => by rw [mem_callsOver, mem_callsOver, h.mem_iff]
  have hargument : argument es' k = argument es k := by
    funext i
    exact unions_congr fun s => by simp only [mem_map, hover]
  have harity : arity es' k = arity es k :=
    eq_of_forall_lt_iff fun i => by simp only [lt_arity_iff, hover]
  rw [arguments, arguments, hargument, harity]

end CallEdge

/-! ### Arguments taken in -/

namespace CallGraph

variable {e : CallEdge} {es : List CallEdge} {k : Nat × Nat × Nat}

open CallEdge

theorem length_unionArgs : ∀ old new : List TypeSet,
    (unionArgs old new).length = max old.length new.length
  | [], new => by simp [unionArgs]
  | o :: old, [] => by simp [unionArgs]
  | o :: old, n :: new => by
    rw [unionArgs, length_cons, length_unionArgs old new, length_cons, length_cons]
    omega

theorem getD_unionArgs : ∀ (old new : List TypeSet) (i : Nat),
    (unionArgs old new).getD i .void = old.getD i .void ∪ new.getD i .void
  | [], new, i => by simp [unionArgs, void_union]
  | o :: old, [], i => by simp [unionArgs, union_void]
  | o :: old, n :: new, 0 => rfl
  | o :: old, n :: new, i + 1 => by simpa [unionArgs] using getD_unionArgs old new i

/-- Some position grows, where a list that ends goes on with void. -/
theorem argsGrow_iff : ∀ old new : List TypeSet, argsGrow old new = true ↔
    ∃ i, old.getD i .void ∪ new.getD i .void ≠ old.getD i .void
  | old, [] => by
    simp [argsGrow, union_void]
  | [], n :: new => by
    simp only [argsGrow, any_eq_true, bne_iff_ne, getD_nil, void_union]
    constructor
    · rintro ⟨s, hs, hne⟩
      obtain ⟨i, hi⟩ := getElem?_of_mem hs
      exact ⟨i, by rwa [getD_eq_getElem?_getD, hi]⟩
    · rintro ⟨i, hi⟩
      rcases Nat.lt_or_ge i (n :: new).length with hlt | hge
      · exact ⟨(n :: new)[i], getElem_mem hlt, by
          rwa [getD_eq_getElem?_getD, getElem?_eq_getElem hlt] at hi⟩
      · exact absurd (getD_eq_default _ _ hge) hi
  | o :: old, n :: new => by
    rw [argsGrow, Bool.or_eq_true, bne_iff_ne, argsGrow_iff old new]
    constructor
    · rintro (h | ⟨i, h⟩)
      · exact ⟨0, h⟩
      · exact ⟨i + 1, h⟩
    · rintro ⟨_ | i, h⟩
      · exact .inl h
      · exact .inr ⟨i, h⟩

theorem ext_getD {l l' : List TypeSet} (hlength : l.length = l'.length)
    (h : ∀ i, l.getD i .void = l'.getD i .void) : l = l' := by
  refine ext_getElem hlength fun i hi hi' => ?_
  have := h i
  rwa [getD_eq_getElem _ _ hi, getD_eq_getElem _ _ hi'] at this

/-- **One more call** over the link is taken in by what was there. -/
theorem arguments_append (h : e.link = k) :
    arguments (es ++ [e]) k = unionArgs (arguments es k) e.argTypes := by
  refine ext_getD ?_ fun i => ?_
  · rw [length_unionArgs]
    simp [arguments, arity_append h]
  · rw [getD_unionArgs, getD_arguments, getD_arguments, argument_append h]

theorem arguments_append_of_ne (h : e.link ≠ k) : arguments (es ++ [e]) k = arguments es k := by
  have hargument : argument (es ++ [e]) k = argument es k := by
    funext i
    rw [argument, callsOver_append_of_ne h, argument]
  rw [arguments, arguments, hargument, arity, callsOver_append_of_ne h, arity]

theorem arguments_first (h : e.link ∉ es.map link) : arguments (es ++ [e]) e.link = e.argTypes := by
  have hnone : arguments es e.link = [] := by
    rw [arguments, arity, callsOver_eq_nil h]
    rfl
  rw [arguments_append rfl, hnone, unionArgs]

/-! ### Any number of calls -/

/-- The first of these links was called over before the second. -/
def Earlier (es : List CallEdge) (k k' : Nat × Nat × Nat) : Prop :=
  (es.map link).idxOf k < (es.map link).idxOf k'

/-- The edges are what the calls `es` make of them. -/
structure Records (g : CallGraph) (es : List CallEdge) : Prop where
  /-- There is one edge for each link. -/
  distinct : (g.edges.map link).Nodup
  links : ∀ k, k ∈ g.edges.map link ↔ k ∈ es.map link
  /-- They come in the order of the first calls. -/
  ordered : (g.edges.map link).Pairwise (Earlier es)
  /-- An edge has the block and the expressions of the first call over its link. -/
  first : ∀ d ∈ g.edges, ∃ f, es.find? (·.link == d.link) = some f ∧ d.block = f.block ∧
    d.argExprs = f.argExprs
  /-- It has the types of all of them. -/
  types : ∀ d ∈ g.edges, d.argTypes = arguments es d.link

theorem records_nil : ({} : CallGraph).Records [] :=
  ⟨nodup_nil, by simp, .nil, by simp, by simp⟩

theorem find?_append_of_mem {f : CallEdge} (h : es.find? (·.link == k) = some f) :
    (es ++ [e]).find? (·.link == k) = some f := by
  rw [find?_append, h, Option.some_or]

variable {g g' : CallGraph} {es : List CallEdge} {e : CallEdge}

namespace Records

theorem earlier_append (h : g.Records es) : (g.edges.map link).Pairwise (Earlier (es ++ [e])) := by
  refine h.ordered.imp_of_mem fun {k k'} hk hk' hlt => ?_
  rw [Earlier, map_append, idxOf_append_of_mem ((h.links k).1 hk),
    idxOf_append_of_mem ((h.links k').1 hk')]
  exact hlt

theorem add_new (h : g.Records es) (hnew : e.link ∉ g.edges.map link)
    (hg' : g'.edges = g.edges ++ [e]) : g'.Records (es ++ [e]) := by
  have hnone : e.link ∉ es.map link := mt (h.links e.link).2 hnew
  have hne : ∀ d ∈ g.edges, e.link ≠ d.link := fun d hd heq => hnew (heq ▸ mem_map_of_mem hd)
  refine ⟨?_, fun k => ?_, ?_, fun d hd => ?_, fun d hd => ?_⟩
  · rw [hg', map_append, map_singleton]
    exact List.Nodup.append h.distinct (nodup_singleton _) (by simpa using hnew)
  · rw [hg', map_append, map_append, mem_append, mem_append, h.links k]
  · rw [hg', map_append, map_singleton, pairwise_append]
    refine ⟨h.earlier_append, pairwise_singleton _ _, fun k hk k' hk' => ?_⟩
    rw [mem_singleton.1 hk', Earlier, map_append,
      idxOf_append_of_mem ((h.links k).1 hk), idxOf_append_of_notMem hnone]
    exact Nat.lt_of_lt_of_le (idxOf_lt_length_of_mem ((h.links k).1 hk)) (Nat.le_add_right _ _)
  · rcases mem_append.1 (hg' ▸ hd) with hd | hd
    · obtain ⟨f, hf, heq⟩ := h.first d hd
      exact ⟨f, find?_append_of_mem hf, heq⟩
    · rw [mem_singleton.1 hd]
      refine ⟨e, ?_, rfl, rfl⟩
      rw [find?_append, find?_eq_none.2 fun d hd hlink =>
        hnone (mem_map.2 ⟨d, hd, beq_iff_eq.1 hlink⟩)]
      simp
  · rcases mem_append.1 (hg' ▸ hd) with hd | hd
    · rw [h.types d hd, arguments_append_of_ne (hne d hd)]
    · rw [mem_singleton.1 hd, arguments_first hnone]

theorem add_old {l1 l2 : List CallEdge} {d : CallEdge} (h : g.Records es)
    (hg : g.edges = l1 ++ d :: l2) (hlink : d.link = e.link) (hg' : g'.edges = l1 ++ d.take e :: l2) :
    g'.Records (es ++ [e]) := by
  have hmap : g'.edges.map link = g.edges.map link := by
    rw [hg, hg', map_append, map_append]
    rfl
  have hd : d ∈ g.edges := by simp [hg]
  have hthere : e.link ∈ es.map link := (h.links _).1 (hlink ▸ mem_map_of_mem hd)
  -- the other edges are over other links
  have hother : ∀ d' ∈ l1 ++ l2, d' ∈ g.edges ∧ e.link ≠ d'.link := by
    intro d' hd'
    have hdistinct := h.distinct
    rw [hg, map_append, map_cons, nodup_middle, ← map_append] at hdistinct
    refine ⟨?_, fun heq => (nodup_cons.1 hdistinct).1 ?_⟩
    · rw [hg]
      rcases mem_append.1 hd' with hd' | hd'
      · exact mem_append_left _ hd'
      · exact mem_append_right _ (.tail _ hd')
    · rw [hlink, heq]
      exact mem_map_of_mem hd'
  have hcases : ∀ d' ∈ g'.edges, d' = d.take e ∨ d' ∈ l1 ++ l2 := by
    intro d' hd'
    simp only [hg', mem_append, mem_cons] at hd' ⊢
    tauto
  refine ⟨hmap ▸ h.distinct, fun k => ?_, ?_, fun d' hd' => ?_, fun d' hd' => ?_⟩
  · rw [hmap, h.links, map_append, mem_append, map_singleton, mem_singleton]
    exact ⟨.inl, fun hk => hk.elim id fun hk => hk ▸ hthere⟩
  · rw [hmap]
    exact h.earlier_append
  · rcases hcases d' hd' with rfl | hd'
    · obtain ⟨f, hf, heq⟩ := h.first d hd
      exact ⟨f, find?_append_of_mem hf, heq⟩
    · obtain ⟨f, hf, heq⟩ := h.first d' (hother d' hd').1
      exact ⟨f, find?_append_of_mem hf, heq⟩
  · rcases hcases d' hd' with rfl | hd'
    · show unionArgs d.argTypes e.argTypes = arguments (es ++ [e]) d.link
      rw [arguments_append hlink.symm, h.types d hd]
    · obtain ⟨hmem, hne⟩ := hother d' hd'
      rw [h.types d' hmem, arguments_append_of_ne hne]

/-- **One call**: the graph keeps to the calls. -/
theorem add (h : g.Records es) (e : CallEdge) : (g.add e).2.Records (es ++ [e]) := by
  rcases g.add_cases e with ⟨hnew, -, hadd⟩ | ⟨l1, d, l2, hg, hlink, -, hadd⟩
  · exact h.add_new hnew hadd
  · exact h.add_old hg hlink hadd

theorem answer (h : g.Records es) (e : CallEdge) :
    (e.link ∉ es.map link ∧ (g.add e).1 = .new) ∨
    (e.link ∈ es.map link ∧ (∃ i, argument (es ++ [e]) e.link i ≠ argument es e.link i) ∧
      (g.add e).1 = .widened) ∨
    (e.link ∈ es.map link ∧ (∀ i, argument (es ++ [e]) e.link i = argument es e.link i) ∧
      (g.add e).1 = .unchanged) := by
  rcases g.add_cases e with ⟨hnew, hadd, -⟩ | ⟨l1, d, l2, hg, hlink, hadd, -⟩
  · exact .inl ⟨mt (h.links e.link).2 hnew, hadd⟩
  · have hd : d ∈ g.edges := by simp [hg]
    have hthere : e.link ∈ es.map link := (h.links _).1 (hlink ▸ mem_map_of_mem hd)
    have hgrow : argsGrow d.argTypes e.argTypes = true ↔
        ∃ i, argument (es ++ [e]) e.link i ≠ argument es e.link i := by
      rw [argsGrow_iff, h.types d hd, hlink]
      simp only [getD_arguments, argument_append rfl]
    rw [hadd]
    by_cases hwider : argsGrow d.argTypes e.argTypes = true
    · exact .inr (.inl ⟨hthere, hgrow.1 hwider, if_pos hwider⟩)
    · exact .inr (.inr ⟨hthere, not_exists_not.1 (mt hgrow.2 hwider), if_neg hwider⟩)

end Records

/-- The graph of some calls. -/
def ofCalls (es : List CallEdge) : CallGraph := ({} : CallGraph).addAll es

/-- **Any number of calls**: the graph records them. -/
theorem records_ofCalls (es : List CallEdge) : (ofCalls es).Records es := by
  induction es using reverseRecOn with
  | nil => exact records_nil
  | append_singleton es e ih =>
    rw [ofCalls, addAll_append]
    exact ih.add e

theorem Records.into (h : g.Records es) (c : Nat) :
    (∀ d, d ∈ g.into c ↔ d ∈ g.edges ∧ d.callee = c) ∧
      ((g.into c).map link).Pairwise (Earlier es) := by
  refine ⟨fun d => mem_into, ?_⟩
  rw [into_eq]
  exact h.ordered.sublist (filter_sublist.map link)

theorem Records.outOf (h : g.Records es) (c : Nat) :
    (∀ d, d ∈ g.outOf c ↔ d ∈ g.edges ∧ d.caller = c) ∧
      ((g.outOf c).map link).Pairwise (Earlier es) := by
  refine ⟨fun d => mem_outOf, ?_⟩
  rw [outOf_eq]
  exact h.ordered.sublist (filter_sublist.map link)

/-- **The call graph accumulates the calls over each link.**  After any calls there is one edge for
each link that was called over, in the order of the first calls; it has the block and the expressions
of the first call over the link, and as the types of each argument those of all calls over it, where
void stands for an argument that is not given.  The edges into and out of a routine are those with
that callee or caller, in the same order.  A further call is answered as new if its link is, as
widened if some argument grows by it, and as unchanged otherwise.  The types do not depend on the
order of the calls.  All this is what the calls make of the edges and of what is kept beside them,
one after the other; what is kept tells where the edges are, and what is answered by reading only is
what writing would answer, and leave. -/
theorem ofCalls_accumulates (es : List CallEdge) :
    (ofCalls es).Records es ∧
    (ofCalls es).toEdges = es.foldl (fun g e => (g.add e).2) {} ∧ (ofCalls es).Agrees ∧
    (∀ e change, (ofCalls es).read? e = some change →
      (ofCalls es).write e = (change, (ofCalls es).toEdges)) ∧
    (∀ c, (∀ d, d ∈ (ofCalls es).into c ↔ d ∈ (ofCalls es).edges ∧ d.callee = c) ∧
      (((ofCalls es).into c).map link).Pairwise (Earlier es)) ∧
    (∀ c, (∀ d, d ∈ (ofCalls es).outOf c ↔ d ∈ (ofCalls es).edges ∧ d.caller = c) ∧
      (((ofCalls es).outOf c).map link).Pairwise (Earlier es)) ∧
    (∀ e, ((ofCalls es).add e).1 = .new ↔ e.link ∉ es.map link) ∧
    (∀ e, ((ofCalls es).add e).1 = .widened ↔ e.link ∈ es.map link ∧
      ∃ i, argument (es ++ [e]) e.link i ≠ argument es e.link i) ∧
    (∀ e, ((ofCalls es).add e).1 = .unchanged ↔ e.link ∈ es.map link ∧
      ∀ i, argument (es ++ [e]) e.link i = argument es e.link i) ∧
    ∀ es', es'.Perm es → ∀ d ∈ (ofCalls es).edges,
      ∃ d' ∈ (ofCalls es').edges, d'.link = d.link ∧ d'.argTypes = d.argTypes := by
  have h := records_ofCalls es
  refine ⟨h, (List.foldl_hom toEdges fun _ _ => rfl).symm, (ofCalls es).agrees,
    fun _ _ => write_of_read?, h.into, h.outOf, fun e => ?_, fun e => ?_, fun e => ?_,
    fun es' hperm d hd => ?_⟩
  · rcases h.answer e with ⟨hnew, heq⟩ | ⟨hthere, -, heq⟩ | ⟨hthere, -, heq⟩
    · exact iff_of_true heq hnew
    · exact iff_of_false (by rw [heq]; decide) (not_not.2 hthere)
    · exact iff_of_false (by rw [heq]; decide) (not_not.2 hthere)
  · rcases h.answer e with ⟨hnew, heq⟩ | ⟨hthere, hgrow, heq⟩ | ⟨-, hsame, heq⟩
    · exact iff_of_false (by rw [heq]; decide) fun hw => hnew hw.1
    · exact iff_of_true heq ⟨hthere, hgrow⟩
    · exact iff_of_false (by rw [heq]; decide) fun ⟨_, i, hi⟩ => hi (hsame i)
  · rcases h.answer e with ⟨hnew, heq⟩ | ⟨-, ⟨i, hi⟩, heq⟩ | ⟨hthere, hsame, heq⟩
    · exact iff_of_false (by rw [heq]; decide) fun hw => hnew hw.1
    · exact iff_of_false (by rw [heq]; decide) fun hw => hi (hw.2 i)
    · exact iff_of_true heq ⟨hthere, hsame⟩
  · have h' := records_ofCalls es'
    have hlink : d.link ∈ es'.map link :=
      (hperm.map link).mem_iff.2 ((h.links _).1 (List.mem_map_of_mem hd))
    obtain ⟨d', hd', hsame⟩ := List.mem_map.1 ((h'.links _).2 hlink)
    refine ⟨d', hd', hsame, ?_⟩
    rw [h'.types d' hd', h.types d hd, hsame, arguments_perm hperm]

/-- Two calls from one expression, the second with one more argument and in another block, and a call
from elsewhere between them. -/
def repeated : List CallEdge :=
  [⟨0, 1, 3, 0, [4], [.int]⟩, ⟨2, 1, 3, 5, [4], [.bool]⟩, ⟨0, 1, 3, 6, [8, 9], [.string, .null]⟩]

/-- The other order puts the edges, their blocks and expressions elsewhere, but not their types. -/
theorem repeated_accumulates :
    (ofCalls repeated).edges =
      [⟨0, 1, 3, 0, [4], [.int ∪ .string, .null]⟩, ⟨2, 1, 3, 5, [4], [.bool]⟩] ∧
    (ofCalls repeated.reverse).edges =
      [⟨0, 1, 3, 6, [8, 9], [.int ∪ .string, .null]⟩, ⟨2, 1, 3, 5, [4], [.bool]⟩] ∧
    (ofCalls repeated).Records repeated ∧ repeated.reverse.Perm repeated ∧
    ∀ d ∈ (ofCalls repeated).edges, ∃ d' ∈ (ofCalls repeated.reverse).edges,
      d'.link = d.link ∧ d'.argTypes = d.argTypes := by
  obtain ⟨hrecords, -, -, -, -, -, -, -, -, hperm⟩ := ofCalls_accumulates repeated
  exact ⟨by decide, by decide, hrecords, List.reverse_perm _, hperm _ (List.reverse_perm _)⟩

/-- An argument more that is void lets nothing grow. -/
example : ((ofCalls repeated).add ⟨0, 1, 3, 0, [], [.int, .null, .void]⟩).1 = .unchanged := by decide

end CallGraph

end ShapeFlow
