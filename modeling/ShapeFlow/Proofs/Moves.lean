/-
# Moves

Everything that happens to a program is a sequence of moves.  Between rounds
these are changes to routines, names and the table.  Within a round, a walk goes
through one pending block of one routine against the signatures the round began
with; then the calls that were reported take effect one by one; in the end the
callers of routines that return more are told.  Every move keeps a program sound:
no index out of range, no unknown shape, no block pending that was not reached.

A round that fails stops in the middle of a block, and what was reported is lost.
Blocks may be left that have not reached their successors, and later others be
pending that have not been reached.  Still nothing is unknown or out of range.

Key definitions: `Program.Kept`, `Program.Sound`, `Program.Change`, `Mid`, `Move`, `Act`, `Turn`,
`Slip`.
Key theorems: `Move.sound`, `Turn.kept`, `Slip.kept`.
-/
import ShapeFlow.Proofs.Routines
import ShapeFlow.Run.Round

namespace ShapeFlow

open ShapeFlow.Flow Infer List TypeSet

variable {reports : List (Nat × Tuple)}

theorem getElem?_push {β : Type} {l : List β} {x y : β} {i : Nat} (h : (l ++ [x])[i]? = some y) :
    l[i]? = some y ∨ i = l.length ∧ y = x := by
  rcases Nat.lt_trichotomy i l.length with hi | rfl | hi
  · rw [getElem?_append_left hi] at h
    exact .inl h
  · rw [getElem?_concat_length] at h
    exact .inr ⟨rfl, (Option.some.inj h).symm⟩
  · rw [getElem?_eq_none (by simp; omega)] at h
    cases h

namespace Program

variable {p p' p'' : Program} {e : CallEdge} {i callee : Nat} {r r' : Routine}
  {R : Routine → Routine → Prop} {args : Tuple}

/-! ### Sound programs -/

/-- An edge of the call graph leads from an expression of a block that can be reached to
a routine. -/
structure EdgeSound (p : Program) (e : CallEdge) : Prop where
  callee : e.callee < p.size
  caller : ∃ r, p.routines[e.caller]? = some r ∧ r.graph.Reach e.block ∧
    e.site ∈ r.graph.tagsOf e.block
  args : ∀ a ∈ e.argTypes, p.table.Knows a

/-- Nothing in a program is unknown or out of range. -/
structure Kept (p : Program) : Prop where
  table : p.table.Valid
  ids : ∀ (i : Nat) (r : Routine), p.routines[i]? = some r → r.id = i
  routines : ∀ r ∈ p.routines, r.Valid p.table p.size
  directory : ∀ name, ∀ id ∈ p.directory.candidates name, id < p.size
  edges : ∀ e ∈ p.calls.edges, p.EdgeSound e

/-- Moreover, blocks that are pending have been reached, and those that have been reached and
are not pending have reached their successors. -/
structure Sound (p : Program) : Prop extends Kept p where
  grounded : ∀ r ∈ p.routines, r.Grounded
  spread : ∀ r ∈ p.routines, r.Spread

theorem sound_empty : Sound empty where
  table := ShapeTable.valid_standard
  ids i r h := by simp [empty] at h
  routines r h := by simp [empty] at h
  grounded r h := by simp [empty] at h
  spread r h := by simp [empty] at h
  directory name id h := by cases h
  edges e h := by cases h

theorem Kept.valid (h : p.Kept) (hr : p.routines[i]? = some r) :
    r.Valid p.table p.size := h.routines r (mem_of_getElem? hr)

/-- The program with `r` as routine `i`. -/
def put (p : Program) (i : Nat) (r : Routine) : Program :=
  { p with routines := p.routines.set i r }

theorem size_put (p : Program) (i : Nat) (r : Routine) : (p.put i r).size = p.size := length_set

theorem routines_put (hr : p.routines[i]? = some r) (r' : Routine) (j : Nat) :
    (p.put i r').routines[j]? = if i = j then some r' else p.routines[j]? := by
  have hlt := (lt_of_getElem? hr)
  rw [put, getElem?_set]
  by_cases h : i = j
  · subst h
    simp [hlt]
  · simp [h]

theorem of_put (hr : p.routines[i]? = some r) {j : Nat} {s : Routine}
    (h : (p.put i r').routines[j]? = some s) : i = j ∧ s = r' ∨ i ≠ j ∧ p.routines[j]? = some s := by
  rw [routines_put hr] at h
  split at h
  next heq => exact .inl ⟨heq, (Option.some.inj h).symm⟩
  next hne => exact .inr ⟨hne, h⟩

theorem put_self (hr : p.routines[i]? = some r) : p.put i r = p := by
  obtain ⟨hlt, rfl⟩ := List.getElem?_eq_some_iff.1 hr
  rw [put, set_getElem_self]

theorem update_eq_put (hr : p.routines[i]? = some r) (f : Routine → Routine) :
    p.update i f = p.put i (f r) := by
  unfold update put
  congr 1
  apply ext_getElem?
  intro j
  obtain ⟨hlt, heq⟩ := List.getElem?_eq_some_iff.1 hr
  rw [getElem?_modify, getElem?_set]
  by_cases h : i = j
  · subst h
    simp [hlt, heq]
  · simp [h]

theorem update_of_none (hi : p.routines[i]? = none) (f : Routine → Routine) : p.update i f = p := by
  unfold update
  congr 1
  apply ext_getElem?
  intro j
  rw [getElem?_modify]
  split
  next h => rw [← h, hi]; rfl
  next => simp

theorem Kept.put (h : p.Kept) (hr : p.routines[i]? = some r) (hid : r'.id = r.id)
    (hgraph : r'.graph = r.graph) (hvalid : r'.Valid p.table p.size) :
    (p.put i r').Kept where
  table := h.table
  ids j s hs := by
    rcases of_put hr hs with ⟨rfl, rfl⟩ | ⟨-, hs⟩
    · exact hid.trans (h.ids i r hr)
    · exact h.ids j s hs
  routines s hs := by
    rw [size_put]
    rcases mem_or_eq_of_mem_set hs with hs | rfl
    · exact h.routines s hs
    · exact hvalid
  directory name id hid := by
    rw [size_put]
    exact h.directory name id hid
  edges e he := by
    obtain ⟨s, hs, hreach, hsite⟩ := (h.edges e he).caller
    refine ⟨by rw [size_put]; exact (h.edges e he).callee, ?_, (h.edges e he).args⟩
    rw [routines_put hr]
    split
    next heq =>
      rw [← heq, hr] at hs
      cases hs
      exact ⟨r', rfl, hgraph ▸ hreach, hgraph ▸ hsite⟩
    next => exact ⟨s, hs, hreach, hsite⟩

theorem forall_put {P : Routine → Prop} (h : ∀ r ∈ p.routines, P r) (hr' : P r') (i : Nat) :
    ∀ r ∈ (p.put i r').routines, P r := by
  intro s hs
  rcases mem_or_eq_of_mem_set hs with hs | rfl
  · exact h s hs
  · exact hr'

/-! ### Changing every routine -/

/-- Each routine is changed as `R` says; nothing else is. -/
structure Each (R : Routine → Routine → Prop) (p p' : Program) : Prop where
  frame : p' = { p with routines := p'.routines }
  size : p'.size = p.size
  routine : ∀ (i : Nat) (r r' : Routine), p.routines[i]? = some r → p'.routines[i]? = some r' → R r r'

section Each

variable {R S : Routine → Routine → Prop} {i : Nat} {r r' : Routine}

theorem Each.forth (h : Each R p p') (hr : p.routines[i]? = some r) :
    ∃ r', p'.routines[i]? = some r' ∧ R r r' := by
  have hlt : i < p'.routines.length := by
    have := h.size
    unfold Program.size at this
    have := (lt_of_getElem? hr)
    omega
  exact ⟨_, getElem?_eq_getElem hlt, h.routine i r _ hr (getElem?_eq_getElem hlt)⟩

theorem Each.back (h : Each R p p') (hr' : p'.routines[i]? = some r') :
    ∃ r, p.routines[i]? = some r ∧ R r r' := by
  have hlt : i < p.routines.length := by
    have := h.size
    unfold Program.size at this
    have := (lt_of_getElem? hr')
    omega
  exact ⟨_, getElem?_eq_getElem hlt, h.routine i _ r' (getElem?_eq_getElem hlt) hr'⟩

theorem Each.mono (h : Each R p p') (hRS : ∀ (i : Nat) (r r' : Routine), p.routines[i]? = some r →
    R r r' → S r r') : Each S p p' :=
  { h with routine := fun i r r' hr hr' => hRS i r r' hr (h.routine i r r' hr hr') }

theorem Each.refl (hR : ∀ r, R r r) (p : Program) : Each R p p where
  frame := rfl
  size := rfl
  routine i r r' hr hr' := by
    obtain rfl := Option.mem_unique hr hr'
    exact hR r

theorem Each.trans (hR : ∀ r r' r'', R r r' → R r' r'' → R r r'') (h : Each R p p')
    (h' : Each R p' p'') : Each R p p'' where
  frame := by rw [h'.frame, h.frame]
  size := h'.size.trans h.size
  routine i r r'' hr hr'' := by
    obtain ⟨r', hr', hrel⟩ := h.forth hr
    exact hR r r' r'' hrel (h'.routine i r' r'' hr' hr'')

theorem each_put (hR : ∀ r, R r r) (hr : p.routines[i]? = some r) (h : R r r') :
    Each R p (p.put i r') where
  frame := rfl
  size := size_put p i r'
  routine j s s' hs hs' := by
    rcases of_put hr hs' with ⟨rfl, rfl⟩ | ⟨-, hs'⟩
    · exact Option.mem_unique hr hs ▸ h
    · exact Option.mem_unique hs hs' ▸ hR s

theorem each_map (p : Program) (f : Routine → Routine) (h : ∀ r ∈ p.routines, R r (f r)) :
    Each R p { p with routines := p.routines.map f } where
  frame := rfl
  size := length_map _
  routine i r r' hr hr' := by
    rw [show ({ p with routines := p.routines.map f } : Program).routines = p.routines.map f from rfl,
      getElem?_map, hr] at hr'
    cases hr'
    exact h r (mem_of_getElem? hr)

end Each

theorem Each.mem_back (h : Each R p p') (hr' : r' ∈ p'.routines) : ∃ r ∈ p.routines, R r r' := by
  obtain ⟨i, hi⟩ := getElem?_of_mem hr'
  obtain ⟨r, hr, hR⟩ := h.back hi
  exact ⟨r, mem_of_getElem? hr, hR⟩

theorem Kept.each (h : p.Kept) (he : Each R p p')
    (hR : ∀ r ∈ p.routines, ∀ r', R r r' →
      r'.id = r.id ∧ r'.graph = r.graph ∧ r'.Valid p.table p.size) : p'.Kept := by
  have htable : p'.table = p.table := by rw [he.frame]
  refine ⟨htable ▸ h.table, fun i r' hr' => ?_, fun r' hr' => ?_, fun name id hid => ?_,
    fun e hedge => ?_⟩
  · obtain ⟨r, hr, hrel⟩ := he.back hr'
    exact (hR r (mem_of_getElem? hr) r' hrel).1.trans (h.ids i r hr)
  · obtain ⟨r, hr, hrel⟩ := he.mem_back hr'
    rw [htable, he.size]
    exact (hR r hr r' hrel).2.2
  · rw [he.frame] at hid
    rw [he.size]
    exact h.directory name id hid
  · rw [he.frame] at hedge
    have hold := h.edges e hedge
    obtain ⟨r, hr, hreach, hsite⟩ := hold.caller
    obtain ⟨r', hr', hrel⟩ := he.forth hr
    have hgraph := (hR r (mem_of_getElem? hr) r' hrel).2.1
    refine ⟨he.size.symm ▸ hold.callee, ⟨r', hr', hgraph ▸ hreach, hgraph ▸ hsite⟩, ?_⟩
    rw [htable]
    exact hold.args

theorem Kept.tweak (h : p.Kept) (he : Each (Routine.Tweak p.table) p p') : p'.Kept := by
  refine h.each he fun r hr r' htweak => ?_
  have hvalid := h.routines r hr
  have hframe := htweak.frame hvalid h.table
  exact ⟨by rw [hframe], by rw [hframe], htweak.valid hvalid h.table⟩

theorem Sound.tweak (h : p.Sound) (he : Each (Routine.Tweak p.table) p p') : p'.Sound := by
  refine ⟨h.toKept.tweak he, fun r' hr' => ?_, fun r' hr' => ?_⟩
  · obtain ⟨r, hr, htweak⟩ := he.mem_back hr'
    exact htweak.grounded (h.grounded r hr) (h.routines r hr) h.table
  · obtain ⟨r, hr, htweak⟩ := he.mem_back hr'
    exact htweak.spread (h.spread r hr) (h.routines r hr) h.table

/-! ### Changes between rounds -/

/-- What is left of routine `i` when it is forgotten: its calls still tell what it was given. -/
def forgotten (p : Program) (i : Nat) (r : Routine) : Routine :=
  { r.forget with
    status := .invalidated
    observed := (p.calls.into i).foldl (fun seen e => Routine.observe seen e.argTypes)
      r.forget.observed }

/-- The program with one more routine. -/
def push (p : Program) (r : Routine) : Program :=
  { p with
    routines := p.routines ++ [r]
    directory := p.directory.declareRoutine r.name p.size }

theorem size_push (p : Program) (r : Routine) : (p.push r).size = p.size + 1 := by
  simp [Program.size, push]

/-- Blocks that call routine `i` and have been reached are pending. -/
def Alerted (p : Program) (i : Nat) : Prop :=
  ∀ e ∈ p.calls.edges, e.callee = i → ∀ r, p.routines[e.caller]? = some r →
    (r.input? e.block).isSome = true → e.block ∈ r.pending.toList

/-- Where a routine that is added comes from: it has been declared, or is the clone of
another whose callers are to look again. -/
def Derived (p : Program) (r : Routine) : Prop :=
  r.origin = none ∧ r.fixed = none ∨
    ∃ (i : Nat) (s : Routine) (tuple : Tuple), p.routines[i]? = some s ∧
      r = s.clone p.size tuple ∧ tuple ∈ s.applied ∧ p.Alerted i

/-- A change of a program between rounds, of those that a run makes. -/
inductive Adjust : Program → Program → Prop
  | relabel {p : Program} (diagnostics : List Diagnostic) (outcome : Option Outcome) :
    Adjust p { p with diagnostics, outcome }
  | extend {p : Program} {table : ShapeTable} : p.table.Extends table → table.Valid →
    Adjust p { p with table }
  | tweak {p p' : Program} : Each (Routine.Tweak p.table) p p' → Adjust p p'
  | push {p : Program} {r : Routine} : r.Fresh p.table p.size → p.Derived r → Adjust p (p.push r)

/-- A change of a program between rounds. -/
inductive Change : Program → Program → Prop
  | adjust {p p' : Program} : Adjust p p' → Change p p'
  | declare {p : Program} (name : String) (members : List String) :
    Change p (p.declareClass name members)
  | resolve {p : Program} (resolver : Resolver) : Change p { p with resolver }
  | forget {p : Program} {i : Nat} {r : Routine} : p.routines[i]? = some r →
    Change p (p.put i (p.forgotten i r))

theorem forgotten_valid (h : p.Kept) (hr : p.routines[i]? = some r) :
    (p.forgotten i r).Valid p.table p.size := by
  have hvalid := Routine.forget_valid (h.valid hr)
  have hfold : ∀ (edges : List CallEdge) (seen : List TypeSet),
      (∀ e ∈ edges, ∀ a ∈ e.argTypes, p.table.Knows a) → (∀ s ∈ seen, p.table.Knows s) →
      (∀ s ∈ edges.foldl (fun seen e => Routine.observe seen e.argTypes) seen, p.table.Knows s) ∧
        (edges.foldl (fun seen e => Routine.observe seen e.argTypes) seen).length = seen.length := by
    intro edges
    induction edges with
    | nil => exact fun seen _ hseen => ⟨hseen, rfl⟩
    | cons e edges ih =>
      intro seen hedges hseen
      obtain ⟨hknown, hlen⟩ := ih (Routine.observe seen e.argTypes)
        (fun d hd => hedges d (.tail _ hd))
        (Routine.knows_observe hseen (hedges e (.head _)))
      exact ⟨hknown, hlen.trans Routine.length_observe⟩
  obtain ⟨hknown, hlen⟩ := hfold (p.calls.into i) r.forget.observed
    (fun e he => (h.edges e (CallGraph.mem_into.1 he).1).args) hvalid.observed
  exact hvalid.observe hknown hlen

theorem spread_of_unreached (h : ∀ b, r.input? b = none) : r.Spread := by
  intro b hb
  rw [h b] at hb
  cases hb

theorem mem_enter {β : Type} [BEq β] [LawfulBEq β] {key x : String} {b c : β} :
    ∀ {l : List (String × List β)}, c ∈ ((Directory.enter key b l).lookup x).getD [] →
      c ∈ (l.lookup x).getD [] ∨ c = b
  | [], h => by
    rw [Directory.enter, lookup_cons] at h
    split at h
    · exact .inr (by simpa using h)
    · cases h
  | (k, bs) :: l, h => by
    rw [Directory.enter] at h
    split at h
    · rw [lookup_cons] at h ⊢
      split at h
      · simp only [Option.getD_some] at h ⊢
        split at h
        · exact .inl h
        · simpa using h
      · exact .inl h
    · rw [lookup_cons] at h ⊢
      split at h
      · exact .inl h
      · exact mem_enter h

theorem Adjust.kept (hc : Adjust p p') (h : p.Kept) : p'.Kept := by
  cases hc with
  | relabel diagnostics outcome => exact { h with edges := fun e he => { h.edges e he with } }
  | extend hext hvalid =>
    exact { h with
      table := hvalid
      routines := fun r hr => (h.routines r hr).mono hext
      edges := fun e he => { h.edges e he with args := fun a ha => ((h.edges e he).args a ha).mono hext } }
  | tweak he => exact h.tweak he
  | @push r hfresh =>
    refine ⟨h.table, fun i s hs => ?_, fun s hs => ?_, fun x id hid => ?_,
      fun e he => ⟨?_, ?_, (h.edges e he).args⟩⟩
    · rcases getElem?_push hs with hs | ⟨rfl, rfl⟩
      · exact h.ids i s hs
      · exact hfresh.id_eq
    · rw [size_push]
      rcases mem_append.1 hs with hs | hs
      · exact (h.routines s hs).grow (Nat.le_succ _)
      · rw [mem_singleton.1 hs]
        exact hfresh.valid
    · rw [size_push]
      rcases mem_enter hid with hid | rfl
      · exact Nat.lt_succ_of_lt (h.directory x id hid)
      · exact Nat.lt_succ_self _
    · rw [size_push]
      exact Nat.lt_succ_of_lt (h.edges e he).callee
    · obtain ⟨s, hs, hrest⟩ := (h.edges e he).caller
      refine ⟨s, ?_, hrest⟩
      show (p.routines ++ [r])[e.caller]? = some s
      rw [getElem?_append_left (lt_of_getElem? hs)]
      exact hs

theorem Change.kept (hc : Change p p') (h : p.Kept) : p'.Kept := by
  cases hc with
  | adjust ha => exact ha.kept h
  | declare | resolve => exact { h with edges := fun e he => { h.edges e he with } }
  | forget hr => exact h.put hr rfl rfl (forgotten_valid h hr)

theorem grounded_of_idle (h : r.pending.toList = []) : r.Grounded := by
  intro b hb
  rw [h] at hb
  cases hb

theorem Adjust.sound (hc : Adjust p p') (h : p.Sound) : p'.Sound := by
  have hkept := hc.kept h.toKept
  cases hc with
  | relabel | extend => exact { hkept, h with }
  | tweak he => exact h.tweak he
  | @push r hfresh =>
    refine ⟨hkept, fun s hs => ?_, fun s hs => ?_⟩
    · rcases mem_append.1 hs with hs | hs
      · exact h.grounded s hs
      · rw [mem_singleton.1 hs]
        exact grounded_of_idle hfresh.idle
    · rcases mem_append.1 hs with hs | hs
      · exact h.spread s hs
      · rw [mem_singleton.1 hs]
        exact spread_of_unreached hfresh.input?

theorem Change.sound (hc : Change p p') (h : p.Sound) : p'.Sound := by
  have hkept := hc.kept h.toKept
  cases hc with
  | adjust ha => exact ha.sound h
  | declare | resolve => exact { hkept, h with }
  | @forget i r hr =>
    exact ⟨hkept, forall_put h.grounded (grounded_of_idle rfl) i,
      forall_put h.spread (spread_of_unreached (Routine.input?_replicate (m := _) rfl)) i⟩

/-! ### Calls that take effect -/

theorem put_put (p : Program) (i : Nat) (r r' : Routine) : (p.put i r).put i r' = p.put i r' := by
  unfold put
  simp only [set_set]

/-- The routine with the evidence of a call. -/
def observing (r : Routine) (args : Tuple) : Routine :=
  { r with observed := Routine.observe r.observed args }

theorem report_eq (hr : p.routines[callee]? = some r) (args : Tuple) :
    report callee args p =
      if Routine.observe r.observed args = r.observed then .ok () p
      else if r.exported = true ∨ r.fixed ≠ none then .ok () (p.put callee (observing r args))
      else match (observing r args).seed with
        | .ok (_, r') => .ok () (p.put callee r')
        | .error f => .error f (p.put callee (observing r args)) := by
  have hput : (p.update callee fun _ => observing r args) = p.put callee (observing r args) :=
    update_eq_put hr _
  have hagain : ∀ r', (p.put callee (observing r args)).update callee (fun _ => r') =
      p.put callee r' := by
    intro r'
    rw [update_eq_put (r := observing r args) (by rw [routines_put hr, if_pos rfl]), put_put]
  unfold report
  rw [get_bind]
  simp only [hr]
  by_cases hseen : Routine.observe r.observed args = r.observed
  · rw [if_pos hseen, if_neg (by simp [hseen])]
    rfl
  · rw [if_neg hseen, if_pos (by simp [hseen])]
    show (if (!r.exported && r.fixed.isNone) = true then
        match (observing r args).seed with
        | .ok (_, r) => modify fun p => p.update callee fun _ => r
        | .error f => throw f
      else pure () : Run Unit) (p.update callee fun _ => observing r args) = _
    rw [hput]
    by_cases hopen : r.exported = true ∨ r.fixed ≠ none
    · rw [if_pos hopen, if_neg]
      · rfl
      · rcases hopen with h | h
        · simp [h]
        · rcases hf : r.fixed with _ | f
          · exact absurd hf h
          · simp
    · rw [if_neg hopen, if_pos]
      · rcases (observing r args).seed with f | ⟨c, r'⟩
        · rfl
        · show EStateM.Result.ok () ((p.put callee (observing r args)).update callee fun _ => r') = _
          rw [hagain]
      · rw [not_or, not_not] at hopen
        simp [hopen.1, hopen.2]

/-- What taking a call into account can come to. -/
theorem report_cases (h : report callee args p = .ok () p') :
    ∃ r, p.routines[callee]? = some r ∧
      (Routine.observe r.observed args = r.observed ∧ p' = p ∨
        (r.exported = true ∨ r.fixed ≠ none) ∧ p' = p.put callee (observing r args) ∨
        ∃ c r', (observing r args).seed = .ok (c, r') ∧ p' = p.put callee r') := by
  rcases hr : p.routines[callee]? with _ | r
  · unfold report at h
    rw [get_bind, hr] at h
    cases h
  · refine ⟨r, rfl, ?_⟩
    rw [report_eq hr] at h
    split at h
    next hseen =>
      cases h
      exact .inl ⟨hseen, rfl⟩
    next =>
      split at h
      next hopen =>
        cases h
        exact .inr (.inl ⟨hopen, rfl⟩)
      next =>
        split at h
        next c r' hseed =>
          cases h
          exact .inr (.inr ⟨c, r', hseed, rfl⟩)
        next => cases h

theorem report_put (h : report callee args p = .ok () p') :
    ∃ r r', p.routines[callee]? = some r ∧ p' = p.put callee r' ∧
      (r' = observing r args ∨ ∃ c, (observing r args).seed = .ok (c, r')) := by
  obtain ⟨r, hr, ⟨hseen, rfl⟩ | ⟨-, rfl⟩ | ⟨c, r', hseed, rfl⟩⟩ := report_cases h
  · exact ⟨r, r, hr, (put_self hr).symm, .inl (by rw [observing, hseen])⟩
  · exact ⟨r, _, hr, rfl, .inl rfl⟩
  · exact ⟨r, r', hr, rfl, .inr ⟨c, hseed⟩⟩

/-! ### Callers that are told -/

theorem each_queues_trans (h : Each Routine.Queues p p') (h' : Each Routine.Queues p' p'') :
    Each Routine.Queues p p'' := h.trans (fun _ _ _ => .trans) h'

theorem each_queues_refl (p : Program) : Each Routine.Queues p p := .refl .refl p

theorem queueCallers_piles : ∀ (edges : List CallEdge) (p : Program),
    Each Routine.Piles p (edges.foldl (fun p e => p.update e.caller (·.queue e.block)) p)
  | [], p => .refl .refl p
  | e :: edges, p => by
    have hone : Each Routine.Piles p (p.update e.caller (·.queue e.block)) := by
      rcases hr : p.routines[e.caller]? with _ | r
      · rw [update_of_none hr]
        exact .refl .refl p
      · rw [update_eq_put hr]
        exact each_put .refl hr (Routine.piles_queue r e.block)
    exact hone.trans (fun _ _ _ => .trans) (queueCallers_piles edges _)

theorem notify_piles : ∀ (sigs : List Signature) (p : Program),
    Each Routine.Piles p (sigs.foldl notifyCallers p)
  | [], p => .refl .refl p
  | sig :: sigs, p => by
    have hone : Each Routine.Piles p (p.notifyCallers sig) := by
      unfold notifyCallers
      split
      · exact queueCallers_piles _ p
      · exact .refl .refl p
    exact hone.trans (fun _ _ _ => .trans) (notify_piles sigs _)

theorem Kept.piles (h : p.Kept) (he : Each Routine.Piles p p') : p'.Kept := by
  refine h.each he fun r hr r' hpiles => ?_
  exact ⟨by rw [hpiles.frame], by rw [hpiles.frame], (h.routines r hr).queue hpiles.frame⟩

/-- The block of the call has been reached. -/
def CallReached (p : Program) (e : CallEdge) : Prop :=
  ∃ r, p.routines[e.caller]? = some r ∧ (r.input? e.block).isSome = true

/-- The block of the call is pending. -/
def CallPending (p : Program) (e : CallEdge) : Prop :=
  ∃ r, p.routines[e.caller]? = some r ∧ e.block ∈ r.pending.toList

theorem CallReached.queues (h : p.CallReached e) (he : Each Routine.Queues p p') :
    p'.CallReached e := by
  obtain ⟨r, hr, hreached⟩ := h
  obtain ⟨r', hr', hq⟩ := he.forth hr
  refine ⟨r', hr', ?_⟩
  rw [hq.frame]
  exact hreached

theorem CallPending.queues (h : p.CallPending e) (he : Each Routine.Queues p p') :
    p'.CallPending e := by
  obtain ⟨r, hr, hpending⟩ := h
  obtain ⟨r', hr', hq⟩ := he.forth hr
  exact ⟨r', hr', hq.kept _ hpending⟩

theorem queueCaller_spec (h : p.CallReached e) :
    Each Routine.Queues p (p.update e.caller (·.queue e.block)) ∧
      (p.update e.caller (·.queue e.block)).CallPending e := by
  obtain ⟨r, hr, hreached⟩ := h
  rw [update_eq_put hr]
  refine ⟨each_put .refl hr (Routine.queues_queue hreached), r.queue e.block, ?_, ?_⟩
  · rw [routines_put hr, if_pos rfl]
  · exact Agenda.mem_insert.2 (.inr rfl)

theorem queueCallers_spec : ∀ (edges : List CallEdge) {p : Program},
    (∀ e ∈ edges, p.CallReached e) →
    Each Routine.Queues p (edges.foldl (fun p e => p.update e.caller (·.queue e.block)) p) ∧
      ∀ e ∈ edges, (edges.foldl (fun p e => p.update e.caller (·.queue e.block)) p).CallPending e
  | [], p, _ => ⟨each_queues_refl p, by simp⟩
  | e :: edges, p, h => by
    obtain ⟨hq, hpending⟩ := queueCaller_spec (h e (.head _))
    obtain ⟨hqs, hall⟩ := queueCallers_spec edges
      fun d hd => (h d (.tail _ hd)).queues hq
    refine ⟨each_queues_trans hq hqs, fun d hd => ?_⟩
    rcases mem_cons.1 hd with rfl | hd
    · exact hpending.queues hqs
    · exact hall d hd

theorem notifyCallers_spec (h : ∀ e ∈ p.calls.edges, p.CallReached e) (sig : Signature) :
    Each Routine.Queues p (p.notifyCallers sig) ∧
      ∀ (r : Routine), p.routines[sig.id]? = some r → r.scope.returns ≠ sig.returns →
        ∀ e ∈ p.calls.edges, e.callee = sig.id → (p.notifyCallers sig).CallPending e := by
  unfold notifyCallers
  split
  next hgrew =>
    obtain ⟨hq, hall⟩ := queueCallers_spec (p.calls.into sig.id)
      fun e he => h e (CallGraph.mem_into.1 he).1
    exact ⟨hq, fun r _ _ e he hcallee => hall e (CallGraph.mem_into.2 ⟨he, hcallee⟩)⟩
  next hsame =>
    refine ⟨each_queues_refl p, fun r hr hne => ?_⟩
    rw [hr] at hsame
    exact absurd (by simpa using hne) hsame

theorem notify_spec : ∀ (sigs : List Signature) {p : Program},
    (∀ e ∈ p.calls.edges, p.CallReached e) →
    Each Routine.Queues p (sigs.foldl notifyCallers p) ∧
      ∀ sig ∈ sigs, ∀ (r : Routine), p.routines[sig.id]? = some r → r.scope.returns ≠ sig.returns →
        ∀ e ∈ p.calls.edges, e.callee = sig.id → (sigs.foldl notifyCallers p).CallPending e
  | [], p, _ => ⟨each_queues_refl p, by simp⟩
  | sig :: sigs, p, h => by
    obtain ⟨hq, hpending⟩ := notifyCallers_spec h sig
    have hcalls : (p.notifyCallers sig).calls = p.calls := by rw [hq.frame]
    obtain ⟨hqs, hall⟩ := notify_spec sigs (p := p.notifyCallers sig) fun e he =>
      (h e (hcalls ▸ he)).queues hq
    refine ⟨each_queues_trans hq hqs, fun s hs r hr hne e he hcallee => ?_⟩
    rcases mem_cons.1 hs with rfl | hs
    · exact (hpending r hr hne e he hcallee).queues hqs
    · obtain ⟨r', hr', hqr⟩ := hq.forth hr
      have hscope : r'.scope = r.scope := by rw [hqr.frame]
      exact hall s hs r' hr' (hscope ▸ hne) e (hcalls ▸ he) hcallee

/-- Once every routine is complete, calls come from blocks that have been reached. -/
theorem Kept.callReached (h : p.Kept) (hcomplete : ∀ r ∈ p.routines, r.Complete) :
    ∀ e ∈ p.calls.edges, p.CallReached e := by
  intro e he
  obtain ⟨r, hr, hreach, -⟩ := (h.edges e he).caller
  exact ⟨r, hr, hcomplete r (mem_of_getElem? hr) e.block hreach⟩

end Program

/-! ### Moves -/

/-- What a walk through a block looks things up in. -/
def Program.setting (p : Program) (sigs : List Signature) (block : Nat) : Setting where
  directory := p.directory
  resolver := p.resolver
  signatures := sigs
  block := block

/-- The program after a walk through a block of routine `i`. -/
def Program.after (p : Program) (i : Nat) (w : Walker) : Program :=
  { p with table := w.table, calls := w.calls, routines := p.routines.set i w.routine }

/-- A program in the middle of a round. -/
structure Mid where
  program : Program
  /-- The signatures when the round began. -/
  sigs : List Signature
  /-- Calls that have not been taken into account. -/
  reports : List (Nat × Tuple)

/-- A program between rounds. -/
def Mid.of (p : Program) : Mid := ⟨p, p.signatures, []⟩

/-- One thing that happens to a program, which is changed between rounds as `C` says. -/
inductive MoveBy (C : Program → Program → Prop) : Mid → Mid → Prop
  | change {p p' : Program} : C p p' → MoveBy C (.of p) (.of p')
  | walk {p : Program} {sigs : List Signature} {reports : List (Nat × Tuple)} {i b : Nat}
    {r : Routine} {q : Agenda Nat} {w w' : Walker} :
    p.routines[i]? = some r → r.pending.pop? = some (b, q) → w.table = p.table → w.calls = p.calls →
    w.routine = { r with status := .analyzing, pending := q } → Walks (p.setting sigs b) w w' →
    MoveBy C ⟨p, sigs, reports ++ w.reports.toList⟩ ⟨p.after i w', sigs, reports ++ w'.reports.toList⟩
  | report {p p' : Program} {sigs : List Signature} {callee : Nat} {args : Tuple}
    {reports : List (Nat × Tuple)} : Program.report callee args p = .ok () p' →
    MoveBy C ⟨p, sigs, (callee, args) :: reports⟩ ⟨p', sigs, reports⟩
  | notify {p : Program} {sigs : List Signature} : (∀ r ∈ p.routines, r.Complete) →
    MoveBy C ⟨p, sigs, []⟩ (.of (sigs.foldl Program.notifyCallers p))

/-- One thing that happens to a program. -/
abbrev Move : Mid → Mid → Prop := MoveBy Program.Change

/-- One thing that a run does to a program. -/
abbrev Act : Mid → Mid → Prop := MoveBy Program.Adjust

theorem Act.move {m m' : Mid} (h : Act m m') : Move m m' := by
  cases h with
  | change ha => exact .change (.adjust ha)
  | walk hr hpop htable hcalls hroutine hwalk =>
    exact .walk hr hpop htable hcalls hroutine hwalk
  | report hrun => exact .report hrun
  | notify hcomplete => exact .notify hcomplete

/-- One thing that happens to a program, if rounds have failed before. -/
inductive Turn : Mid → Mid → Prop
  | move {m m' : Mid} : Move m m' → Turn m m'
  /-- Callers are told whose blocks have perhaps not been reached. -/
  | notify {p : Program} {sigs : List Signature} :
    Turn ⟨p, sigs, []⟩ (.of (sigs.foldl Program.notifyCallers p))

/-- One thing that happens to a program in a round that fails. -/
inductive Slip : Mid → Mid → Prop
  | enter {p : Program} {sigs : List Signature} {reports : List (Nat × Tuple)} {i b : Nat}
    {r : Routine} {q : Agenda Nat} {w w' : Walker} :
    p.routines[i]? = some r → r.pending.pop? = some (b, q) → w.table = p.table → w.calls = p.calls →
    w.routine = { r with status := .analyzing, pending := q } → Enters (p.setting sigs b) w w' →
    Slip ⟨p, sigs, reports ++ w.reports.toList⟩ ⟨p.after i w', sigs, reports ++ w'.reports.toList⟩
  /-- What was reported is lost. -/
  | drop {p : Program} {sigs : List Signature} {reports : List (Nat × Tuple)} :
    Slip ⟨p, sigs, reports⟩ (.of p)

/-! ### What moves keep -/

/-- The signatures are those of the routines, up to what they return, and the reported calls
are in order. -/
structure Mid.Tidy (m : Mid) : Prop where
  count : m.sigs.length = m.program.size
  sigs : ∀ (i : Nat) (s : Signature), m.sigs[i]? = some s →
    ∃ r, m.program.routines[i]? = some r ∧ s = { r.signature with returns := s.returns } ∧
      s.returns ≤ r.scope.returns ∧ m.program.table.Knows s.returns
  reports : ∀ x ∈ m.reports, x.1 < m.program.size ∧ ∀ a ∈ x.2, m.program.table.Knows a

structure Mid.Kept (m : Mid) : Prop extends m.Tidy where
  program : m.program.Kept

structure Mid.Sound (m : Mid) : Prop extends m.Tidy where
  program : m.program.Sound

variable {m m' : Mid} {p p' : Program}

theorem Mid.Sound.kept (h : m.Sound) : m.Kept := ⟨h.toTidy, h.program.toKept⟩

theorem Mid.tidy_of (h : p.Kept) : (Mid.of p).Tidy where
  count := length_map _
  sigs i s hs := by
    obtain ⟨r, hr, rfl⟩ : ∃ r, p.routines[i]? = some r ∧ r.signature = s := by
      simpa [Mid.of, Program.signatures] using hs
    exact ⟨r, hr, rfl, le_refl _, (h.valid hr).returns⟩
  reports x hx := by cases hx

theorem Mid.kept_of (h : p.Kept) : (Mid.of p).Kept := ⟨Mid.tidy_of h, h⟩

theorem Mid.sound_of (h : p.Sound) : (Mid.of p).Sound := ⟨Mid.tidy_of h.toKept, h⟩

theorem Mid.Tidy.of_routines (h : m.Tidy) (hsize : p'.size = m.program.size)
    (htable : m.program.table.Extends p'.table)
    (hroutines : ∀ (i : Nat) (r : Routine), m.program.routines[i]? = some r →
      ∃ r', p'.routines[i]? = some r' ∧
        r.signature = { r'.signature with returns := r.scope.returns } ∧
        r.scope.returns ≤ r'.scope.returns)
    (hreports : ∀ x ∈ reports, x.1 < m.program.size ∧ ∀ a ∈ x.2, p'.table.Knows a) :
    Mid.Tidy ⟨p', m.sigs, reports⟩ where
  count := h.count.trans hsize.symm
  sigs i s hs := by
    obtain ⟨r, hr, heq, hle, hknown⟩ := h.sigs i s hs
    obtain ⟨r', hr', hsig, hgrow⟩ := hroutines i r hr
    refine ⟨r', hr', ?_, le_trans hle hgrow, hknown.mono htable⟩
    rw [heq, hsig]
  reports x hx := ⟨hsize.symm ▸ (hreports x hx).1, (hreports x hx).2⟩

section Walk

variable {sigs : List Signature} {reports : List (Nat × Tuple)} {i b : Nat}
  {r : Routine} {q : Agenda Nat} {w w' : Walker}

theorem Mid.Kept.enter (h : Mid.Kept ⟨p, sigs, reports ++ w.reports.toList⟩)
    (hr : p.routines[i]? = some r) (htable : w.table = p.table) (hcalls : w.calls = p.calls)
    (hroutine : w.routine = { r with status := .analyzing, pending := q })
    (hwalk : Enters (p.setting sigs b) w w') :
    Mid.Kept ⟨p.after i w', sigs, reports ++ w'.reports.toList⟩ := by
  have hkept := h.program
  have hadv := hwalk.advances
  have hext : p.table.Extends w'.table := htable ▸ hadv.table
  have hsize : (p.after i w').size = p.size := length_set
  have hcount : (p.setting sigs b).signatures.length = p.size := h.count
  have hid : w'.routine.id = r.id := by rw [hadv.frame, hroutine]
  have hgraph : w'.routine.graph = r.graph := by rw [hadv.graph, hroutine]
  have hget : ∀ j, (p.after i w').routines[j]? = if i = j then some w'.routine else p.routines[j]? :=
    Program.routines_put hr w'.routine
  have hvalid : w'.routine.Valid w'.table p.size := hcount ▸ hwalk.after.routine
  -- Edges that were there already; a walk into a block that has not been reached makes no other.
  have hold : ∀ e ∈ w'.calls.edges, (∃ d ∈ w.calls.edges, d.key = e.key) →
      (p.after i w').EdgeSound e := by
    rintro e he ⟨d, hd, hkey⟩
    have hedge := hkept.edges d (hcalls ▸ hd)
    simp only [CallEdge.key, Prod.mk.injEq] at hkey
    obtain ⟨hk1, hk2, hk3, hk4⟩ := hkey
    obtain ⟨s, hs, hreach, hsite⟩ := hedge.caller
    refine ⟨hsize.symm ▸ hk2 ▸ hedge.callee, ?_, hwalk.after.edges e he⟩
    rw [← hk1, ← hk3, ← hk4, hget]
    split
    next heq =>
      rw [← heq, hr] at hs
      cases hs
      exact ⟨w'.routine, rfl, hgraph ▸ hreach, hgraph ▸ hsite⟩
    next => exact ⟨s, hs, hreach, hsite⟩
  have hprogram : (p.after i w').Kept := by
    refine ⟨hwalk.after.table, fun j s hs => ?_, fun s hs => ?_,
      fun name id hid => hsize.symm ▸ hkept.directory name id hid, fun e he => ?_⟩
    · rcases Program.of_put hr hs with ⟨rfl, rfl⟩ | ⟨-, hs⟩
      · exact hid.trans (hkept.ids i r hr)
      · exact hkept.ids j s hs
    · rw [hsize]
      rcases mem_or_eq_of_mem_set hs with hs | rfl
      · exact (hkept.routines s hs).mono hext
      · exact hvalid
    · rcases hwalk.here with hhere | rfl
      · rcases hadv.made e he with hd | ⟨hcaller, hcallee, hsite, hblock⟩
        · exact hold e he hd
        · have hr' : w.routine.id = i := by
            rw [hroutine]
            exact hkept.ids i r hr
          have hgraph' : w'.routine.graph = w.routine.graph := hadv.graph
          refine ⟨hsize.symm ▸ hcount ▸ hcallee, ⟨w'.routine, ?_, ?_, ?_⟩, hwalk.after.edges e he⟩
          · rw [hget, if_pos (hr'.symm.trans hcaller.symm)]
          · rw [hgraph', hblock]
            exact hwalk.before.routine.reach _ hhere
          · rw [hgraph', hblock]
            exact hsite
      · exact hold e he ⟨e, he, rfl⟩
  refine ⟨h.of_routines hsize hext (fun j s hs => ?_) fun x hx => ?_, hprogram⟩
  · rw [hget]
    split
    next heq =>
      rw [← heq, show (⟨p, sigs, reports ++ w.reports.toList⟩ : Mid).program.routines = p.routines from rfl,
        hr] at hs
      cases hs
      refine ⟨w'.routine, rfl, ?_, ?_⟩
      · rw [hadv.frame, hroutine]
        rfl
      · have := hadv.returns
        rw [hroutine] at this
        exact this
    next => exact ⟨s, hs, rfl, le_refl _⟩
  · rcases mem_append.1 hx with hx | hx
    · obtain ⟨hlt, hknown⟩ := h.reports x (mem_append_left _ hx)
      exact ⟨hlt, fun a ha => (hknown a ha).mono hext⟩
    · obtain ⟨hlt, hknown⟩ := hwalk.after.reports x (Array.mem_toList_iff.1 hx)
      exact ⟨hcount ▸ hlt, hknown⟩

theorem Mid.Sound.walk (h : Mid.Sound ⟨p, sigs, reports ++ w.reports.toList⟩)
    (hr : p.routines[i]? = some r) (hpop : r.pending.pop? = some (b, q)) (htable : w.table = p.table)
    (hcalls : w.calls = p.calls) (hroutine : w.routine = { r with status := .analyzing, pending := q })
    (hwalk : Walks (p.setting sigs b) w w') :
    Mid.Sound ⟨p.after i w', sigs, reports ++ w'.reports.toList⟩ := by
  have hmem := mem_of_getElem? hr
  have hgrows := hwalk.advances.toGrows
  have hreached := hwalk.reached
  rw [hroutine] at hgrows hreached
  have hkept := h.kept.enter hr htable hcalls hroutine hwalk.enters
  have hgrounded : w'.routine.Grounded := by
    refine Routine.Grounded.grow (r := { r with status := .analyzing, pending := q })
      (fun b' hb' => h.program.grounded r hmem b' ?_) hgrows
    rw [(Agenda.pop?_spec hpop).1]
    exact .tail _ hb'
  have hspread : w'.routine.Spread :=
    Routine.Spread.walk (r := { r with status := .analyzing }) (h.program.spread r hmem)
      (Agenda.pop?_spec hpop).1 hgrows hreached
  exact ⟨hkept.toTidy, hkept.program, Program.forall_put h.program.grounded hgrounded i,
    Program.forall_put h.program.spread hspread i⟩

end Walk

section Report

variable {sigs : List Signature} {callee : Nat} {args : Tuple}

theorem Mid.Kept.observing (h : Mid.Kept ⟨p, sigs, (callee, args) :: reports⟩) {r : Routine}
    (hr : p.routines[callee]? = some r) : (Program.observing r args).Valid p.table p.size :=
  have hvalid := h.program.valid hr
  hvalid.observe (Routine.knows_observe hvalid.observed (h.reports _ (.head _)).2)
    Routine.length_observe

theorem Mid.Kept.grows (h : Mid.Kept ⟨p, sigs, (callee, args) :: reports⟩)
    (hrun : Program.report callee args p = .ok () p') :
    ∃ r r', p.routines[callee]? = some r ∧ p' = p.put callee r' ∧ r'.Valid p.table p.size ∧
      (Program.observing r args).Grows r' ∧
      r' = { Program.observing r args with inputs := r'.inputs, pending := r'.pending } := by
  obtain ⟨r, r', hr, rfl, rfl | ⟨c, hseed⟩⟩ := Program.report_put hrun
  · exact ⟨r, _, hr, rfl, h.observing hr, .refl _, rfl⟩
  · obtain ⟨hvalid, hflows⟩ := (h.observing hr).seed_flows h.program.table hseed
    exact ⟨r, r', hr, rfl, hvalid, hflows.grows, hflows.frame⟩

theorem Mid.Kept.report (h : Mid.Kept ⟨p, sigs, (callee, args) :: reports⟩)
    (hrun : Program.report callee args p = .ok () p') : Mid.Kept ⟨p', sigs, reports⟩ := by
  obtain ⟨r, r', hr, rfl, hvalid, hgrows, hframe⟩ := h.grows hrun
  have hid : r'.id = r.id := by rw [hframe]; rfl
  refine ⟨h.of_routines (Program.size_put ..) (.refl _) (fun j s hs => ?_)
    fun x hx => h.reports x (.tail _ hx), h.program.put hr hid hgrows.graph hvalid⟩
  have hs' : p.routines[j]? = some s := hs
  rw [Program.routines_put hr]
  split
  next heq =>
    rw [← heq, hr] at hs'
    cases hs'
    exact ⟨r', rfl, by rw [hframe]; rfl, hgrows.returns⟩
  next => exact ⟨s, hs', rfl, le_refl _⟩

theorem Mid.Sound.report (h : Mid.Sound ⟨p, sigs, (callee, args) :: reports⟩)
    (hrun : Program.report callee args p = .ok () p') : Mid.Sound ⟨p', sigs, reports⟩ := by
  have hkept := h.kept.report hrun
  obtain ⟨r, r', hr, rfl, -, hgrows, -⟩ := h.kept.grows hrun
  have hmem := mem_of_getElem? hr
  have hgrounded : (Program.observing r args).Grounded := h.program.grounded r hmem
  have hspread : (Program.observing r args).Spread := h.program.spread r hmem
  exact ⟨hkept.toTidy, hkept.program,
    Program.forall_put h.program.grounded (hgrounded.grow hgrows) callee,
    Program.forall_put h.program.spread (hspread.grow hgrows) callee⟩

end Report

theorem Move.kept (h : Move m m') (hm : m.Kept) : m'.Kept := by
  cases h with
  | change hc => exact Mid.kept_of (hc.kept hm.program)
  | walk hr _ htable hcalls hroutine hwalk => exact hm.enter hr htable hcalls hroutine hwalk.enters
  | report hrun => exact hm.report hrun
  | notify _ => exact Mid.kept_of (hm.program.piles (Program.notify_piles _ _))

theorem Turn.kept (h : Turn m m') (hm : m.Kept) : m'.Kept := by
  cases h with
  | move h => exact h.kept hm
  | notify => exact Mid.kept_of (hm.program.piles (Program.notify_piles _ _))

theorem Slip.kept (h : Slip m m') (hm : m.Kept) : m'.Kept := by
  cases h with
  | enter hr _ htable hcalls hroutine hwalk => exact hm.enter hr htable hcalls hroutine hwalk
  | drop => exact Mid.kept_of hm.program

theorem Move.sound (h : Move m m') (hm : m.Sound) : m'.Sound := by
  cases h with
  | change hc => exact Mid.sound_of (hc.sound hm.program)
  | walk hr hpop htable hcalls hroutine hwalk =>
    exact hm.walk hr hpop htable hcalls hroutine hwalk
  | report hrun => exact hm.report hrun
  | notify hcomplete =>
    obtain ⟨hq, -⟩ := Program.notify_spec _ (hm.program.callReached hcomplete)
    exact Mid.sound_of (hm.program.tweak (hq.mono fun _ _ _ _ => Routine.Tweak.queue))

theorem Program.Change.table (h : p.Change p') : p.table.Extends p'.table := by
  cases h with
  | adjust ha =>
    cases ha with
    | extend hext _ => exact hext
    | tweak he => exact he.frame ▸ .refl _
    | relabel | push => exact .refl _
  | declare | resolve | forget => exact .refl _

theorem Turn.table (h : Turn m m') : m.program.table.Extends m'.program.table := by
  have hnotify : ∀ (sigs : List Signature) (p : Program),
      p.table.Extends (sigs.foldl Program.notifyCallers p).table := fun sigs p => by
    rw [(Program.notify_piles sigs p).frame]
    exact .refl _
  cases h with
  | move h =>
    cases h with
    | change hc => exact hc.table
    | @walk p _ _ i _ _ _ w w' _ _ htable _ _ hwalk =>
      show p.table.Extends w'.table
      exact htable ▸ hwalk.advances.table
    | report hrun =>
      obtain ⟨r, r', -, rfl, -⟩ := Program.report_put hrun
      exact .refl _
    | notify _ => exact hnotify _ _
  | notify => exact hnotify _ _

/-- Moves one after the other. -/
abbrev Moves : Mid → Mid → Prop := Relation.ReflTransGen Move

theorem Moves.kept (h : Moves m m') (hm : m.Kept) : m'.Kept := by
  induction h with
  | refl => exact hm
  | tail _ hmove ih => exact hmove.kept ih

theorem Moves.sound (h : Moves m m') (hm : m.Sound) : m'.Sound := by
  induction h with
  | refl => exact hm
  | tail _ hmove ih => exact hmove.sound ih

/-- Acts one after the other. -/
abbrev Acts : Mid → Mid → Prop := Relation.ReflTransGen Act

theorem Acts.moves (h : Acts m m') : Moves m m' :=
  .mono (fun _ _ => Act.move) _ _ h

/-- Turns one after the other. -/
abbrev Turns : Mid → Mid → Prop := Relation.ReflTransGen Turn

theorem Moves.turns (h : Moves m m') : Turns m m' := .mono (fun _ _ => Turn.move) _ _ h

theorem Turns.table (h : Turns m m') : m.program.table.Extends m'.program.table := by
  induction h with
  | refl => exact .refl _
  | tail _ hturn ih => exact ih.trans hturn.table

theorem Turns.kept (h : Turns m m') (hm : m.Kept) : m'.Kept := by
  induction h with
  | refl => exact hm
  | tail _ hturn ih => exact hturn.kept ih

/-- Slips one after the other. -/
abbrev Slips : Mid → Mid → Prop := Relation.ReflTransGen Slip

theorem Slips.kept (h : Slips m m') (hm : m.Kept) : m'.Kept := by
  induction h with
  | refl => exact hm
  | tail _ hslip ih => exact hslip.kept ih

end ShapeFlow
