/-
# What a move does to one routine

Most of what can be said of a program in the middle of its analysis is said of
its routines one by one.  A move leaves a routine as it is, marks or queues it,
enters it again, forgets it, takes a call into account, or walks through one of
its blocks; or it adds the routine.

Key definitions: `Routine.Stirs`, `Routine.Evolves`, `Mid.Alters`.
Key theorems: `Routine.Stirs.stands`, `Move.evolves`, `Moves.routines`, `Routine.Evolves.text`.
-/
import ShapeFlow.Proofs.Moves

namespace ShapeFlow

open ShapeFlow.Flow Infer

namespace Routine

variable {r r' : Routine} {m : Mid} {i : Nat}

/-- What a move makes of a routine that it does not walk through. -/
inductive Stirs (m : Mid) (r r' : Routine) : Prop
  | tweak : Tweak m.program.table r r' → Stirs m r r'
  | forget (observed : List TypeSet) : r' = { r.forget with status := .invalidated, observed } →
    Stirs m r r'
  /-- A call is taken into account that does not matter for the entry. -/
  | observe {args : Tuple} : r.exported = true ∨ r.fixed ≠ none → r' = Program.observing r args →
    Stirs m r r'
  /-- A call is taken into account and the routine entered with it. -/
  | enter {args : Tuple} {c : Bool} :
    (Program.observing r args).Valid m.program.table m.program.size →
    (Program.observing r args).seed = .ok (c, r') → Stirs m r r'

/-- What one move makes of a routine. -/
inductive Evolves (m : Mid) (r r' : Routine) : Prop
  | stir : Stirs m r r' → Evolves m r r'
  | walk {b : Nat} {q : Agenda Nat} {w w' : Walker} : r.pending.pop? = some (b, q) →
    w.table = m.program.table → w.calls = m.program.calls →
    w.routine = { r with status := .analyzing, pending := q } →
    Walks (m.program.setting m.sigs b) w w' → r' = w'.routine → Evolves m r r'

theorem Stirs.refl (m : Mid) (r : Routine) : Stirs m r r := .tweak (.queue (.refl r))

/-- What is written of a routine, not found out. -/
structure SameText (r r' : Routine) : Prop where
  id : r'.id = r.id
  name : r'.name = r.name
  params : r'.params = r.params
  graph : r'.graph = r.graph
  exported : r'.exported = r.exported
  origin : r'.origin = r.origin
  fixed : r'.fixed = r.fixed
  scope : r'.scope.id = r.scope.id
  names : r'.scope.names = r.scope.names

theorem SameText.of_frame
    (h : r' = { r with
      status := r'.status, facts := r'.facts, inputs := r'.inputs, sites := r'.sites
      observed := r'.observed, pending := r'.pending, flags := r'.flags
      candidates := r'.candidates, applied := r'.applied }) : SameText r r' := by
  rw [h]
  exact ⟨rfl, rfl, rfl, rfl, rfl, rfl, rfl, rfl, rfl⟩

theorem Grows.text (h : Grows r r') : SameText r r' where
  id := by rw [h.frame]
  name := by rw [h.frame]
  params := by rw [h.frame]
  graph := h.graph
  exported := by rw [h.frame]
  origin := by rw [h.frame]
  fixed := by rw [h.frame]
  scope := h.scope
  names := h.names

theorem Stirs.text (h : r.Stirs m r') (hm : m.Kept) (hr : m.program.routines[i]? = some r) :
    SameText r r' := by
  have hvalid := hm.program.valid hr
  cases h with
  | tweak ht =>
    apply SameText.of_frame
    rw [ht.frame hvalid hm.program.table]
  | forget observed heq =>
    subst heq
    exact ⟨rfl, rfl, rfl, rfl, rfl, rfl, rfl, rfl, names_forget _⟩
  | observe _ heq =>
    subst heq
    exact ⟨rfl, rfl, rfl, rfl, rfl, rfl, rfl, rfl, rfl⟩
  | enter hobserving hseed =>
    apply SameText.of_frame
    rw [(hobserving.seed_flows hm.program.table hseed).2.frame]
    rfl

theorem Evolves.text (h : r.Evolves m r') (hm : m.Kept) (hr : m.program.routines[i]? = some r) :
    SameText r r' := by
  cases h with
  | stir hstirs => exact hstirs.text hm hr
  | walk _ _ _ hroutine hwalk heq =>
    subst heq
    have htext := hwalk.advances.toGrows.text
    rw [hroutine] at htext
    exact { htext with }

/-- What has been found out about a routine is still known; blocks whose input changes are
queued. -/
structure Stands (r r' : Routine) : Prop where
  graph : r'.graph = r.graph
  scope : r'.scope = r.scope
  sites : r'.sites = r.sites
  facts : r'.facts = r.facts
  pending : ∀ b ∈ r.pending.toList, b ∈ r'.pending.toList
  inputs : ∀ b, r'.input? b = r.input? b ∨ b ∈ r'.pending.toList

theorem Flows.stands {b : Nat} {s : State} (h : Flows r r' b s) : Stands r r' where
  graph := by rw [h.frame]
  scope := by rw [h.frame]
  sites := by rw [h.frame]
  facts := by rw [h.frame]
  pending := h.pending
  inputs := h.grows.changed

theorem Tweak.stands {t : ShapeTable} {n : Nat} (h : Tweak t r r') (hr : r.Valid t n) (ht : t.Valid) :
    Stands r r' := by
  cases h with
  | queue hq =>
    refine ⟨?_, ?_, ?_, ?_, hq.kept, fun b => .inl ?_⟩
    all_goals rw [hq.frame]
    rfl
  | mark hmarks =>
    refine ⟨?_, ?_, ?_, ?_, fun b hb => ?_, fun b => .inl ?_⟩
    all_goals rw [hmarks.frame]
    · exact hb
    · rfl
  | seed hseed => exact (hr.seed_flows ht hseed).2.stands

/-- A routine that is not walked through is forgotten, or what is known of it stays. -/
theorem Stirs.stands (h : r.Stirs m r') (hm : m.Kept) (hr : m.program.routines[i]? = some r) :
    r.Stands r' ∨ ∃ observed, r' = { r.forget with status := .invalidated, observed } := by
  cases h with
  | tweak ht => exact .inl (ht.stands (hm.program.valid hr) hm.program.table)
  | forget observed heq => exact .inr ⟨observed, heq⟩
  | observe _ heq =>
    subst heq
    exact .inl ⟨rfl, rfl, rfl, rfl, fun _ hb => hb, fun _ => .inl rfl⟩
  | enter hobserving hseed =>
    have hstands := (hobserving.seed_flows hm.program.table hseed).2.stands
    exact .inl { hstands with }

end Routine

/-- Each routine changes as `R` says; routines that were not there are fresh. -/
structure Mid.Alters (R : Routine → Routine → Prop) (m m' : Mid) : Prop where
  old : ∀ (i : Nat) (r : Routine), m.program.routines[i]? = some r →
    ∃ r', m'.program.routines[i]? = some r' ∧ R r r'
  new : ∀ (i : Nat) (r' : Routine), m'.program.routines[i]? = some r' →
    (∃ r, m.program.routines[i]? = some r) ∨ r'.Fresh m'.program.table i

/-- Each routine evolves. -/
abbrev Mid.Evolves (m m' : Mid) : Prop := Mid.Alters (Routine.Evolves m) m m'

variable {m m' : Mid} {p p' : Program} {R : Routine → Routine → Prop}

theorem Mid.Alters.mono {R' : Routine → Routine → Prop} (h : Mid.Alters R m m')
    (hR : ∀ r r', R r r' → R' r r') : Mid.Alters R' m m' where
  old i r hr := by
    obtain ⟨r', hr', hrr'⟩ := h.old i r hr
    exact ⟨r', hr', hR r r' hrr'⟩
  new := h.new

theorem Mid.Alters.back (h : Mid.Alters R m m') {i : Nat} {r' : Routine}
    (hr' : m'.program.routines[i]? = some r') :
    (∃ r, m.program.routines[i]? = some r ∧ R r r') ∨ r'.Fresh m'.program.table i := by
  refine (h.new i r' hr').imp_left fun ⟨r, hr⟩ => ?_
  obtain ⟨s, hs, hrs⟩ := h.old i r hr
  obtain rfl := Option.mem_unique hs hr'
  exact ⟨r, hr, hrs⟩

namespace Program

variable {sigs : List Signature}

theorem alters_same (h : m'.program.routines = m.program.routines) (hR : ∀ r, R r r) :
    Mid.Alters R m m' where
  old _ r hr := ⟨r, h ▸ hr, hR r⟩
  new _ r' hr' := .inl ⟨r', h ▸ hr'⟩

theorem alters_each (he : Each R m.program m'.program) : Mid.Alters R m m' where
  old i r hr := he.forth hr
  new i r' hr' := by
    obtain ⟨r, hr, -⟩ := he.back hr'
    exact .inl ⟨r, hr⟩

theorem alters_put {i : Nat} {r r' : Routine} (hr : m.program.routines[i]? = some r)
    (hput : ∀ j, m'.program.routines[j]? = if i = j then some r' else m.program.routines[j]?)
    (hR : ∀ r, R r r) (h : R r r') : Mid.Alters R m m' where
  old j s hs := by
    rw [hput]
    split
    next heq =>
      rw [← heq, hr] at hs
      cases hs
      exact ⟨r', rfl, h⟩
    next => exact ⟨s, hs, hR s⟩
  new j s hs := by
    rw [hput] at hs
    split at hs
    next heq => exact .inl ⟨r, heq ▸ hr⟩
    next => exact .inl ⟨s, hs⟩

theorem Change.alters (h : Change p p') : Mid.Alters (Routine.Stirs (.of p)) (.of p) (.of p') := by
  cases h with
  | adjust ha =>
    cases ha with
    | relabel | extend => exact alters_same rfl (.refl _)
    | tweak he => exact (alters_each he).mono fun _ _ ht => .tweak ht
    | @push r hfresh =>
      refine ⟨fun i s hs => ⟨s, ?_, .refl _ s⟩, fun i s hs => ?_⟩
      · exact (List.getElem?_append_left (lt_of_getElem? hs)).trans hs
      · rcases getElem?_push hs with hs | ⟨rfl, rfl⟩
        · exact .inl ⟨s, hs⟩
        · exact .inr hfresh
  | declare | resolve => exact alters_same rfl (.refl _)
  | forget hr =>
    exact alters_put hr (routines_put hr _) (.refl _) (Routine.Stirs.forget _ rfl)

theorem report_alters {callee : Nat} {args : Tuple} {reports : List (Nat × Tuple)}
    (hm : Mid.Kept ⟨p, sigs, (callee, args) :: reports⟩) (h : report callee args p = .ok () p') :
    Mid.Alters (Routine.Stirs ⟨p, sigs, (callee, args) :: reports⟩) ⟨p, sigs, (callee, args) :: reports⟩
      ⟨p', sigs, reports⟩ := by
  obtain ⟨r, hr, ⟨-, rfl⟩ | ⟨hcond, rfl⟩ | ⟨c, r', hseed, rfl⟩⟩ := report_cases h
  · exact alters_same rfl (.refl _)
  · exact alters_put hr (routines_put hr _) (.refl _) (Routine.Stirs.observe hcond rfl)
  · exact alters_put hr (routines_put hr _) (.refl _) (Routine.Stirs.enter (hm.observing hr) hseed)

theorem notify_alters (hm : Mid.Kept ⟨p, sigs, []⟩) (hcomplete : ∀ r ∈ p.routines, r.Complete) :
    Mid.Alters (Routine.Stirs ⟨p, sigs, []⟩) ⟨p, sigs, []⟩ (.of (sigs.foldl notifyCallers p)) := by
  obtain ⟨hq, -⟩ := notify_spec _ (hm.program.callReached hcomplete)
  exact (alters_each hq).mono fun _ _ hqueues => .tweak (.queue hqueues)

end Program

/-- **A move evolves each routine.** -/
theorem Move.evolves (h : Move m m') (hm : m.Kept) : m.Evolves m' := by
  cases h with
  | change hc => exact hc.alters.mono fun _ _ => .stir
  | walk hr hpop htable hcalls hroutine hwalk =>
    exact Program.alters_put hr (Program.routines_put hr _) (fun r => .stir (.refl _ r))
      (Routine.Evolves.walk hpop htable hcalls hroutine hwalk rfl)
  | report hrun => exact (Program.report_alters hm hrun).mono fun _ _ => .stir
  | notify hcomplete => exact (Program.notify_alters hm hcomplete).mono fun _ _ => .stir

theorem Moves.routines {P : Routine → Prop} (h : Moves m m') (hm : m.Kept)
    (hfresh : ∀ (t : ShapeTable) (i : Nat) (r : Routine), r.Fresh t i → P r)
    (hlasts : ∀ (m : Mid) (i : Nat) (r r' : Routine), m.Kept → m.program.routines[i]? = some r →
      r.Evolves m r' → P r → P r')
    (hP : ∀ r ∈ m.program.routines, P r) : ∀ r ∈ m'.program.routines, P r := by
  induction h with
  | refl => exact hP
  | @tail m1 m2 hmoves hmove ih =>
    have hkept : m1.Kept := Moves.kept hmoves hm
    intro r' hr'
    obtain ⟨i, hi⟩ := List.getElem?_of_mem hr'
    rcases (hmove.evolves hkept).back hi with ⟨r, hr, hevolves⟩ | hnew
    · exact hlasts m1 i r r' hkept hr hevolves (ih r (List.mem_of_getElem? hr))
    · exact hfresh _ i r' hnew

end ShapeFlow
